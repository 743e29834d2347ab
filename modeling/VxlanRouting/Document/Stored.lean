import VxlanRouting.Document.Datum
import VxlanRouting.Prefix.Text
import VxlanRouting.Vni

/-!
The stored forms of network identifiers and prefixes. An identifier is stored as its number. A
prefix is stored as a record with one member, which is named for the family and holds a network
text; the bits of the address that do not count are kept.
-/
namespace VxlanRouting

def Vni.toDatum (v : Vni) : Datum := .integer v.value

def Vni.ofDatum? : Datum → Option Vni
  | .integer (.ofNat n) => Vni.ofNat? n
  | _ => none

/-- The name of the member that holds a prefix of the family. -/
def Family.memberName : Family → String
  | .v4 => "IPV4"
  | .v6 => "IPV6"

def Family.ofMemberName? (s : String) : Option Family := [Family.v4, .v6].find? (·.memberName == s)

def Prefix.toDatum (p : Prefix) : Datum :=
  .record [(p.family.memberName, .text (String.ofList p.text))]

def Prefix.ofDatum? : Datum → Option Prefix
  | .record [(name, .text s)] =>
    (Family.ofMemberName? name).bind fun f => Prefix.ofNetworkText? f s.toList
  | _ => none

end VxlanRouting
