import VxlanRouting.NextHop.Basic
import VxlanRouting.Peer
import VxlanRouting.Vni

/-!
Paths of a route: the next-hop of one peer with the attributes that it came with. The ECMP sequence
of a path numbers the member sets of a composite and tells nothing else about the path.
-/
namespace VxlanRouting

/-- The packet fields that the choice among equal paths hangs on, as bits. -/
structure LoadBalance where
  bits : UInt8 := 0
  deriving DecidableEq, Repr

/-- Both addresses, the protocol and both ends of the transport. -/
def LoadBalance.fiveTuple : LoadBalance := ⟨31⟩

structure Preference where
  sequence : Nat := 0
  preference : Nat := 0
  ecmp : Bool := false
  deriving DecidableEq, Repr

/-- All that a path carries besides its peer and its next-hop. -/
structure Attributes where
  destVns : List String := []
  securityGroups : List Nat := []
  communities : List String := []
  tags : List Nat := []
  preference : Preference := {}
  loadBalance : LoadBalance := {}
  sequence : Nat := 0
  vni : Option Vni := none
  tunnelTypes : TunnelTypes := .empty
  policy : Bool := false
  ecmpSequence : Nat := 0
  deriving DecidableEq, Repr

/-- Equal but for the ECMP sequence. -/
def Attributes.Agrees (a b : Attributes) : Prop :=
  a = { b with ecmpSequence := a.ecmpSequence }

instance (a b : Attributes) : Decidable (a.Agrees b) := inferInstanceAs (Decidable (_ = _))

theorem Attributes.Agrees.refl (a : Attributes) : a.Agrees a := rfl

/-- What an advertisement takes over: all but the ECMP sequence, under its own encapsulation. -/
def Attributes.advertised (a : Attributes) (t : TunnelTypes) : Attributes :=
  { a with tunnelTypes := t, ecmpSequence := 0 }

structure Path where
  peer : Peer
  hop : NextHop
  attrs : Attributes
  deriving DecidableEq

namespace Path

/-- One path comes before another by kind of peer, then by greater preference, then by name. -/
def Before (p q : Path) : Prop :=
  p.peer.kind.rank < q.peer.kind.rank ∨ p.peer.kind = q.peer.kind ∧
    (q.attrs.preference.preference < p.attrs.preference.preference ∨
      q.attrs.preference.preference = p.attrs.preference.preference ∧ p.peer.name < q.peer.name)

instance (p q : Path) : Decidable (p.Before q) := inferInstanceAs (Decidable (_ ∨ _))

/-- The parts of the text that are there only if the attributes have something to say. -/
def optionalText (a : Attributes) : String :=
  (match a.vni with
    | some v => " vni " ++ toString v
    | none => "") ++
  (if a.destVns.isEmpty then "" else " vn " ++ ",".intercalate a.destVns) ++
  (if a.securityGroups.isEmpty then ""
    else " sg [" ++ ", ".intercalate (a.securityGroups.map toString) ++ "]") ++
  (if a.ecmpSequence = 0 then "" else " ecmp-seq " ++ toString a.ecmpSequence)

instance : ToString Path where
  toString p := toString p.peer ++ " via " ++ toString p.hop ++ optionalText p.attrs ++
    " seq " ++ toString p.attrs.sequence

end Path

end VxlanRouting
