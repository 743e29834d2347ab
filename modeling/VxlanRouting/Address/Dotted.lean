import VxlanRouting.Address.Groups
import VxlanRouting.Text.Numeral
import VxlanRouting.Text.Pieces

/-!
Dotted quads: four octets in decimal, with points between them. Written octets have no leading zero,
and the plain spelling takes none either; the loose one, which network texts use, takes them.
-/
namespace VxlanRouting

open Text

/-- How freely an address may be spelled. -/
structure Spelling where
  /-- Octets may have leading zeros. -/
  paddedOctets : Bool
  /-- Two colons may stand for no group at all. -/
  emptyGap : Bool
  deriving DecidableEq, Repr

def Spelling.plain : Spelling := ⟨false, false⟩

def Spelling.loose : Spelling := ⟨true, true⟩

/-- An octet has at most three digits. -/
def octet? (sp : Spelling) (s : List Char) : Option Nat :=
  match natural? 10 s with
  | some n =>
    if n < 256 ∧ s.length ≤ 3 ∧ (sp.paddedOctets ∨ numeral 10 n = s) then some n else none
  | none => none

def octets? (sp : Spelling) (s : List Char) : Option (List Nat) :=
  if (pieces '.' s).length = 4 then (pieces '.' s).mapM (octet? sp) else none

/-- The number that a dotted quad stands for. -/
def dotted? (sp : Spelling) (s : List Char) : Option Nat := (octets? sp s).map (ofGroups 8)

def dottedText (n : Nat) : List Char := joined '.' ((groups 8 4 n).map (numeral 10))

end VxlanRouting
