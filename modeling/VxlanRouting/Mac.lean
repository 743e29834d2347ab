import VxlanRouting.Address.Groups
import VxlanRouting.Text.Numeral
import VxlanRouting.Text.Pieces

/-!
Hardware addresses: six octets, written as pairs of capital hexadecimal digits with colons between
them. The zero address stands for one that is not known.
-/
namespace VxlanRouting

open Text

structure Mac where
  value : Nat
  value_lt : value < 0x1000000000000
  deriving DecidableEq, Repr

namespace Mac

def zero : Mac := ⟨0, by decide⟩

instance : Inhabited Mac := ⟨zero⟩

/-- An octet as two capital digits. -/
def octetText (n : Nat) : List Char :=
  (numeral 16 (n / 16) ++ numeral 16 (n % 16)).map Char.toUpper

def text (m : Mac) : List Char := joined ':' ((groups 8 6 m.value).map octetText)

instance : ToString Mac := ⟨fun m => String.ofList m.text⟩

/-- Reads six pairs of digits of either case. -/
def ofText? (s : List Char) : Option Mac :=
  if (pieces ':' s).length = 6 ∧ ∀ p ∈ pieces ':' s, p.length = 2 then
    match (pieces ':' s).mapM (natural? 16) with
    | some os => if h : ofGroups 8 os < 0x1000000000000 then some ⟨ofGroups 8 os, h⟩ else none
    | none => none
  else none

end Mac

end VxlanRouting
