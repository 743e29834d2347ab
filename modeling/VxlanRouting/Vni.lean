/-!
VXLAN network identifiers: the numbers from one to 2 ^ 24 - 1. Zero is reserved.
-/
namespace VxlanRouting

structure Vni where
  value : Nat
  pos : 0 < value
  lt : value < 0x1000000
  deriving DecidableEq, Repr

/-- Why a number is no network identifier. -/
inductive VniError where
  | reservedZero
  | tooLarge (value : Nat)
  deriving DecidableEq, Repr

def VniError.message : VniError → String
  | .reservedZero => "Zero is not a legal Vni"
  | .tooLarge n => "The value " ++ toString n ++ " is too large to be a Vni (max is 16777215)"

namespace Vni

def ofNat (n : Nat) : Except VniError Vni :=
  if hp : 0 < n then
    if hl : n < 0x1000000 then .ok ⟨n, hp, hl⟩ else .error (.tooLarge n)
  else .error .reservedZero

/-- The network identifier that a number is, if it is one. -/
def ofNat? (n : Nat) : Option Vni := (ofNat n).toOption

instance : ToString Vni := ⟨fun v => toString v.value⟩

instance : LT Vni := ⟨fun v w => v.value < w.value⟩

instance : DecidableLT Vni := fun v w => inferInstanceAs (Decidable (v.value < w.value))

@[simp] theorem ofNat_value (v : Vni) : ofNat v.value = .ok v := by
  rw [ofNat, dif_pos v.pos, dif_pos v.lt]

theorem ofNat_eq_reservedZero_iff {n : Nat} : ofNat n = .error .reservedZero ↔ n = 0 := by
  unfold ofNat
  split
  · split <;> simp <;> omega
  · simp; omega

theorem ofNat_eq_tooLarge_iff {n m : Nat} :
    ofNat n = .error (.tooLarge m) ↔ n = m ∧ 0x1000000 ≤ n := by
  unfold ofNat
  split
  · split <;> simp <;> omega
  · simp; omega

end Vni

end VxlanRouting
