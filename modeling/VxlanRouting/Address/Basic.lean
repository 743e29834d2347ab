/-!
IP addresses of both families. An address is a family and a natural below two to the family's width;
addresses of version 4 come before those of version 6. Clearing the low bits of an address gives the
network that it lies in, and clearing them again changes nothing.
-/
namespace VxlanRouting

inductive Family where
  | v4 | v6
  deriving DecidableEq, Repr

/-- The number of bits of an address, which is also the greatest prefix length. -/
def Family.width : Family → Nat
  | .v4 => 32
  | .v6 => 128

def Family.rank : Family → Nat
  | .v4 => 0
  | .v6 => 1

@[simp] theorem Family.rank_inj {f g : Family} : f.rank = g.rank ↔ f = g := by
  cases f <;> cases g <;> decide

structure Address where
  family : Family
  value : Nat
  value_lt : value < 1 <<< family.width
  deriving DecidableEq, Repr

namespace Address

theorem ext_value {a b : Address} (hf : a.family = b.family) (hv : a.value = b.value) : a = b := by
  cases a; cases b; simp_all

instance : LT Address where
  lt a b := a.family.rank < b.family.rank ∨ a.family = b.family ∧ a.value < b.value

instance : DecidableLT Address := fun a b =>
  inferInstanceAs (Decidable (a.family.rank < b.family.rank ∨
    a.family = b.family ∧ a.value < b.value))

theorem lt_def {a b : Address} :
    a < b ↔ a.family.rank < b.family.rank ∨ a.family = b.family ∧ a.value < b.value := Iff.rfl

theorem lt_irrefl (a : Address) : ¬ a < a := by simp [lt_def]

theorem lt_trans {a b c : Address} (h : a < b) (h' : b < c) : a < c := by
  rw [lt_def] at h h' ⊢
  rcases h with h | ⟨hf, hv⟩ <;> rcases h' with h' | ⟨hf', hv'⟩
  · exact .inl (by omega)
  · exact .inl (hf' ▸ h)
  · exact .inl (hf ▸ h')
  · exact .inr ⟨hf.trans hf', by omega⟩

theorem eq_of_not_lt {a b : Address} (h : ¬ a < b) (h' : ¬ b < a) : a = b := by
  rw [lt_def] at h h'
  have hr : a.family.rank = b.family.rank := by omega
  have hf : a.family = b.family := Family.rank_inj.mp hr
  exact ext_value hf (by
    have h₁ : ¬ a.value < b.value := fun hv => h (.inr ⟨hf, hv⟩)
    have h₂ : ¬ b.value < a.value := fun hv => h' (.inr ⟨hf.symm, hv⟩)
    omega)

/-- The number of bits of the address behind its first `n`. -/
def hostBits (a : Address) (n : Nat) : Nat := a.family.width - n

theorem shift_back_le (n k : Nat) : n >>> k <<< k ≤ n := by
  rw [Nat.shiftLeft_eq, Nat.shiftRight_eq_div_pow]
  exact Nat.div_mul_le_self _ _

/-- The address with all bits behind its first `n` cleared. -/
def network (a : Address) (n : Nat) : Address where
  family := a.family
  value := a.value >>> a.hostBits n <<< a.hostBits n
  value_lt := Nat.lt_of_le_of_lt (shift_back_le _ _) a.value_lt

@[simp] theorem family_network (a : Address) (n : Nat) : (a.network n).family = a.family := rfl

@[simp] theorem network_network (a : Address) (n : Nat) :
    (a.network n).network n = a.network n := by
  refine ext_value (by simp) ?_
  let h := a.hostBits n
  show a.value >>> h <<< h >>> h <<< h = a.value >>> h <<< h
  rw [Nat.shiftLeft_shiftRight]

/-- All bits kept. -/
@[simp] theorem network_width (a : Address) : a.network a.family.width = a := by
  refine ext_value (by simp) ?_
  simp [network, hostBits]

/-- The address all of whose bits are clear. -/
def unspecified (f : Family) : Address := ⟨f, 0, by cases f <;> decide⟩

/-- Group addresses: 224.0.0.0/4 and ff00::/8. -/
def IsMulticast (a : Address) : Prop :=
  match a.family with
  | .v4 => a.value >>> 28 = 14
  | .v6 => a.value >>> 120 = 255

instance (a : Address) : Decidable a.IsMulticast := by
  unfold IsMulticast
  cases a.family <;> infer_instance

/-- An address of version 6 that stands for one of version 4: ::ffff:0:0/96. -/
def IsMapped (a : Address) : Prop := a.family = .v6 ∧ a.value >>> 32 = 0xffff

instance (a : Address) : Decidable a.IsMapped := by
  unfold IsMapped; infer_instance

end Address

end VxlanRouting
