/-!
Groups of bits of a number, most significant group first. A number that has no more bits than the
groups hold is given back by its groups.
-/
namespace VxlanRouting

/-- The lowest `count` groups of `bits` bits each. -/
def groups (bits : Nat) : Nat → Nat → List Nat
  | 0, _ => []
  | count + 1, n => groups bits count (n >>> bits) ++ [n % 1 <<< bits]

/-- The number that has these groups of `bits` bits. -/
def ofGroups (bits : Nat) (gs : List Nat) : Nat :=
  gs.foldl (fun n g => n <<< bits + g) 0

@[simp] theorem length_groups (bits count n : Nat) : (groups bits count n).length = count := by
  induction count generalizing n with
  | zero => rfl
  | succ count ih => simp [groups, ih]

theorem one_shift_pos (bits : Nat) : 0 < 1 <<< bits := by
  rw [Nat.one_shiftLeft]; exact Nat.two_pow_pos bits

theorem lt_of_mem_groups {bits count n g : Nat} (h : g ∈ groups bits count n) : g < 1 <<< bits := by
  induction count generalizing n with
  | zero => simp [groups] at h
  | succ count ih =>
    simp only [groups, List.mem_append, List.mem_singleton] at h
    rcases h with h | h
    · exact ih h
    · rw [h]; exact Nat.mod_lt _ (one_shift_pos bits)

@[simp] theorem ofGroups_snoc (bits : Nat) (gs : List Nat) (g : Nat) :
    ofGroups bits (gs ++ [g]) = ofGroups bits gs <<< bits + g := by
  simp [ofGroups]

theorem ofGroups_groups (bits count n : Nat) (h : n < 1 <<< (bits * count)) :
    ofGroups bits (groups bits count n) = n := by
  induction count generalizing n with
  | zero =>
    have : n = 0 := by rw [Nat.mul_zero, Nat.shiftLeft_zero] at h; omega
    rw [this]; rfl
  | succ count ih =>
    have hq : n >>> bits < 1 <<< (bits * count) := by
      rw [Nat.one_shiftLeft] at h ⊢
      rw [Nat.shiftRight_eq_div_pow]
      apply Nat.div_lt_of_lt_mul
      rwa [← Nat.pow_add, Nat.add_comm, ← Nat.mul_succ]
    rw [groups, ofGroups_snoc, ih _ hq, Nat.shiftLeft_eq, Nat.shiftRight_eq_div_pow,
      Nat.one_shiftLeft, Nat.div_add_mod']

end VxlanRouting
