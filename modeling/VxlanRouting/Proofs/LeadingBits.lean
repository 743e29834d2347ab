import VxlanRouting.Proofs.Location

/-!
Networks in terms of bits. The bits of an address are counted from its most significant one, and two
addresses lie in the same network if they are of one family and have the same first bits. Among
canonical prefixes, the network and the length say which prefix it is.
-/
namespace VxlanRouting

namespace Address

/-- A bit of the address; bit 0 is the most significant one. -/
def bit (a : Address) (i : Nat) : Bool := a.value.testBit (a.family.width - 1 - i)

/-- The addresses are of one family and have the same first `n` bits. -/
def Agree (a b : Address) (n : Nat) : Prop := a.family = b.family ∧ ∀ i < n, a.bit i = b.bit i

theorem testBit_eq_false {a : Address} {j : Nat} (h : a.family.width ≤ j) :
    a.value.testBit j = false := by
  have hlt := Nat.one_shiftLeft _ ▸ a.value_lt
  exact Nat.testBit_lt_two_pow (Nat.lt_of_lt_of_le hlt (Nat.pow_le_pow_right (by decide) h))

theorem shiftLeft_inj {m n k : Nat} : m <<< k = n <<< k ↔ m = n := by
  rw [Nat.shiftLeft_eq, Nat.shiftLeft_eq]
  exact Nat.mul_left_inj (Nat.ne_of_gt (Nat.two_pow_pos k))

/-- Clearing the bits behind the first `n` leaves what the first `n` bits say. -/
theorem network_eq_iff {a b : Address} {n : Nat} (hn : n ≤ a.family.width) :
    a.network n = b.network n ↔ a.Agree b n := by
  constructor
  · intro h
    have hf : a.family = b.family := by rw [← a.family_network n, h, b.family_network]
    have hv : a.value >>> a.hostBits n = b.value >>> a.hostBits n := by
      have hb : b.hostBits n = a.hostBits n := by simp only [hostBits]; rw [hf]
      have hv : (a.network n).value = (b.network n).value := congrArg Address.value h
      simp only [network] at hv
      rw [hb] at hv
      exact shiftLeft_inj.mp hv
    refine ⟨hf, fun i hi => ?_⟩
    have ht := congrArg (Nat.testBit · (n - 1 - i)) hv
    simp only [Nat.testBit_shiftRight, hostBits] at ht
    have hj : a.family.width - n + (n - 1 - i) = a.family.width - 1 - i := by omega
    simp only [bit]
    rwa [← hf, ← hj]
  · rintro ⟨hf, hbits⟩
    have hb : b.hostBits n = a.hostBits n := by simp only [hostBits]; rw [hf]
    refine ext_value hf ?_
    simp only [network]
    rw [hb]
    refine shiftLeft_inj.mpr (Nat.eq_of_testBit_eq fun j => ?_)
    rw [Nat.testBit_shiftRight, Nat.testBit_shiftRight]
    by_cases hj : a.hostBits n + j < a.family.width
    · have hi : a.family.width - 1 - (a.hostBits n + j) < n := by
        simp only [hostBits] at hj ⊢
        omega
      have hbit := hbits _ hi
      have hk : a.family.width - 1 - (a.family.width - 1 - (a.hostBits n + j)) =
          a.hostBits n + j := by omega
      simp only [bit] at hbit
      rwa [← hf, hk] at hbit
    · rw [testBit_eq_false (Nat.le_of_not_lt hj), testBit_eq_false (hf ▸ Nat.le_of_not_lt hj)]

/-- Clearing the bits behind the first `n` changes nothing if they are clear. -/
theorem network_eq_self_iff {a : Address} {n : Nat} (hn : n ≤ a.family.width) :
    a.network n = a ↔ ∀ i, n ≤ i → i < a.family.width → a.bit i = false := by
  have hclear : ∀ j, (a.network n).value.testBit j =
      (decide (a.hostBits n ≤ j) && a.value.testBit j) := by
    intro j
    simp only [network]
    rw [Nat.testBit_shiftLeft, Nat.testBit_shiftRight]
    by_cases hj : a.hostBits n ≤ j
    · rw [Nat.add_sub_cancel' hj]
    · simp [hj]
  constructor
  · intro h i hi hw
    have hj : ¬ a.hostBits n ≤ a.family.width - 1 - i := by
      simp only [hostBits]
      omega
    have ht := hclear (a.family.width - 1 - i)
    rw [h, decide_eq_false hj, Bool.false_and] at ht
    exact ht
  · intro h
    refine ext_value (by simp) (Nat.eq_of_testBit_eq fun j => ?_)
    rw [hclear]
    by_cases hj : a.hostBits n ≤ j
    · simp [hj]
    · have hbit := h (a.family.width - 1 - j) (by simp only [hostBits] at hj; omega)
        (by simp only [hostBits] at hj; omega)
      have hk : a.family.width - 1 - (a.family.width - 1 - j) = j := by
        simp only [hostBits] at hj
        omega
      simp only [bit] at hbit
      rw [hk] at hbit
      rw [hbit, Bool.and_false]

end Address

namespace Prefix

/-- The other prefix is at least as long and starts with the bits of this one. -/
def Leads (p q : Prefix) : Prop := p.length ≤ q.length ∧ p.address.Agree q.address p.length

theorem contains_iff {p q : Prefix} : p.Contains q ↔ p.Leads q := by
  have h : p.Covers q.address ↔ p.address.Agree q.address p.length := by
    rw [← Address.network_eq_iff p.length_le]
    exact eq_comm
  exact and_congr_right fun _ => h

theorem Leads.family {p q : Prefix} (h : p.Leads q) : p.family = q.family := h.2.1

/-- Canonical prefixes with one network and one length are the same. -/
theorem Canonical.eq_of_network {p q : Prefix} (hp : p.Canonical) (hq : q.Canonical)
    (hn : p.network = q.network) (hl : p.length = q.length) : p = q := by
  have ha : p.address = q.address := by rw [← hp, hn, hq]
  exact ext_parts ha hl

/-- No two canonical prefixes of one length lead to the same prefix. -/
theorem Leads.eq_of_length {p q r : Prefix} (hp : p.Canonical) (hq : q.Canonical) (h : p.Leads r)
    (h' : q.Leads r) (hl : p.length = q.length) : p = q := by
  have hc := (contains_iff.mpr h).2
  have hc' := (contains_iff.mpr h').2
  refine hp.eq_of_network hq ?_ hl
  rw [← show r.address.network p.length = p.network from hc, hl,
    show r.address.network q.length = q.network from hc']

end Prefix

end VxlanRouting
