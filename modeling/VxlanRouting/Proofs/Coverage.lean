import VxlanRouting.Proofs.HostBits

/-!
Covering and matching. That a prefix covers an address can be asked in three ways: the address has
its first bits, the address lies between the first and the last one of the network, or the prefix is
the one of the address and its own length. They agree for canonical prefixes, at lengths of zero and
of the full width too, and no prefix covers or matches an address of the other family.
-/
namespace VxlanRouting.Prefix

/-- The last address of the network, all of whose bits behind the first ones are set. -/
def last (p : Prefix) : Address where
  family := p.family
  value := p.network.value ||| (1 <<< p.address.hostBits p.length - 1)
  value_lt := by
    have hnet := p.network.value_lt
    have hle : p.address.hostBits p.length ≤ p.family.width := Nat.sub_le _ _
    rw [Nat.one_shiftLeft] at hnet ⊢
    rw [Nat.one_shiftLeft]
    have hpow := Nat.pow_le_pow_right (n := 2) (by decide) hle
    have hpos := Nat.two_pow_pos (p.address.hostBits p.length)
    exact Nat.or_lt_two_pow hnet (by omega)

/-- The address lies between the first and the last one of the network. -/
def Spans (p : Prefix) (a : Address) : Prop :=
  a.family = p.family ∧ p.network.value ≤ a.value ∧ a.value ≤ p.last.value

instance (p : Prefix) (a : Address) : Decidable (p.Spans a) :=
  inferInstanceAs (Decidable (_ ∧ _ ∧ _))

theorem network_value (p : Prefix) :
    p.network.value = p.address.value >>> p.address.hostBits p.length *
      1 <<< p.address.hostBits p.length := by
  simp only [network, Address.network]
  rw [Nat.shiftLeft_eq, Nat.one_shiftLeft]

theorem last_value (p : Prefix) :
    p.last.value = p.address.value >>> p.address.hostBits p.length *
      1 <<< p.address.hostBits p.length + 1 <<< p.address.hostBits p.length - 1 := by
  have hpos := one_shift_pos (p.address.hostBits p.length)
  have hlt : 1 <<< p.address.hostBits p.length - 1 < 2 ^ p.address.hostBits p.length := by
    rw [Nat.one_shiftLeft] at hpos ⊢
    omega
  simp only [last, network, Address.network]
  rw [← Nat.shiftLeft_add_eq_or_of_lt hlt, Nat.shiftLeft_eq _ (p.address.hostBits p.length),
    ← Nat.one_shiftLeft]
  omega

theorem family_of_covers {p : Prefix} {a : Address} (h : p.Covers a) : a.family = p.family := by
  have hn : (a.network p.length).family = p.network.family := congrArg Address.family h
  exact hn

/-- A prefix covers the addresses of its family that have its first bits. -/
theorem covers_iff_agree {p : Prefix} {a : Address} :
    p.Covers a ↔ a.Agree p.network p.length := by
  have hself : p.network.network p.length = p.network := Address.network_network _ _
  have hcovers : p.Covers a ↔ p.network.network p.length = a.network p.length := by
    rw [hself]
    exact eq_comm
  rw [hcovers, Address.network_eq_iff (a := p.network) p.length_le]
  exact ⟨fun h => ⟨h.1.symm, fun i hi => (h.2 i hi).symm⟩,
    fun h => ⟨h.1.symm, fun i hi => (h.2 i hi).symm⟩⟩

/-- A prefix covers what lies between its first and its last address. -/
theorem covers_iff_spans {p : Prefix} {a : Address} : p.Covers a ↔ p.Spans a := by
  have hpos := one_shift_pos (p.address.hostBits p.length)
  have hshift : a.family = p.family → (p.Covers a ↔
      a.value / 1 <<< p.address.hostBits p.length =
        p.address.value >>> p.address.hostBits p.length) := by
    intro hf
    have hbits : a.hostBits p.length = p.address.hostBits p.length :=
      congrArg (·.width - p.length) hf
    rw [Nat.one_shiftLeft, ← Nat.shiftRight_eq_div_pow,
      ← Address.shiftLeft_inj (k := p.address.hostBits p.length)]
    constructor
    · intro h
      have hv : (a.network p.length).value = p.network.value := congrArg Address.value h
      simp only [network, Address.network] at hv
      rwa [hbits] at hv
    · intro h
      refine Address.ext_value hf ?_
      simp only [network, Address.network]
      rwa [hbits]
  rw [Spans, network_value, last_value]
  constructor
  · intro h
    have hf := family_of_covers h
    exact ⟨hf, (Nat.div_eq_iff hpos).mp ((hshift hf).mp h)⟩
  · rintro ⟨hf, hrange⟩
    exact (hshift hf).mpr ((Nat.div_eq_iff hpos).mpr hrange)

/-- A canonical prefix is the one of each address that it covers. -/
theorem Canonical.ofAddress?_eq_iff {p : Prefix} (h : p.Canonical) {a : Address} {n : Nat} :
    ofAddress? a n = .ok p ↔ n = p.length ∧ p.Covers a := by
  constructor
  · intro ho
    simp only [ofAddress?] at ho
    split at ho
    next hn =>
      cases ho
      refine ⟨rfl, ?_⟩
      exact (network_canonical ⟨a, n, hn⟩).symm
    next => cases ho
  · rintro ⟨rfl, hc⟩
    have hn : p.length ≤ a.family.width := by
      rw [family_of_covers hc]
      exact p.length_le
    rw [ofAddress?, dif_pos hn]
    exact congrArg Except.ok (ext_parts (hc.trans h) rfl)

theorem matches_iff_ofAddress? {p : Prefix} {a : Address} {n : Nat} :
    p.Matches a n ↔ ofAddress? a n = .ok p := by
  simp only [Matches]
  cases ofAddress? a n <;> simp [Except.toOption]

theorem covers_host_iff {a b : Address} : (host a).Covers b ↔ b = a := by
  constructor
  · intro h
    have hf : b.family = a.family := family_of_covers h
    have hb : b.network a.family.width = a := h.trans (canonical_host a)
    rwa [← hf, Address.network_width] at hb
  · rintro rfl
    rfl

/-- However a prefix has been obtained other than from stored data, it matches the addresses that
agree with its own on its first bits, at its own length; these are the addresses that it covers, in
either way of asking; and it is the prefix of each of them. The prefix of an address at full width
is its host prefix, which covers nothing else. -/
theorem covers_matches_agree (o : Origin) (p : Prefix) (h : o.prefix? = some p)
    (ho : ∀ d, o ≠ .stored d) :
    (∀ a n, p.Matches a n ↔
      a.family = p.family ∧ n = p.length ∧ ∀ i < n, a.bit i = p.network.bit i) ∧
    (∀ a, (p.Covers a ↔ p.Matches a p.length) ∧ (p.Covers a ↔ p.Spans a)) ∧
    ofAddress? p.network p.length = .ok p ∧
    (∀ a, p.Covers a → ofAddress? a p.length = .ok p) ∧
    ∀ a : Address, ofAddress? a a.family.width = .ok (host a) ∧ (host a).IsHost ∧
      ∀ b, (host a).Covers b ↔ b = a := by
  have hp : p.Canonical := Origin.canonical h ho
  have hmatches : ∀ a n, p.Matches a n ↔ n = p.length ∧ p.Covers a := fun a n => by
    rw [matches_iff_ofAddress?, hp.ofAddress?_eq_iff]
  refine ⟨fun a n => ?_, fun a => ⟨?_, covers_iff_spans⟩, ofAddress?_network_eq_iff.mpr hp,
    fun a ha => hp.ofAddress?_eq_iff.mpr ⟨rfl, ha⟩, fun a => ⟨?_, rfl, fun b => covers_host_iff⟩⟩
  · rw [hmatches, covers_iff_agree, Address.Agree]
    constructor
    · rintro ⟨rfl, hf, hbits⟩
      exact ⟨hf, rfl, hbits⟩
    · rintro ⟨hf, rfl, hbits⟩
      exact ⟨rfl, hf, hbits⟩
  · rw [hmatches]
    exact ⟨fun ha => ⟨rfl, ha⟩, fun ha => ha.2⟩
  · exact (canonical_host a).ofAddress?_eq_iff.mpr ⟨rfl, covers_host_iff.mpr rfl⟩

/-- 10.1.2.0/24, built from 10.1.2.3, covers 10.1.2.255 and no address of version 6; it matches
10.1.2.255 at its own length only. -/
theorem covers_matches_agree_of_pair :
    ∃ p : Prefix, (Origin.pair ⟨.v4, 0x0a010203, by decide⟩ 24).prefix? = some p ∧
      p.Covers ⟨.v4, 0x0a0102ff, by decide⟩ ∧ ¬ p.Covers ⟨.v6, 0x0a0102ff, by decide⟩ ∧
      ∀ n, p.Matches ⟨.v4, 0x0a0102ff, by decide⟩ n ↔ n = 24 := by
  have hp : (Origin.pair ⟨.v4, 0x0a010203, by decide⟩ 24).prefix? =
      some ⟨⟨.v4, 0x0a010200, by decide⟩, 24, by decide⟩ := by decide
  obtain ⟨hm, hc, _⟩ := covers_matches_agree _ _ hp (fun d hd => by cases hd)
  refine ⟨_, hp, (hc _).2.mpr (by decide), fun h => ?_, fun n => ⟨fun h => ((hm _ n).mp h).2.1, ?_⟩⟩
  · exact absurd ((hc _).2.mp h).1 (by decide)
  · rintro rfl
    exact (hc _).1.mp ((hc _).2.mpr (by decide))

end VxlanRouting.Prefix
