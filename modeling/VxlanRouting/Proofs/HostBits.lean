import VxlanRouting.Document.Stored
import VxlanRouting.Proofs.LeadingBits

/-!
Where the bits of an address that do not count are cleared. Prefixes come from addresses with a
length, from single addresses, from networks, from texts and from stored data. All of these clear
the bits, but for stored data, which keep what stands in their text; so a stored prefix is as if
built from its network only if its text has no such bits.
-/
namespace VxlanRouting.Prefix

/-- How a prefix can be obtained. -/
inductive Origin where
  | pair (a : Address) (n : Nat)
  | host (a : Address)
  | root (f : Family)
  /-- A network type's value, whose bits are all kept. -/
  | net (p : Prefix)
  | pairText (a : String) (n : Nat)
  | source (s : List Char)
  | stored (d : Datum)

/-- The prefix that is obtained, if any. -/
def Origin.prefix? : Origin → Option Prefix
  | .pair a n => (ofAddress? a n).toOption
  | .host a => some (.host a)
  | .root f => some (.root f)
  | .net p => some p.canonical
  | .pairText a n => (ofAddressText a n).toOption
  | .source s => (ofSourceText s).toOption
  | .stored d => ofDatum? d

theorem canonical_of_ofAddress? {a : Address} {n : Nat} {p : Prefix}
    (h : (ofAddress? a n).toOption = some p) : p.Canonical := by
  simp only [ofAddress?] at h
  split at h
  · cases h
    exact canonical_canonical _
  · cases h

/-- Building a prefix anew from its network and length gives it back if it is canonical. -/
theorem ofAddress?_network_eq_iff {p : Prefix} :
    ofAddress? p.network p.length = .ok p ↔ p.Canonical := by
  rw [ofAddress?_network]
  constructor
  · intro h
    have hp : p.canonical = p := Except.ok.inj h
    exact hp ▸ canonical_canonical p
  · intro h
    rw [h.eq]

/-- What does not come from stored data is canonical. -/
theorem Origin.canonical {o : Origin} {p : Prefix} (h : o.prefix? = some p)
    (ho : ∀ d, o ≠ .stored d) : p.Canonical := by
  cases o with
  | pair a n => exact canonical_of_ofAddress? h
  | host a =>
    cases h
    exact canonical_host a
  | root f =>
    cases h
    exact canonical_root f
  | net q =>
    cases h
    exact canonical_canonical q
  | pairText s n =>
    simp only [Origin.prefix?, ofAddressText] at h
    split at h
    · cases h
    · exact canonical_of_ofAddress? h
  | source s =>
    simp only [Origin.prefix?, ofSourceText] at h
    split at h
    · cases h
    · exact canonical_of_ofAddress? h
  | stored d => exact absurd rfl (ho d)

/-- A prefix is the one of its network and length unless it was stored with bits behind its length;
and it is told apart by its network and length from all others that are so. -/
theorem obtained_is_network_iff (o : Origin) (p : Prefix) (h : o.prefix? = some p) :
    (ofAddress? p.network p.length = .ok p ↔
      ∀ d, o = .stored d → ∀ i, p.length ≤ i → i < p.family.width → p.address.bit i = false) ∧
    ∀ q : Prefix, ofAddress? p.network p.length = .ok p → ofAddress? q.network q.length = .ok q →
      p.network = q.network → p.length = q.length → p = q := by
  refine ⟨?_, fun q hp hq hn hl => ?_⟩
  · rw [ofAddress?_network_eq_iff]
    by_cases ho : ∀ d, o ≠ .stored d
    · exact ⟨fun _ d hd => absurd hd (ho d), fun _ => Origin.canonical h ho⟩
    · obtain ⟨d, hd⟩ : ∃ d, o = .stored d := by simpa using ho
      have hbits := Address.network_eq_self_iff p.length_le
      exact ⟨fun hc _ _ => hbits.mp hc, fun hall => hbits.mpr (hall d hd)⟩
  · exact (ofAddress?_network_eq_iff.mp hp).eq_of_network (ofAddress?_network_eq_iff.mp hq) hn hl

/-- The stored form of a network text of version 4. -/
def storedV4 (s : String) : Datum := .record [("IPV4", .text s)]

/-- A stored 10.1.2.0/24 has no such bits; it is the prefix of 10.1.2.3 and the same length. -/
theorem obtained_is_network_stored :
    ∃ p : Prefix, (Origin.stored (storedV4 "10.1.2.0/24")).prefix? = some p ∧
      ofAddress? p.network p.length = .ok p ∧
      p = canonical ⟨⟨.v4, 0x0a010203, by decide⟩, 24, by decide⟩ := by
  have hp : (Origin.stored (storedV4 "10.1.2.0/24")).prefix? =
      some ⟨⟨.v4, 0x0a010200, by decide⟩, 24, by decide⟩ := by decide
  have hbits : ∀ i < 32, 24 ≤ i →
      Address.bit ⟨.v4, 0x0a010200, by decide⟩ i = false := by decide
  obtain ⟨hiff, huniq⟩ := obtained_is_network_iff _ _ hp
  have hself := hiff.mpr fun _ _ i hi hw => hbits i hw hi
  exact ⟨_, hp, hself, huniq _ hself (ofAddress?_network_eq_iff.mpr (canonical_canonical _))
    (by decide) rfl⟩

/-- A stored 10.1.2.3/24 keeps its last octet, so it is not the prefix of its network. -/
theorem not_all_obtained_are_networks :
    ¬ ∀ (o : Origin) (p : Prefix), o.prefix? = some p →
      ofAddress? p.network p.length = .ok p := by
  intro h
  have hp : (Origin.stored (storedV4 "10.1.2.3/24")).prefix? =
      some ⟨⟨.v4, 0x0a010203, by decide⟩, 24, by decide⟩ := by decide
  exact absurd (ofAddress?_network_eq_iff.mp (h _ _ hp)) (by decide)

end VxlanRouting.Prefix
