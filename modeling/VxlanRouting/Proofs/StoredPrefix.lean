import VxlanRouting.Document.Stored
import VxlanRouting.Proofs.SourceText

/-!
Stored prefixes read back. A record is a prefix if it has one member, which is named for a family
and holds a network text of it; and such a text is an address in the loose spelling, a slash, and
the length in at most as many digits as the greatest length has. What is stored of a prefix is of
this form, whichever bits of its address are set.
-/
namespace VxlanRouting

open Text

namespace Text

theorem eq_append_of_cut? {sep : Char} {s p r : List Char} (h : cut? sep s = some (p, r)) :
    s = p ++ sep :: r := by
  induction s generalizing p with
  | nil => cases h
  | cons c s ih =>
    simp only [cut?] at h
    split at h
    next hc =>
      cases h
      rw [hc]
      rfl
    next =>
      obtain ⟨⟨p', r'⟩, hr, he⟩ := Option.map_eq_some_iff.mp h
      cases he
      rw [ih hr]
      rfl

end Text

theorem Family.ofMemberName?_eq_some_iff {s : String} {f : Family} :
    ofMemberName? s = some f ↔ s = f.memberName := by
  constructor
  · intro h
    unfold ofMemberName? at h
    have hs := List.find?_some h
    exact (beq_iff_eq.mp hs).symm
  · rintro rfl
    cases f <;> decide

namespace Prefix

/-- A length in range has few enough digits. -/
theorem length_numeral_le (p : Prefix) : (numeral 10 p.length).length ≤ lengthDigits p.family := by
  have hwidth : ∀ f : Family, 0 < lengthDigits f ∧ f.width < 10 ^ lengthDigits f := by
    intro f
    cases f <;> decide
  obtain ⟨hpos, hlt⟩ := hwidth p.family
  exact (Nat.length_toDigits_le_iff (by decide) hpos).mpr (Nat.lt_of_le_of_lt p.length_le hlt)

/-- A network text is an address, a slash and a decimal of few digits. -/
theorem ofNetworkText?_eq_some_iff {f : Family} {s : List Char} {p : Prefix} :
    ofNetworkText? f s = some p ↔ ∃ t k,
      s = t ++ '/' :: (List.replicate k '0' ++ numeral 10 p.length) ∧
      Address.read? .loose f t = some p.address ∧
      k + (numeral 10 p.length).length ≤ lengthDigits f := by
  constructor
  · intro h
    simp only [ofNetworkText?] at h
    split at h
    next => cases h
    next t l hcut =>
      split at h
      next a n ha hn =>
        split at h
        next hle =>
          split at h
          next hdigits =>
            cases h
            obtain ⟨k, rfl⟩ := natural?_eq_some_iff.mp hn
            refine ⟨t, k, eq_append_of_cut? hcut, ha, ?_⟩
            rwa [List.length_append, List.length_replicate] at hdigits
          next => cases h
        next => cases h
      next => cases h
  · rintro ⟨t, k, rfl, ha, hdigits⟩
    have hn : natural? 10 (List.replicate k '0' ++ numeral 10 p.length) = some p.length :=
      natural?_eq_some_iff.mpr ⟨k, rfl⟩
    have hlen : (List.replicate k '0' ++ numeral 10 p.length).length ≤ lengthDigits f := by
      rwa [List.length_append, List.length_replicate]
    simp only [ofNetworkText?]
    rw [cut?_append '/' _ _ (Address.slash_not_mem_of_read? ha)]
    dsimp only
    rw [ha, hn]
    dsimp only
    rw [dif_pos p.length_le, if_pos hlen]

/-- What is stored of a prefix is a record with one member, named for the family. -/
theorem ofDatum?_eq_some_iff {d : Datum} {p : Prefix} :
    ofDatum? d = some p ↔ ∃ s, d = .record [(p.family.memberName, .text s)] ∧
      ofNetworkText? p.family s.toList = some p := by
  constructor
  · intro h
    simp only [ofDatum?] at h
    split at h
    next name s =>
      obtain ⟨f, hf, hs⟩ := Option.bind_eq_some_iff.mp h
      obtain ⟨t, k, _, ha, _⟩ := ofNetworkText?_eq_some_iff.mp hs
      obtain rfl : p.family = f := Address.family_of_read? ha
      rw [Family.ofMemberName?_eq_some_iff.mp hf]
      exact ⟨s, rfl, hs⟩
    next => cases h
  · rintro ⟨s, rfl, hs⟩
    simp only [ofDatum?]
    rw [Family.ofMemberName?_eq_some_iff.mpr rfl]
    exact hs

theorem ofDatum?_toDatum (p : Prefix) : ofDatum? p.toDatum = some p := by
  refine ofDatum?_eq_some_iff.mpr ⟨_, rfl, ofNetworkText?_eq_some_iff.mpr ⟨p.address.text, 0, ?_⟩⟩
  refine ⟨String.toList_ofList, Address.read?_text .loose p.address, ?_⟩
  rw [Nat.zero_add]
  exact p.length_numeral_le

/-- A stored prefix is a record with one member, which is named for the family and holds the written
network, and it reads back, host bits and all. Whatever else reads as a prefix differs from that
only in how the address is spelled and in zeros in front of the length; stored again, it is the same
prefix. -/
theorem stored_prefix_reads_back :
    (∀ p : Prefix, p.toDatum = .record [(p.family.memberName, .text (toString p))] ∧
      ofDatum? p.toDatum = some p) ∧
    (∀ (d : Datum) (p : Prefix), ofDatum? d = some p → ofDatum? p.toDatum = some p) ∧
    ∀ (d : Datum) (p : Prefix), ofDatum? d = some p ↔ ∃ t k,
      d = .record [(p.family.memberName, .text (String.ofList
        (t ++ '/' :: (List.replicate k '0' ++ numeral 10 p.length))))] ∧
      Address.read? .loose p.family t = some p.address ∧
      k + (numeral 10 p.length).length ≤ lengthDigits p.family := by
  refine ⟨fun p => ⟨rfl, ofDatum?_toDatum p⟩, fun _ p _ => ofDatum?_toDatum p, fun d p => ?_⟩
  rw [ofDatum?_eq_some_iff]
  constructor
  · rintro ⟨s, rfl, hs⟩
    obtain ⟨t, k, htext, ha, hdigits⟩ := ofNetworkText?_eq_some_iff.mp hs
    refine ⟨t, k, ?_, ha, hdigits⟩
    rw [← htext, String.ofList_toList]
  · rintro ⟨t, k, rfl, ha, hdigits⟩
    exact ⟨_, rfl, ofNetworkText?_eq_some_iff.mpr ⟨t, k, String.toList_ofList, ha, hdigits⟩⟩

/-- The stored form of a network of version 6 that stands for one of version 4, with a bit behind
its length, and a form of 10.0.0.0/8 that is read but never written. -/
theorem stored_prefix_reads_back_of_mapped :
    ofDatum? (.record [("IPV6", .text "::ffff:10.0.0.1/96")]) =
      some ⟨⟨.v6, 0xffff0a000001, by decide⟩, 96, by decide⟩ ∧
    ofDatum? (.record [("IPV4", .text "010.0.0.000/08")]) =
      some ⟨⟨.v4, 0x0a000000, by decide⟩, 8, by decide⟩ ∧
    ofDatum? (toDatum ⟨⟨.v4, 0x0a000000, by decide⟩, 8, by decide⟩) =
      some ⟨⟨.v4, 0x0a000000, by decide⟩, 8, by decide⟩ := by
  obtain ⟨_, hagain, hform⟩ := stored_prefix_reads_back
  have hloose : ofDatum? (.record [("IPV4", .text "010.0.0.000/08")]) =
      some ⟨⟨.v4, 0x0a000000, by decide⟩, 8, by decide⟩ :=
    (hform _ _).mpr ⟨"010.0.0.000".toList, 1, rfl, by decide, by decide⟩
  refine ⟨(hform _ _).mpr ⟨"::ffff:10.0.0.1".toList, 0, rfl, by decide, by decide⟩, hloose, ?_⟩
  exact hagain _ _ hloose

end Prefix

end VxlanRouting
