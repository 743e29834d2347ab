import VxlanRouting.Prefix.Text
import VxlanRouting.Proofs.AddressText

/-!
Source texts against the texts that are written. An address and a length that are written with a
slash between them read back, unless the address stands for one of version 4: the point in its text
makes the reader take it for one. A written address never starts with the zero hardware address,
whose double zeros no numeral has.
-/
namespace VxlanRouting

open Text

/-- The pieces of a run are its numerals, or nothing if it has none. -/
theorem mem_pieces_hextetRunText {gs : List Nat} {p : List Char}
    (h : p ∈ pieces ':' (hextetRunText gs)) : p = [] ∨ ∃ g, p = numeral 16 g := by
  by_cases hn : gs = []
  · rw [hn] at h
    exact .inl (List.mem_singleton.mp h)
  · rw [pieces_hextetRunText hn] at h
    obtain ⟨g, _, rfl⟩ := List.mem_map.mp h
    exact .inr ⟨g, rfl⟩

theorem mem_pieces_hextetsText {gs : List Nat} {p : List Char}
    (h : p ∈ pieces ':' (hextetsText gs)) : p = [] ∨ ∃ g, p = numeral 16 g := by
  simp only [hextetsText] at h
  split at h
  · rw [pieces_append, List.mem_append] at h
    rcases h with h | h
    · exact mem_pieces_hextetRunText h
    · rcases List.mem_cons.mp h with h | h
      · exact .inl h
      · exact mem_pieces_hextetRunText h
  · exact mem_pieces_hextetRunText h

theorem not_mem_hextetsText {c : Char} (hs : c ≠ ':') (hc : digit? 16 c = none) (gs : List Nat) :
    c ∉ hextetsText gs := by
  have hrun : ∀ hs' : List Nat, c ∉ hextetRunText hs' :=
    not_mem_joined_numerals (by decide) (by decide) hs hc
  simp only [hextetsText]
  split
  · simp [hrun, hs]
  · exact hrun gs

theorem colon_mem_hextetsText {gs : List Nat} (h : 2 ≤ gs.length) : ':' ∈ hextetsText gs := by
  simp only [hextetsText]
  split
  · simp
  · obtain _ | ⟨g, _ | ⟨x, gs⟩⟩ := gs
    · simp at h
    · simp at h
    · simp [hextetRunText, joined]

/-- A numeral has no leading zero but the one that is all of it. -/
theorem numeral_ne_double_zero (g : Nat) : numeral 16 g ≠ ['0', '0'] := by
  intro h
  have hg : natural? 16 (numeral 16 g) = some g := natural?_numeral (by decide) (by decide) g
  rw [h] at hg
  have h0 : natural? 16 ['0', '0'] = some 0 := by decide
  rw [h0] at hg
  cases hg
  exact absurd h (by decide)

theorem exists_of_mapM {α β : Type} {f : α → Option β} {l : List α} {r : List β}
    (h : l.mapM f = some r) {x : α} (hx : x ∈ l) : ∃ y, f x = some y := by
  induction l generalizing r with
  | nil => cases hx
  | cons z l ih =>
    rw [List.mapM_cons] at h
    obtain ⟨y, hy, h⟩ := Option.bind_eq_some_iff.mp h
    obtain ⟨ys, hys, _⟩ := Option.bind_eq_some_iff.mp h
    rcases List.mem_cons.mp hx with rfl | hx
    · exact ⟨y, hy⟩
    · exact ih hys hx

/-- The digits of a decimal are the characters from zero to nine. -/
theorem code_of_digit? {c : Char} {d : Nat} (h : digit? 10 c = some d) :
    48 ≤ c.toNat ∧ c.toNat ≤ 57 ∧ d = c.toNat - 48 := by
  simp only [digit?] at h
  grind

theorem isBlank_of_digit? {c : Char} (h : digit? 10 c ≠ none) : isBlank c = false := by
  obtain ⟨d, hd⟩ := Option.ne_none_iff_exists'.mp h
  have hc := code_of_digit? hd
  simp [isBlank, blankRanges]
  omega

/-- A dotted quad has digits and points only. -/
theorem dotted?_eq_none {sp : Spelling} {s : List Char} {c : Char} (h : c ∈ s) (hs : c ≠ '.')
    (hc : digit? 10 c = none) : dotted? sp s = none := by
  cases hd : dotted? sp s with
  | none => rfl
  | some v =>
    exfalso
    obtain ⟨gs, hgs, _⟩ := Option.map_eq_some_iff.mp hd
    rw [← joined_pieces '.' s] at h
    obtain ⟨p, hp, hcp⟩ := (mem_of_mem_joined h).resolve_left hs
    have hmap : (pieces '.' s).mapM (octet? sp) = some gs := by
      simp only [octets?] at hgs
      split at hgs
      · exact hgs
      · cases hgs
    obtain ⟨g, hg⟩ := exists_of_mapM hmap hp
    simp only [octet?] at hg
    split at hg
    · next n hn =>
      simp only [natural?] at hn
      split at hn
      · cases hn
      · exact digit?_ne_none_of_digits? hn hcp hc
    · cases hg

namespace Address

theorem slash_not_mem_text (a : Address) : '/' ∉ a.text := by
  cases hf : a.family with
  | v4 =>
    rw [text_v4 hf]
    exact not_mem_joined_numerals (by decide) (by decide) (by decide) rfl _
  | v6 =>
    by_cases hm : a.IsMapped
    · have hd : '/' ∉ dottedText (a.value % 0x100000000) :=
        not_mem_joined_numerals (by decide) (by decide) (by decide) rfl _
      rw [text_mapped hm]
      simp [mappedText, hd]
    · rw [text_v6 hf hm]
      exact not_mem_hextetsText (by decide) rfl _

end Address

namespace Prefix

/-- A written address does not start with the marker that a source may have. -/
theorem strip?_zeroMarker_text (a : Address) : strip? zeroMarker a.text = none := by
  cases hs : strip? zeroMarker a.text with
  | none => rfl
  | some r =>
    exfalso
    have hmarker : zeroMarker ++ r = ['0', '0'] ++ ':' :: ("00:00:00:00:00:".toList ++ r) := rfl
    have htext := (eq_append_of_strip? hs).trans hmarker
    cases hf : a.family with
    | v4 =>
      have hc : ':' ∈ dottedText a.value := by
        rw [← Address.text_v4 hf, htext]
        simp
      exact colon_not_mem_dottedText _ hc
    | v6 =>
      by_cases hm : a.IsMapped
      · rw [Address.text_mapped hm] at htext
        cases htext
      · have hp : ['0', '0'] ∈ pieces ':' (hextetsText (groups 16 8 a.value)) := by
          rw [← Address.text_v6 hf hm, htext, pieces_append_sep ':' _ _ (by decide)]
          exact List.mem_cons_self
        rcases mem_pieces_hextetsText hp with h | ⟨g, h⟩
        · cases h
        · exact numeral_ne_double_zero g h.symm

/-- A written address is read without its marker, as it has none. -/
theorem sourceAddress?_text (f : Family) (a : Address) :
    sourceAddress? f a.text = Address.read? .plain f a.text := by
  rw [sourceAddress?, strip?_zeroMarker_text]
  rfl

theorem familyOfText?_v4 {a : Address} (h : a.family = .v4) (n : Nat) :
    familyOfText? (pairText a n) = some .v4 := by
  have hp : '.' ∈ pairText a n := by
    rw [pairText, Address.text_v4 h]
    exact List.mem_append_left _ (point_mem_dottedText _)
  rw [familyOfText?, if_pos hp]

theorem familyOfText?_mapped {a : Address} (h : a.IsMapped) (n : Nat) :
    familyOfText? (pairText a n) = some .v4 := by
  have hp : '.' ∈ pairText a n := by
    rw [pairText, Address.text_mapped h]
    exact List.mem_append_left _ (List.mem_append_right _ (point_mem_dottedText _))
  rw [familyOfText?, if_pos hp]

theorem familyOfText?_v6 {a : Address} (hf : a.family = .v6) (h : ¬ a.IsMapped) (n : Nat) :
    familyOfText? (pairText a n) = some .v6 := by
  have hp : '.' ∉ pairText a n := by
    have ha : '.' ∉ hextetsText (groups 16 8 a.value) := not_mem_hextetsText (by decide) rfl _
    rw [pairText, Address.text_v6 hf h]
    simp [ha, point_not_mem_numeral]
  have hc : ':' ∈ pairText a n := by
    rw [pairText, Address.text_v6 hf h]
    exact List.mem_append_left _ (colon_mem_hextetsText (by simp))
  rw [familyOfText?, if_neg hp, if_pos hc]

theorem sourceParts_pairText (a : Address) (n : Nat) :
    sourceParts (pairText a n) = (a.text, some (numeral 10 n)) := by
  rw [sourceParts, pairText, cut?_append '/' _ _ a.slash_not_mem_text]

/-- A written length reads back: it has no blanks and no sign. -/
theorem sourceLength?_numeral {n : Nat} (h : n < 0x100000000) :
    sourceLength? (numeral 10 n) = some n := by
  have hread : digits? 10 0 (numeral 10 n) = some n := digits?_numeral (by decide) (by decide) n
  have htrim : trim (numeral 10 n) = numeral 10 n :=
    trim_of_no_blank fun c hc => isBlank_of_digit? (digit?_ne_none_of_digits? hread hc)
  have hplus : '+' ∉ numeral 10 n := not_mem_numeral (by decide) (by decide) rfl n
  simp only [sourceLength?]
  rw [htrim]
  split
  · next r hr => exact absurd (hr ▸ List.mem_cons_self) hplus
  · rw [natural?_numeral (by decide) (by decide)]
    simp [h]

theorem length_lt (a : Address) {n : Nat} (h : n ≤ a.family.width) : n < 0x100000000 := by
  have hw : a.family.width ≤ 128 := by cases a.family <;> decide
  omega

theorem clamped_of_le {a : Address} {n : Nat} (h : n ≤ a.family.width) :
    clamped a n = ⟨a, n, h⟩ :=
  ext_parts rfl (Nat.min_eq_left h)

/-- An address whose family shows in its text is read back with its length. -/
theorem ofSource_pairText_of_family {a : Address} {n : Nat} (h : n ≤ a.family.width)
    (hf : familyOfText? (pairText a n) = some a.family) :
    ofSource (pairText a n) = .ok ⟨a, n, h⟩ := by
  rw [ofSource, hf, sourceParts_pairText]
  dsimp only
  rw [sourceAddress?_text, Address.read?_text, sourceLength?_numeral (length_lt a h)]
  exact congrArg Except.ok (clamped_of_le h)

theorem ofSource_pairText {a : Address} {n : Nat} (h : n ≤ a.family.width) (hm : ¬ a.IsMapped) :
    ofSource (pairText a n) = .ok ⟨a, n, h⟩ := by
  refine ofSource_pairText_of_family h ?_
  cases hf : a.family with
  | v4 => exact familyOfText?_v4 hf n
  | v6 => exact familyOfText?_v6 hf hm n

/-- A mapped address is refused whatever length stands behind it. -/
theorem ofSource_mapped {a : Address} (h : a.IsMapped) (n : Nat) :
    ofSource (pairText a n) = .error (.badAddress (String.ofList (pairText a n))) := by
  rw [ofSource, familyOfText?_mapped h, sourceParts_pairText]
  dsimp only
  have hquad : dotted? .plain (mappedText (a.value % 0x100000000)) = none :=
    dotted?_eq_none (c := ':') List.mem_cons_self (by decide) rfl
  rw [sourceAddress?_text, Address.read?, Address.text_mapped h, hquad]
  rfl

/-- Whatever a source text reads as has a length in range, so it has a canonical prefix. -/
theorem ofSourceText_of_ofSource {s : List Char} {p : Prefix} (h : ofSource s = .ok p) :
    ofSourceText s = .ok p.canonical ∧ ofAddress? p.address p.length = .ok p.canonical := by
  have hnew : ofAddress? p.address p.length = .ok p.canonical := dif_pos p.length_le
  refine ⟨?_, hnew⟩
  simp only [ofSourceText]
  rw [h]
  exact hnew

/-- A length is cut to the family's greatest, so none is ever refused as too large. -/
theorem ofSource_ne_lengthTooLarge (s : List Char) (n : Nat) :
    ofSource s ≠ .error (.lengthTooLarge n) := by
  intro h
  simp only [ofSource] at h
  repeat' split at h
  all_goals cases h

theorem ofSourceText_ne_lengthTooLarge (s : List Char) (n : Nat) :
    ofSourceText s ≠ .error (.lengthTooLarge n) := by
  cases h : ofSource s with
  | error e =>
    simp only [ofSourceText]
    rw [h]
    exact fun he => ofSource_ne_lengthTooLarge s n (h.trans he)
  | ok p =>
    rw [(ofSourceText_of_ofSource h).1]
    intro he
    cases he

/-- An address and a length of its family, written with a slash between them, read back as they
were; only the addresses that stand for one of version 4 do not, and are refused at every length. A
text that reads as an address and a length has a length of the address's family, and the canonical
prefix of the text is that of the pair; no text is refused for its length being too large. -/
theorem written_pair_reads_back :
    (∀ (a : Address) (n : Nat) (h : n ≤ a.family.width), ¬ a.IsMapped →
      ofSource (pairText a n) = .ok ⟨a, n, h⟩) ∧
    (∀ (a : Address) (n : Nat), a.IsMapped →
      ofSource (pairText a n) = .error (.badAddress (String.ofList (pairText a n)))) ∧
    (∀ (s : List Char) (p : Prefix), ofSource s = .ok p →
      p.length ≤ p.address.family.width ∧
        ∃ q, ofAddress? p.address p.length = .ok q ∧ ofSourceText s = .ok q) ∧
    ∀ (s : List Char) (n : Nat), ofSourceText s ≠ .error (.lengthTooLarge n) := by
  refine ⟨fun a n h hm => ofSource_pairText h hm, fun a n hm => ofSource_mapped hm n,
    fun s p h => ?_, ofSourceText_ne_lengthTooLarge⟩
  obtain ⟨hs, hnew⟩ := ofSourceText_of_ofSource h
  exact ⟨p.length_le, p.canonical, hnew, hs⟩

/-- 2001:db8::1/64 reads back with its host bit, ::ffff:10.0.0.1/96 is refused, and 10.0.0.5/40 is
read with the greatest length of its family. -/
theorem written_pair_reads_back_at_three :
    ofSource (pairText ⟨.v6, 0x20010db8000000000000000000000001, by decide⟩ 64) =
      .ok ⟨⟨.v6, 0x20010db8000000000000000000000001, by decide⟩, 64, by decide⟩ ∧
    ofSource (pairText ⟨.v6, 0xffff0a000001, by decide⟩ 96) =
      .error (.badAddress (String.ofList (pairText ⟨.v6, 0xffff0a000001, by decide⟩ 96))) ∧
    ofSourceText "10.0.0.5/40".toList = .ok ⟨⟨.v4, 0x0a000005, by decide⟩, 32, by decide⟩ := by
  refine ⟨written_pair_reads_back.1 _ 64 (by decide) (by decide),
    written_pair_reads_back.2.1 _ 96 (by decide), ?_⟩
  obtain ⟨_, q, hq, hs⟩ := written_pair_reads_back.2.2.1 "10.0.0.5/40".toList
    ⟨⟨.v4, 0x0a000005, by decide⟩, 32, by decide⟩ rfl
  rw [hs, ← hq]
  rfl

end Prefix

end VxlanRouting
