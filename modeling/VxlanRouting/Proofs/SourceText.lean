import VxlanRouting.Proofs.PrefixText

/-!
What a source text may look like. The zero hardware address in front of an address is six groups of
version 6 itself, so a text that starts with it may be read in two ways: without it, and as a whole
if the rest is no address. Behind a slash any decimal is a length, written with leading zeros, a
plus sign or blanks or without, as long as it is below 2 ^ 32; nothing else is.
-/
namespace VxlanRouting

namespace Text

/-! ### Decimals -/

theorem eq_digitChar_of_digit? {c : Char} {d : Nat} (h : digit? 10 c = some d) :
    d < 10 ∧ c = d.digitChar := by
  have hc := code_of_digit? h
  have hd : d < 10 := by omega
  have hall : ∀ n < 10, Char.ofNat (48 + n) = n.digitChar := by decide
  refine ⟨hd, ?_⟩
  rw [← hall d hd, show 48 + d = c.toNat by omega, Char.ofNat_toNat]

theorem digits?_cons_eq_some_iff {base acc n : Nat} {c : Char} {s : List Char} :
    digits? base acc (c :: s) = some n ↔
      ∃ d, digit? base c = some d ∧ digits? base (acc * base + d) s = some n := by
  simp only [digits?]
  cases digit? base c <;> simp

/-- Behind a first digit that is not zero, all digits belong to the numeral. -/
theorem numeral_append_of_digits? {s : List Char} {acc n : Nat} (hacc : 0 < acc)
    (h : digits? 10 acc s = some n) : numeral 10 acc ++ s = numeral 10 n := by
  induction s generalizing acc with
  | nil =>
    cases h
    exact List.append_nil _
  | cons c s ih =>
    obtain ⟨d, hd, h⟩ := digits?_cons_eq_some_iff.mp h
    obtain ⟨hlt, hc⟩ := eq_digitChar_of_digit? hd
    have hstep : numeral 10 acc ++ [c] = numeral 10 (acc * 10 + d) := by
      have happ := Nat.toDigits_append_toDigits (b := 10) (by decide) hacc hlt
      rw [Nat.toDigits_of_lt_base hlt, Nat.mul_comm] at happ
      rw [hc]
      exact happ
    rw [← ih (by omega) h, ← hstep, List.append_assoc]
    rfl

/-- A text of digits is a numeral with zeros in front of it. -/
theorem natural?_eq_some_iff {s : List Char} {n : Nat} :
    natural? 10 s = some n ↔ ∃ k, s = List.replicate k '0' ++ numeral 10 n := by
  constructor
  · intro h
    induction s with
    | nil => cases h
    | cons c s ih =>
      obtain ⟨d, hd, hs⟩ := digits?_cons_eq_some_iff.mp (show digits? 10 0 (c :: s) = some n from h)
      obtain ⟨hlt, rfl⟩ := eq_digitChar_of_digit? hd
      rw [Nat.zero_mul, Nat.zero_add] at hs
      by_cases hz : d = 0
      · subst hz
        cases s with
        | nil =>
          cases hs
          exact ⟨0, rfl⟩
        | cons x s =>
          obtain ⟨k, hk⟩ := ih hs
          refine ⟨k + 1, ?_⟩
          rw [hk, List.replicate_succ]
          rfl
      · refine ⟨0, ?_⟩
        rw [← numeral_append_of_digits? (by omega) hs, numeral, Nat.toDigits_of_lt_base hlt]
        rfl
  · rintro ⟨k, rfl⟩
    have hzeros : digits? 10 0 (List.replicate k '0') = some 0 := by
      induction k with
      | zero => rfl
      | succ k ih => exact ih
    have hne : (List.replicate k '0' ++ numeral 10 n).isEmpty = false := by
      cases k with
      | zero => simp [numeral_ne_nil]
      | succ k => rfl
    simp only [natural?]
    rw [hne, digits?_append, hzeros]
    exact digits?_numeral (by decide) (by decide) n

/-! ### Blanks -/

/-- Blanks around a text without blanks are trimmed. -/
theorem trim_append {before s after : List Char} (hb : ∀ c ∈ before, isBlank c = true)
    (hs : ∀ c ∈ s, isBlank c = false) (ha : ∀ c ∈ after, isBlank c = true) :
    trim (before ++ s ++ after) = s := by
  by_cases hn : s = []
  · subst hn
    have hall : ∀ c ∈ before ++ after, isBlank c = true := fun c hc =>
      (List.mem_append.mp hc).elim (hb c) (ha c)
    have hdrop : (before ++ after ++ []).dropWhile isBlank = [] :=
      List.dropWhile_append_of_pos hall
    rw [List.append_nil] at hdrop
    rw [trim, List.append_nil, hdrop]
    rfl
  · have hfront : (before ++ s ++ after).dropWhile isBlank = s ++ after := by
      rw [List.append_assoc, List.dropWhile_append_of_pos hb]
      cases s with
      | nil => exact absurd rfl hn
      | cons c s => simp [hs c List.mem_cons_self]
    have hr : ∀ c ∈ s.reverse, isBlank c = false := fun c hc => hs c (List.mem_reverse.mp hc)
    rw [trim, hfront, List.reverse_append,
      List.dropWhile_append_of_pos fun c hc => ha c (List.mem_reverse.mp hc),
      dropWhile_isBlank hr, List.reverse_reverse]

/-- What is trimmed is blank. -/
theorem exists_trim (s : List Char) : ∃ before after, (∀ c ∈ before, isBlank c = true) ∧
    (∀ c ∈ after, isBlank c = true) ∧ s = before ++ trim s ++ after := by
  let r := s.dropWhile isBlank
  have hback : r = trim s ++ (r.reverse.takeWhile isBlank).reverse := by
    rw [trim, ← List.reverse_append, List.takeWhile_append_dropWhile, List.reverse_reverse]
  refine ⟨s.takeWhile isBlank, (r.reverse.takeWhile isBlank).reverse, ?_, fun c hc => ?_, ?_⟩
  · exact List.all_eq_true.mp List.all_takeWhile
  · exact List.all_eq_true.mp List.all_takeWhile c (List.mem_reverse.mp hc)
  · rw [List.append_assoc, ← hback]
    exact List.takeWhile_append_dropWhile.symm

end Text

open Text

/-! ### Characters of addresses -/

theorem eq_append_of_cutGap? {s l r : List Char} (h : cutGap? s = some (l, r)) :
    s = l ++ ':' :: ':' :: r := by
  induction s generalizing l with
  | nil => cases h
  | cons c s ih =>
    cases s with
    | nil => cases h
    | cons d s =>
      rw [cutGap?] at h
      split at h
      · next hc =>
        cases h
        rw [hc.1, hc.2]
        rfl
      · obtain ⟨⟨l', r'⟩, hr, he⟩ := Option.map_eq_some_iff.mp h
        cases he
        rw [ih hr]
        rfl

theorem hextet?_eq_none {s : List Char} {c : Char} (h : c ∈ s) (hc : digit? 16 c = none) :
    hextet? s = none := by
  cases hs : hextet? s with
  | none => rfl
  | some g =>
    exfalso
    simp only [hextet?] at hs
    split at hs
    · simp only [natural?] at hs
      split at hs
      · cases hs
      · exact digit?_ne_none_of_digits? hs h hc
    · cases hs

/-- What is neither a digit nor a point stands in no run of groups. -/
theorem hextetRun?_eq_none {sp : Spelling} {quad : Bool} {ps : List (List Char)} {p : List Char}
    {c : Char} (hp : p ∈ ps) (h : c ∈ p) (hpoint : c ≠ '.') (hc : digit? 16 c = none)
    (hd : digit? 10 c = none) : hextetRun? sp quad ps = none := by
  induction ps with
  | nil => cases hp
  | cons q ps ih =>
    rw [hextetRun?]
    split
    · next hq =>
      have hpq : p = q := by simpa [hq.2.1] using hp
      rw [← hpq, dotted?_eq_none h hpoint hd]
      rfl
    · rcases List.mem_cons.mp hp with rfl | hp
      · rw [hextet?_eq_none h hc]
      · rw [ih hp]
        cases hextet? q <;> rfl

theorem hextetRun?_pieces_eq_none {sp : Spelling} {quad : Bool} {s : List Char} {c : Char}
    (h : c ∈ s) (hcolon : c ≠ ':') (hpoint : c ≠ '.') (hc : digit? 16 c = none)
    (hd : digit? 10 c = none) : hextetRun? sp quad (pieces ':' s) = none := by
  rw [← joined_pieces ':' s] at h
  obtain ⟨p, hp, hcp⟩ := (mem_of_mem_joined h).resolve_left hcolon
  exact hextetRun?_eq_none hp hcp hpoint hc hd

theorem hextetSide?_eq_none {sp : Spelling} {quad : Bool} {s : List Char} {c : Char}
    (h : c ∈ s) (hcolon : c ≠ ':') (hpoint : c ≠ '.') (hc : digit? 16 c = none)
    (hd : digit? 10 c = none) : hextetSide? sp quad s = none := by
  rw [hextetSide?, if_neg (List.ne_nil_of_mem h), hextetRun?_pieces_eq_none h hcolon hpoint hc hd]

/-- An address of version 6 has digits, colons and points only. -/
theorem hextets?_eq_none {sp : Spelling} {s : List Char} {c : Char} (h : c ∈ s)
    (hcolon : c ≠ ':') (hpoint : c ≠ '.') (hc : digit? 16 c = none) (hd : digit? 10 c = none) :
    hextets? sp s = none := by
  simp only [hextets?]
  cases hg : cutGap? s with
  | none =>
    dsimp only
    rw [hextetRun?_pieces_eq_none h hcolon hpoint hc hd]
  | some r =>
    dsimp only
    rw [eq_append_of_cutGap? (l := r.1) (r := r.2) hg] at h
    have hside : c ∈ r.1 ∨ c ∈ r.2 := by simpa [hcolon] using h
    rcases hside with h | h
    · rw [hextetSide?_eq_none h hcolon hpoint hc hd]
    · rw [hextetSide?_eq_none h hcolon hpoint hc hd]
      cases hextetSide? sp false r.1 <;> rfl

theorem Address.slash_not_mem_of_read? {sp : Spelling} {f : Family} {s : List Char} {a : Address}
    (h : read? sp f s = some a) : '/' ∉ s := by
  intro hs
  cases f with
  | v4 =>
    have hn : dotted? sp s = none := dotted?_eq_none hs (by decide) rfl
    simp only [read?] at h
    rw [hn] at h
    cases h
  | v6 =>
    have hn : hextets? sp s = none := hextets?_eq_none hs (by decide) (by decide) rfl rfl
    simp only [read?] at h
    rw [hn] at h
    cases h

namespace Prefix

/-- How a length may be written: a decimal below 2 ^ 32 with any number of zeros in front of it, one
plus sign in front of these or none, and blanks on both sides. -/
def LengthText (l : List Char) (n : Nat) : Prop :=
  n < 0x100000000 ∧ ∃ before sign after k, (∀ c ∈ before, isBlank c = true) ∧
    (sign = [] ∨ sign = ['+']) ∧ (∀ c ∈ after, isBlank c = true) ∧
    l = before ++ (sign ++ (List.replicate k '0' ++ numeral 10 n)) ++ after

theorem sourceLength?_of_signed {l s : List Char} (h : trim l = '+' :: s) :
    sourceLength? l = (natural? 10 s).filter (· < 0x100000000) := by
  simp only [sourceLength?]
  rw [h]
  rfl

theorem sourceLength?_of_unsigned {l : List Char} (h : ∀ s, trim l ≠ '+' :: s) :
    sourceLength? l = (natural? 10 (trim l)).filter (· < 0x100000000) := by
  -- of the two cases of the sign, `h` leaves the second one
  simp only [sourceLength?]

theorem filter_natural?_eq_some_iff {s : List Char} {n : Nat} :
    (natural? 10 s).filter (· < 0x100000000) = some n ↔
      n < 0x100000000 ∧ ∃ k, s = List.replicate k '0' ++ numeral 10 n := by
  rw [Option.filter_eq_some_iff, natural?_eq_some_iff, decide_eq_true_eq, and_comm]

/-- What is in a decimal is a digit, so it is neither blank nor a sign. -/
theorem digit?_ne_none_of_mem {k n : Nat} {c : Char}
    (h : c ∈ List.replicate k '0' ++ numeral 10 n) : digit? 10 c ≠ none := by
  rcases List.mem_append.mp h with h | h
  · rw [List.eq_of_mem_replicate h]
    decide
  · exact digit?_ne_none_of_digits? (digits?_numeral (by decide) (by decide) n) h

theorem sourceLength?_eq_some_iff {l : List Char} {n : Nat} :
    sourceLength? l = some n ↔ LengthText l n := by
  constructor
  · intro h
    obtain ⟨before, after, hb, ha, hl⟩ := exists_trim l
    by_cases hs : ∃ s, trim l = '+' :: s
    · obtain ⟨s, hs⟩ := hs
      rw [sourceLength?_of_signed hs] at h
      obtain ⟨hn, k, hk⟩ := filter_natural?_eq_some_iff.mp h
      rw [hs, hk] at hl
      exact ⟨hn, before, ['+'], after, k, hb, .inr rfl, ha, hl⟩
    · rw [sourceLength?_of_unsigned fun s hs' => hs ⟨s, hs'⟩] at h
      obtain ⟨hn, k, hk⟩ := filter_natural?_eq_some_iff.mp h
      rw [hk] at hl
      exact ⟨hn, before, [], after, k, hb, .inl rfl, ha, hl⟩
  · rintro ⟨hn, before, sign, after, k, hb, hsign, ha, rfl⟩
    have hread := filter_natural?_eq_some_iff.mpr ⟨hn, k, rfl⟩
    have hdigit : ∀ c ∈ List.replicate k '0' ++ numeral 10 n, isBlank c = false :=
      fun c hc => isBlank_of_digit? (digit?_ne_none_of_mem hc)
    rcases hsign with rfl | rfl
    · have htrim := trim_append hb hdigit ha
      rw [List.nil_append, sourceLength?_of_unsigned fun s hs => ?_, htrim]
      · exact hread
      · rw [htrim] at hs
        exact digit?_ne_none_of_mem (hs ▸ List.mem_cons_self) rfl
    · have htrim := trim_append hb (s := '+' :: (List.replicate k '0' ++ numeral 10 n))
        (fun c hc => (List.mem_cons.mp hc).elim (fun h => h ▸ by decide) (hdigit c)) ha
      exact (sourceLength?_of_signed htrim).trans hread

/-! ### Source texts -/

/-- The text is read as the address: alone it is its host prefix, and a slash and a length behind it
give that length, cut to the family's greatest. With anything else behind the slash the length is
bad, but for a point behind a text of version 6, which makes a text of version 4 of it. -/
structure ReadsAs (s : List Char) (a : Address) : Prop where
  alone : ofSource s = .ok ⟨a, a.family.width, Nat.le_refl _⟩
  length : ∀ l n, LengthText l n →
    ofSource (s ++ '/' :: l) = .ok ⟨a, min n a.family.width, Nat.min_le_right _ _⟩
  badLength : ∀ l, (∀ n, ¬ LengthText l n) → (a.family = .v6 → '.' ∉ l) →
    ofSource (s ++ '/' :: l) = .error (.badLength (String.ofList (s ++ '/' :: l)))

theorem familyOfText?_append {s l : List Char} {f : Family} (h : familyOfText? s = some f)
    (hl : f = .v6 → '.' ∉ l) : familyOfText? (s ++ l) = some f := by
  simp only [familyOfText?] at h ⊢
  by_cases hp : '.' ∈ s
  · rw [if_pos hp] at h
    rw [if_pos (List.mem_append_left _ hp)]
    exact h
  · rw [if_neg hp] at h
    by_cases hc : ':' ∈ s
    · rw [if_pos hc] at h
      cases h
      have hpoint : '.' ∉ s ++ l := fun hm => (List.mem_append.mp hm).elim hp (hl rfl)
      rw [if_neg hpoint, if_pos (List.mem_append_left _ hc)]
    · rw [if_neg hc] at h
      cases h

theorem LengthText.point_not_mem {l : List Char} {n : Nat} (h : LengthText l n) : '.' ∉ l := by
  obtain ⟨_, before, sign, after, k, hb, hsign, ha, rfl⟩ := h
  have hblank : isBlank '.' = false := by decide
  have hdigits : '.' ∉ List.replicate k '0' ++ numeral 10 n := fun h => digit?_ne_none_of_mem h rfl
  have hsigns : '.' ∉ sign := by rcases hsign with rfl | rfl <;> decide
  simp only [List.mem_append, not_or] at hdigits ⊢
  exact ⟨⟨fun h => by simp [hb _ h] at hblank, hsigns, hdigits⟩,
    fun h => by simp [ha _ h] at hblank⟩

/-- Alone, a text without a slash is read for its address only. -/
theorem ofSource_eq {s : List Char} {f : Family} (hs : '/' ∉ s) (hf : familyOfText? s = some f) :
    ofSource s =
      (sourceAddress? f s).elim (.error (.badAddress (String.ofList s))) fun a => .ok (host a) := by
  have hparts : sourceParts s = (s, none) := by rw [sourceParts, cut?_eq_none '/' s hs]
  rw [ofSource, hf, hparts]
  dsimp only
  cases sourceAddress? f s <;> rfl

/-- With a slash behind it, its address comes first, and then the length. -/
theorem ofSource_append {s l : List Char} {f : Family} (hs : '/' ∉ s)
    (hf : familyOfText? s = some f) (hl : f = .v6 → '.' ∉ l) :
    ofSource (s ++ '/' :: l) =
      (sourceAddress? f s).elim (.error (.badAddress (String.ofList (s ++ '/' :: l)))) fun a =>
        (sourceLength? l).elim (.error (.badLength (String.ofList (s ++ '/' :: l)))) fun n =>
          .ok (clamped a n) := by
  have hparts : sourceParts (s ++ '/' :: l) = (s, some l) := by
    rw [sourceParts, cut?_append '/' _ _ hs]
  have hpoint : f = .v6 → '.' ∉ '/' :: l := fun hv => by simpa using hl hv
  rw [ofSource, familyOfText?_append hf hpoint, hparts]
  dsimp only
  cases sourceAddress? f s with
  | none => rfl
  | some a => cases sourceLength? l <;> rfl

/-- What is read of the part before the slash decides, once the family is known. -/
theorem readsAs_of_sourceAddress? {s : List Char} {f : Family} {a : Address} (hs : '/' ∉ s)
    (hf : familyOfText? s = some f) (ha : sourceAddress? f s = some a) (hfam : a.family = f) :
    ReadsAs s a where
  alone := by
    rw [ofSource_eq hs hf, ha, Option.elim_some]
    rfl
  length l n h := by
    rw [ofSource_append hs hf fun _ => h.point_not_mem, ha, Option.elim_some,
      sourceLength?_eq_some_iff.mpr h, Option.elim_some]
    rfl
  badLength l h hl := by
    have hn : sourceLength? l = none := by
      cases hn : sourceLength? l with
      | none => rfl
      | some n => exact absurd (sourceLength?_eq_some_iff.mp hn) (h n)
    rw [ofSource_append hs hf fun hv => hl (hfam.trans hv), ha, Option.elim_some, hn,
      Option.elim_none]

theorem slash_not_mem_marked {s : List Char} (h : '/' ∉ s) : '/' ∉ zeroMarker ++ s := by
  have hm : '/' ∉ zeroMarker := by decide
  simpa [hm] using h

theorem familyOfText?_marked {s : List Char} {f : Family} (h : familyOfText? s = some f) :
    familyOfText? (zeroMarker ++ s) = some f := by
  have hm : '.' ∉ zeroMarker := by decide
  have hc : ':' ∈ zeroMarker ++ s := List.mem_append_left _ (by decide)
  have hp : '.' ∈ zeroMarker ++ s ↔ '.' ∈ s := by simp [hm]
  simp only [familyOfText?] at h ⊢
  rw [if_pos hc]
  simp only [hp]
  split at h
  next hs =>
    rw [if_pos hs]
    exact h
  next hs =>
    rw [if_neg hs]
    split at h
    next => exact h
    next => cases h

/-- The rest is tried first, and then the whole text. -/
theorem sourceAddress?_marked (f : Family) (s : List Char) :
    sourceAddress? f (zeroMarker ++ s) =
      (Address.read? .plain f s).or (Address.read? .plain f (zeroMarker ++ s)) := by
  rw [sourceAddress?, strip?_append, Option.bind_some]
  cases Address.read? .plain f s <;> rfl

/-- A text that is read as no address is refused for its address, whatever stands behind a slash. -/
theorem ofSource_of_sourceAddress?_eq_none {s : List Char} {f : Family} (hs : '/' ∉ s)
    (hf : familyOfText? s = some f) (ha : sourceAddress? f s = none) :
    ofSource s = .error (.badAddress (String.ofList s)) ∧
      ∀ l, (f = .v6 → '.' ∉ l) →
        ofSource (s ++ '/' :: l) = .error (.badAddress (String.ofList (s ++ '/' :: l))) := by
  refine ⟨?_, fun l hl => ?_⟩
  · rw [ofSource_eq hs hf, ha, Option.elim_none]
  · rw [ofSource_append hs hf hl, ha, Option.elim_none]

/-- Behind the marker, a text that is an address of its family is read as that address, though it
may start with six zero groups again. So a text that starts with the marker, marked or not, is read
without it if the rest is an address, else as a whole if the whole is one, and else not at all. -/
theorem marked_text_is_read :
    (∀ (x : List Char) (f : Family) (a : Address), familyOfText? x = some f →
      Address.read? .plain f x = some a → ReadsAs (zeroMarker ++ x) a) ∧
    ∀ (x r : List Char) (f : Family), x = zeroMarker ++ r → familyOfText? x = some f → '/' ∉ x →
      (∀ a, Address.read? .plain f r = some a → ReadsAs x a) ∧
      (∀ a, Address.read? .plain f r = none → Address.read? .plain f x = some a → ReadsAs x a) ∧
      (Address.read? .plain f r = none → Address.read? .plain f x = none →
        ofSource x = .error (.badAddress (String.ofList x)) ∧
          ∀ l, (f = .v6 → '.' ∉ l) →
            ofSource (x ++ '/' :: l) = .error (.badAddress (String.ofList (x ++ '/' :: l)))) := by
  refine ⟨fun x f a hf hx => ?_, ?_⟩
  · refine readsAs_of_sourceAddress? (slash_not_mem_marked (Address.slash_not_mem_of_read? hx))
      (familyOfText?_marked hf) ?_ (Address.family_of_read? hx)
    rw [sourceAddress?_marked, hx, Option.some_or]
  · rintro _ r f rfl hf hs
    refine ⟨fun a hr => ?_, fun a hr hx => ?_, fun hr hx => ?_⟩
    · refine readsAs_of_sourceAddress? hs hf ?_ (Address.family_of_read? hr)
      rw [sourceAddress?_marked, hr, Option.some_or]
    · refine readsAs_of_sourceAddress? hs hf ?_ (Address.family_of_read? hx)
      rw [sourceAddress?_marked, hr, Option.none_or, hx]
    · refine ofSource_of_sourceAddress?_eq_none hs hf ?_
      rw [sourceAddress?_marked, hr, Option.none_or, hx]

/-- The eight groups 0:0:0:0:0:0:1:2 are read as such behind the marker and without it, as 1:2 is no
address; with ::1 behind them, the six groups are the marker; and +007 is a length. -/
theorem marked_text_is_read_of_groups :
    ReadsAs (zeroMarker ++ "00:00:00:00:00:00:1:2".toList) ⟨.v6, 0x10002, by decide⟩ ∧
    ReadsAs "00:00:00:00:00:00:1:2".toList ⟨.v6, 0x10002, by decide⟩ ∧
    ReadsAs "00:00:00:00:00:00:::1".toList ⟨.v6, 1, by decide⟩ ∧
    LengthText " +007\t".toList 7 := by
  refine ⟨marked_text_is_read.1 _ .v6 _ rfl (by decide), ?_, ?_, ?_⟩
  · have hgroups := marked_text_is_read.2 _ "1:2".toList .v6 rfl rfl (by decide)
    exact hgroups.2.1 _ (by decide) (by decide)
  · exact (marked_text_is_read.2 _ "::1".toList .v6 rfl rfl (by decide)).1 _ (by decide)
  · exact sourceLength?_eq_some_iff.mp (by decide)

end Prefix

end VxlanRouting
