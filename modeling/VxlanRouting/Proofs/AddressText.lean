import VxlanRouting.Address.Text

/-!
Written addresses read back, in either spelling. The pieces of a written address are numerals, which
have no separator in them, so that cutting the text gives the groups of the address again. Where a
run of zeros is left out, its length is what the other groups leave of the eight.
-/
namespace VxlanRouting

namespace Text

theorem digit?_ne_none_of_digits? {base acc n : Nat} {s : List Char}
    (h : digits? base acc s = some n) {c : Char} (hc : c ∈ s) : digit? base c ≠ none := by
  induction s generalizing acc with
  | nil => cases hc
  | cons d s ih =>
    simp only [digits?] at h
    split at h
    · next hd =>
      rcases List.mem_cons.mp hc with rfl | hc
      · rw [hd]
        simp
      · exact ih h hc
    · cases h

/-- A numeral has digits only. -/
theorem not_mem_numeral {base : Nat} (hb : 2 ≤ base) (hx : base ≤ 16) {c : Char}
    (hc : digit? base c = none) (n : Nat) : c ∉ numeral base n :=
  fun h => digit?_ne_none_of_digits? (digits?_numeral hb hx n) h hc

theorem numeral_ne_nil (base n : Nat) : numeral base n ≠ [] := Nat.toDigits_ne_nil

theorem point_not_mem_numeral (n : Nat) : '.' ∉ numeral 10 n :=
  not_mem_numeral (by decide) (by decide) rfl n

theorem point_not_mem_hex (n : Nat) : '.' ∉ numeral 16 n :=
  not_mem_numeral (by decide) (by decide) rfl n

theorem colon_not_mem_hex (n : Nat) : ':' ∉ numeral 16 n :=
  not_mem_numeral (by decide) (by decide) rfl n

/-- A joined text has the characters of its pieces and the separator only. -/
theorem mem_of_mem_joined {sep c : Char} {ps : List (List Char)} (h : c ∈ joined sep ps) :
    c = sep ∨ ∃ p ∈ ps, c ∈ p := by
  induction ps with
  | nil => cases h
  | cons p ps ih =>
    cases ps with
    | nil => exact .inr ⟨p, List.mem_cons_self, h⟩
    | cons q qs =>
      rw [joined_cons sep p (by simp), List.mem_append, List.mem_cons] at h
      rcases h with h | h | h
      · exact .inr ⟨p, List.mem_cons_self, h⟩
      · exact .inl h
      · exact (ih h).imp_right fun ⟨r, hr, hc⟩ => ⟨r, List.mem_cons_of_mem _ hr, hc⟩

theorem not_mem_joined_numerals {base : Nat} (hb : 2 ≤ base) (hx : base ≤ 16) {sep c : Char}
    (hs : c ≠ sep) (hc : digit? base c = none) (gs : List Nat) :
    c ∉ joined sep (gs.map (numeral base)) := by
  intro h
  rcases mem_of_mem_joined h with h | ⟨p, hp, h⟩
  · exact hs h
  · obtain ⟨g, _, rfl⟩ := List.mem_map.mp hp
    exact not_mem_numeral hb hx hc g h

end Text

open Text

/-- Reading the pieces that were written of some values gives the values. -/
theorem mapM_map_of_some {α β : Type} {read : β → Option α} {write : α → β} {l : List α}
    (h : ∀ x ∈ l, read (write x) = some x) : (l.map write).mapM read = some l := by
  induction l with
  | nil => rfl
  | cons x l ih =>
    rw [List.map_cons, List.mapM_cons, h x List.mem_cons_self,
      ih fun y hy => h y (List.mem_cons_of_mem _ hy)]
    rfl

theorem octet?_numeral (sp : Spelling) {n : Nat} (h : n < 256) :
    octet? sp (numeral 10 n) = some n := by
  have hlen : (numeral 10 n).length ≤ 3 :=
    (Nat.length_toDigits_le_iff (by decide) (by decide)).mpr (Nat.lt_of_lt_of_le h (by decide))
  simp only [octet?]
  rw [natural?_numeral (by decide) (by decide)]
  simp [h, hlen]

theorem pieces_dottedText (n : Nat) :
    pieces '.' (dottedText n) = (groups 8 4 n).map (numeral 10) := by
  refine pieces_joined '.' _ (by simp [groups]) fun p hp => ?_
  obtain ⟨g, _, rfl⟩ := List.mem_map.mp hp
  exact point_not_mem_numeral g

/-- A written dotted quad reads back. -/
theorem dotted?_dottedText (sp : Spelling) {n : Nat} (h : n < 1 <<< 32) :
    dotted? sp (dottedText n) = some n := by
  have hread : ((groups 8 4 n).map (numeral 10)).mapM (octet? sp) = some (groups 8 4 n) :=
    mapM_map_of_some fun g hg => octet?_numeral sp (lt_of_mem_groups hg)
  simp only [dotted?, octets?]
  rw [pieces_dottedText, if_pos (by simp), hread, Option.map_some, ofGroups_groups 8 4 n h]

theorem hextet?_numeral {g : Nat} (h : g < 0x10000) : hextet? (numeral 16 g) = some g := by
  have hlen : (numeral 16 g).length ≤ 4 :=
    (Nat.length_toDigits_le_iff (by decide) (by decide)).mpr (Nat.lt_of_lt_of_le h (by decide))
  rw [hextet?, if_pos hlen, natural?_numeral (by decide) (by decide)]

theorem hextetRun?_numerals (sp : Spelling) (quad : Bool) {gs : List Nat}
    (h : ∀ g ∈ gs, g < 0x10000) : hextetRun? sp quad (gs.map (numeral 16)) = some gs := by
  induction gs with
  | nil => rfl
  | cons g gs ih =>
    rw [List.map_cons, hextetRun?, if_neg fun hq => point_not_mem_hex g hq.2.2,
      hextet?_numeral (h g List.mem_cons_self), ih fun x hx => h x (List.mem_cons_of_mem _ hx)]

theorem pieces_hextetRunText {gs : List Nat} (h : gs ≠ []) :
    pieces ':' (hextetRunText gs) = gs.map (numeral 16) := by
  refine pieces_joined ':' _ (by simp [h]) fun p hp => ?_
  obtain ⟨g, _, rfl⟩ := List.mem_map.mp hp
  exact colon_not_mem_hex g

theorem hextetRunText_ne_nil {gs : List Nat} (h : gs ≠ []) : hextetRunText gs ≠ [] := by
  intro hn
  have hp := pieces_hextetRunText h
  rw [hn] at hp
  cases gs with
  | nil => exact h rfl
  | cons g gs => exact numeral_ne_nil 16 g (List.cons.inj hp).1.symm

theorem hextetSide?_hextetRunText (sp : Spelling) (quad : Bool) {gs : List Nat}
    (h : ∀ g ∈ gs, g < 0x10000) : hextetSide? sp quad (hextetRunText gs) = some gs := by
  by_cases hn : gs = []
  · rw [hn]
    rfl
  · rw [hextetSide?, if_neg (hextetRunText_ne_nil hn), pieces_hextetRunText hn,
      hextetRun?_numerals sp quad h]

/-- The first two neighbouring colons do not stand in a text without colons. -/
theorem cutGap?_append {p : List Char} (h : ':' ∉ p) (s : List Char) :
    cutGap? (p ++ s) = (cutGap? s).map fun r => (p ++ r.1, r.2) := by
  induction p with
  | nil => simp
  | cons c p ih =>
    have hc : c ≠ ':' := fun e => h (by simp [e])
    have hp : ':' ∉ p := fun m => h (by simp [m])
    have hrest := ih hp
    cases hps : p ++ s with
    | nil =>
      obtain ⟨rfl, rfl⟩ := List.append_eq_nil_iff.mp hps
      rfl
    | cons d t =>
      rw [List.cons_append, hps, cutGap?, if_neg fun he => hc he.1, ← hps, hrest, Option.map_map]
      rfl

/-- Nor do they stand in a row of pieces, none of which is empty. -/
theorem cutGap?_joined_append {ps : List (List Char)} (hne : ∀ p ∈ ps, p ≠ [])
    (h : ∀ p ∈ ps, ':' ∉ p) (s : List Char) :
    cutGap? (joined ':' ps ++ s) = (cutGap? s).map fun r => (joined ':' ps ++ r.1, r.2) := by
  induction ps with
  | nil => simp [joined]
  | cons p ps ih =>
    cases ps with
    | nil => exact cutGap?_append (h p List.mem_cons_self) s
    | cons q qs =>
      have hrest := ih (fun x hx => hne x (List.mem_cons_of_mem _ hx))
        fun x hx => h x (List.mem_cons_of_mem _ hx)
      have hq : q ≠ [] := hne q (by simp)
      have hcolon : ':' ∉ q := h q (by simp)
      obtain ⟨c, t, hct⟩ : ∃ c t, joined ':' (q :: qs) ++ s = c :: t ∧ c ≠ ':' := by
        cases q with
        | nil => exact absurd rfl hq
        | cons c q =>
          refine ⟨c, ?_⟩
          have hc : c ≠ ':' := fun e => hcolon (by simp [e])
          cases qs with
          | nil => exact ⟨_, rfl, hc⟩
          | cons r rs => exact ⟨_, rfl, hc⟩
      rw [joined_cons ':' p (by simp), List.append_assoc, List.cons_append,
        cutGap?_append (h p List.mem_cons_self), hct.1, cutGap?, if_neg fun he => hct.2 he.2,
        ← hct.1, hrest, Option.map_map, Option.map_map]
      congr 1
      funext r
      simp

theorem cutGap?_hextetRunText (gs : List Nat) (s : List Char) :
    cutGap? (hextetRunText gs ++ s) =
      (cutGap? s).map fun r => (hextetRunText gs ++ r.1, r.2) := by
  refine cutGap?_joined_append (fun p hp => ?_) (fun p hp => ?_) s
  · obtain ⟨g, _, rfl⟩ := List.mem_map.mp hp
    exact numeral_ne_nil 16 g
  · obtain ⟨g, _, rfl⟩ := List.mem_map.mp hp
    exact colon_not_mem_hex g

theorem zeroRun_split (gs : List Nat) :
    List.replicate (zeroRun gs) 0 ++ gs.drop (zeroRun gs) = gs := by
  induction gs with
  | nil => rfl
  | cons g gs ih =>
    simp only [zeroRun]
    split
    · next hg => rw [List.replicate_succ, List.drop_succ_cons, List.cons_append, ih, hg]
    · rfl

theorem zeroRun_le (gs : List Nat) : zeroRun gs ≤ gs.length := by
  induction gs with
  | nil => exact Nat.le_refl _
  | cons g gs ih =>
    simp only [zeroRun, List.length_cons]
    split <;> omega

/-- What is found as the longest run of zeros is a run of zeros at its place. -/
theorem longestZeroRun_split (gs : List Nat) :
    (longestZeroRun gs).1 + (longestZeroRun gs).2 ≤ gs.length ∧
      gs.take (longestZeroRun gs).1 ++ List.replicate (longestZeroRun gs).2 0 ++
        gs.drop ((longestZeroRun gs).1 + (longestZeroRun gs).2) = gs := by
  induction gs with
  | nil => exact ⟨Nat.le_refl _, rfl⟩
  | cons g gs ih =>
    simp only [longestZeroRun]
    split
    · refine ⟨?_, ?_⟩
      · rw [Nat.zero_add]
        exact zeroRun_le _
      · rw [List.take_zero, List.nil_append, Nat.zero_add, zeroRun_split]
    · refine ⟨?_, ?_⟩
      · simp only [List.length_cons]
        omega
      · rw [List.take_succ_cons, Nat.add_right_comm, List.drop_succ_cons, List.cons_append,
          List.cons_append, ih.2]

/-- Eight groups that are written in full read back. -/
theorem hextets?_hextetRunText (sp : Spelling) {gs : List Nat} (hlen : gs.length = 8)
    (h : ∀ g ∈ gs, g < 0x10000) : hextets? sp (hextetRunText gs) = some gs := by
  have hne : gs ≠ [] := by
    rintro rfl
    cases hlen
  have hgap : cutGap? (hextetRunText gs) = none := by
    have hc := cutGap?_hextetRunText gs []
    rwa [List.append_nil] at hc
  simp only [hextets?]
  rw [hgap]
  dsimp only
  rw [pieces_hextetRunText hne, hextetRun?_numerals sp true h]
  exact if_pos hlen

/-- Groups around two colons read back with zeros between them. -/
theorem hextets?_gap (sp : Spelling) {hs ts : List Nat} (hlen : hs.length + ts.length ≤ 7)
    (hh : ∀ g ∈ hs, g < 0x10000) (ht : ∀ g ∈ ts, g < 0x10000) :
    hextets? sp (hextetRunText hs ++ ':' :: ':' :: hextetRunText ts) =
      some (hs ++ List.replicate (8 - (hs.length + ts.length)) 0 ++ ts) := by
  have hgap : cutGap? (hextetRunText hs ++ ':' :: ':' :: hextetRunText ts) =
      some (hextetRunText hs, hextetRunText ts) := by
    rw [cutGap?_hextetRunText]
    simp [cutGap?]
  have hlimit : 7 ≤ sp.gapLimit := by
    simp only [Spelling.gapLimit]
    split <;> decide
  simp only [hextets?]
  rw [hgap]
  dsimp only
  rw [hextetSide?_hextetRunText sp false hh, hextetSide?_hextetRunText sp true ht]
  exact if_pos ⟨by omega, by omega⟩

/-- Eight written groups read back. -/
theorem hextets?_hextetsText (sp : Spelling) {gs : List Nat} (hlen : gs.length = 8)
    (h : ∀ g ∈ gs, g < 0x10000) : hextets? sp (hextetsText gs) = some gs := by
  obtain ⟨hle, hsplit⟩ := longestZeroRun_split gs
  simp only [hextetsText]
  generalize longestZeroRun gs = r at hle hsplit ⊢
  by_cases hr : 2 ≤ r.2
  · have htake : (gs.take r.1).length = r.1 := List.length_take_of_le (by omega)
    have hdrop : (gs.drop (r.1 + r.2)).length = 8 - (r.1 + r.2) := by rw [List.length_drop, hlen]
    have hzeros : 8 - (r.1 + (8 - (r.1 + r.2))) = r.2 := by omega
    rw [if_pos hr, hextets?_gap sp (by omega) (fun g hg => h g (List.mem_of_mem_take hg))
      fun g hg => h g (List.mem_of_mem_drop hg), htake, hdrop, hzeros, hsplit]
  · rw [if_neg hr, hextets?_hextetRunText sp hlen h]

theorem colon_not_mem_dottedText (n : Nat) : ':' ∉ dottedText n :=
  not_mem_joined_numerals (by decide) (by decide) (by decide) rfl _

theorem point_mem_dottedText (n : Nat) : '.' ∈ dottedText n := by
  simp [dottedText, groups, joined]

/-- What is written for an address that stands for one of version 4. -/
def mappedText (n : Nat) : List Char := [':', ':', 'f', 'f', 'f', 'f', ':'] ++ dottedText n

/-- A dotted quad behind the mark of version 4 reads as the last two groups. -/
theorem hextets?_mappedText (sp : Spelling) {n : Nat} (h : n < 1 <<< 32) :
    hextets? sp (mappedText n) = some (List.replicate 5 0 ++ 0xffff :: groups 16 2 n) := by
  have hpieces : pieces ':' (['f', 'f', 'f', 'f'] ++ ':' :: dottedText n) =
      [['f', 'f', 'f', 'f'], dottedText n] := by
    rw [pieces_append_sep ':' _ _ (by decide), pieces_of_not_mem ':' _ (colon_not_mem_dottedText n)]
  have hmark : hextet? ['f', 'f', 'f', 'f'] = some 0xffff := by decide
  have hquad : hextetRun? sp true [dottedText n] = some (groups 16 2 n) := by
    rw [hextetRun?, if_pos ⟨rfl, rfl, point_mem_dottedText n⟩, dotted?_dottedText sp h]
    rfl
  have hside : hextetSide? sp true (['f', 'f', 'f', 'f'] ++ ':' :: dottedText n) =
      some (0xffff :: groups 16 2 n) := by
    rw [hextetSide?, if_neg (by simp), hpieces, hextetRun?, if_neg (by simp), hmark, hquad]
  have hgap : cutGap? (mappedText n) = some ([], ['f', 'f', 'f', 'f'] ++ ':' :: dottedText n) := rfl
  have hlimit : 7 ≤ sp.gapLimit := by
    simp only [Spelling.gapLimit]
    split <;> decide
  have hfit : ([] : List Nat).length < 8 ∧
      ([] : List Nat).length + (0xffff :: groups 16 2 n).length ≤ sp.gapLimit := by
    rw [List.length_cons, length_groups]
    exact ⟨by decide, Nat.le_trans (by decide) hlimit⟩
  simp only [hextets?]
  rw [hgap]
  dsimp only
  rw [hextetSide?, if_pos rfl, hside]
  dsimp only
  rw [if_pos hfit, List.length_cons, length_groups]
  rfl

theorem ofGroups_mapped {n : Nat} (h : n < 1 <<< 32) :
    ofGroups 16 (List.replicate 5 0 ++ 0xffff :: groups 16 2 n) = 0xffff <<< 32 + n := by
  simp only [Nat.one_shiftLeft] at h
  simp [ofGroups, groups, Nat.shiftLeft_eq, Nat.shiftRight_eq_div_pow, List.replicate]
  omega

namespace Address

theorem text_v4 {a : Address} (h : a.family = .v4) : a.text = dottedText a.value := by
  simp only [text]
  rw [h]

theorem text_mapped {a : Address} (h : a.IsMapped) :
    a.text = mappedText (a.value % 0x100000000) := by
  simp only [text]
  rw [h.1]
  exact if_pos h.2

theorem text_v6 {a : Address} (hf : a.family = .v6) (h : ¬ a.IsMapped) :
    a.text = hextetsText (groups 16 8 a.value) := by
  simp only [text]
  rw [hf]
  exact if_neg fun hv => h ⟨hf, hv⟩

theorem value_lt_of_family {a : Address} {f : Family} (h : a.family = f) :
    a.value < 1 <<< f.width := h ▸ a.value_lt

/-- What is written reads back. -/
theorem read?_text (sp : Spelling) (a : Address) : read? sp a.family a.text = some a := by
  have hself : ∀ f, a.family = f → ofValue? f a.value = some a := by
    rintro f rfl
    exact a.ofValue?_value
  cases hf : a.family with
  | v4 =>
    rw [text_v4 hf, read?, dotted?_dottedText sp (value_lt_of_family hf)]
    exact hself .v4 hf
  | v6 =>
    by_cases hm : a.IsMapped
    · have hlow : a.value % 0x100000000 < 1 <<< 32 := Nat.mod_lt _ (by decide)
      have hvalue : 0xffff <<< 32 + a.value % 0x100000000 = a.value := by
        have hv := hm.2
        simp only [Nat.shiftRight_eq_div_pow, Nat.shiftLeft_eq] at hv ⊢
        omega
      rw [text_mapped hm, read?, hextets?_mappedText sp hlow, Option.bind_some,
        ofGroups_mapped hlow, hvalue]
      exact hself .v6 hf
    · have hgroups : ∀ g ∈ groups 16 8 a.value, g < 0x10000 := by
        intro g hg
        have := lt_of_mem_groups hg
        simpa only [Nat.one_shiftLeft] using this
      have hwidth : Family.v6.width = 16 * 8 := rfl
      have hvalue : a.value < 1 <<< (16 * 8) := hwidth ▸ value_lt_of_family hf
      rw [text_v6 hf hm, read?, hextets?_hextetsText sp (length_groups _ _ _) hgroups,
        Option.bind_some, ofGroups_groups 16 8 _ hvalue]
      exact hself .v6 hf

end Address

end VxlanRouting
