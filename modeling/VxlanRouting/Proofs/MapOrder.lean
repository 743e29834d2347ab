import VxlanRouting.LogicalRouter.Basic
import VxlanRouting.Prefix.Map

/-!
What the order of the entries of a map is good for. Maps with ascending keys stay so under all
writes, and no key of theirs occurs twice, so that being an entry and being looked up is the same.
In the order of arrival, a new key stands behind all others.
-/
namespace VxlanRouting

instance : Std.Irrefl (α := Prefix) (· < ·) := ⟨Prefix.lt_irrefl⟩

instance : Trans (α := Prefix) (· < ·) (· < ·) (· < ·) := ⟨Prefix.lt_trans⟩

instance : Std.Trichotomous (α := Prefix) (· < ·) := ⟨fun _ _ => Prefix.eq_of_not_lt⟩

namespace LogicalRouterId

theorem lt_def {a b : LogicalRouterId} : a < b ↔ a.value < b.value := Iff.rfl

theorem eq_of_value {a b : LogicalRouterId} (h : a.value = b.value) : a = b := by
  cases a; cases b; simp_all

instance : Std.Irrefl (α := LogicalRouterId) (· < ·) := ⟨fun a => Nat.lt_irrefl a.value⟩

instance : Trans (α := LogicalRouterId) (· < ·) (· < ·) (· < ·) :=
  ⟨fun {a b c} (h : a.value < b.value) (h' : b.value < c.value) =>
    show a.value < c.value from Nat.lt_trans h h'⟩

instance : Std.Trichotomous (α := LogicalRouterId) (· < ·) := by
  refine ⟨fun a b h h' => eq_of_value ?_⟩
  rw [lt_def] at h h'
  omega

end LogicalRouterId

namespace Entries

variable {κ α : Type} [DecidableEq κ]

theorem get?_of_mem {l : List (κ × α)} (hl : (l.map (·.1)).Nodup) {k : κ} {v : α}
    (h : (k, v) ∈ l) : get? k l = some v := by
  induction l with
  | nil => cases h
  | cons e l ih =>
    obtain ⟨he, hl'⟩ := List.nodup_cons.mp hl
    rw [get?_cons]
    rcases List.mem_cons.mp h with rfl | h
    · rw [if_pos rfl]
    · have hne : e.1 ≠ k := by
        intro hk
        exact he (List.mem_map.mpr ⟨(k, v), h, hk.symm⟩)
      rw [if_neg hne, ih hl' h]

theorem map_fst_erase (k : κ) (l : List (κ × α)) :
    (erase k l).map (·.1) = (l.map (·.1)).filter fun x => decide (x ≠ k) := by
  simp only [erase]
  rw [List.filter_map]
  rfl

omit [DecidableEq κ] in
theorem map_fst_mapValues {β : Type} (f : κ → α → β) (l : List (κ × α)) :
    (mapValues f l).map (·.1) = l.map (·.1) := by
  simp [mapValues]

end Entries

namespace OrderedMap

variable {κ α β : Type} [DecidableEq κ] [LT κ]

omit [DecidableEq κ] in
theorem sorted_empty : (∅ : OrderedMap κ α).Sorted := List.Pairwise.nil

omit [DecidableEq κ] in
theorem nodup_keys [Std.Irrefl (α := κ) (· < ·)] {m : OrderedMap κ α} (h : m.Sorted) :
    m.keys.Nodup := by
  refine List.Pairwise.imp (fun {a b} hlt => ?_) h
  rintro rfl
  exact Std.Irrefl.irrefl (r := (· < ·)) a hlt

theorem get?_of_mem [Std.Irrefl (α := κ) (· < ·)] {m : OrderedMap κ α} (h : m.Sorted) {k : κ}
    {v : α} (hv : (k, v) ∈ m.entries) : m.get? k = some v :=
  Entries.get?_of_mem (nodup_keys h) hv

theorem sorted_erase {m : OrderedMap κ α} (h : m.Sorted) (k : κ) : (m.erase k).Sorted := by
  simp only [Sorted, keys, erase] at *
  rw [Entries.map_fst_erase]
  exact List.Pairwise.filter _ h

omit [DecidableEq κ] in
theorem sorted_mapValues {m : OrderedMap κ α} (h : m.Sorted) (f : κ → α → β) :
    (m.mapValues f).Sorted := by
  simp only [Sorted, keys, mapValues] at *
  rw [Entries.map_fst_mapValues]
  exact h

theorem mem_map_fst_insertEntry [DecidableLT κ] {k x : κ} {v : α} {l : List (κ × α)} :
    x ∈ (insertEntry k v l).map (·.1) ↔ x = k ∨ x ∈ l.map (·.1) := by
  induction l with
  | nil => simp [insertEntry]
  | cons e l ih =>
    simp only [insertEntry]
    split
    · next h => simp [h]
    · split
      · simp
      · rw [List.map_cons, List.mem_cons, ih, List.map_cons, List.mem_cons]
        constructor
        · rintro (h | h | h) <;> simp [h]
        · rintro (h | h | h) <;> simp [h]

theorem sorted_insert [DecidableLT κ] [Trans (α := κ) (· < ·) (· < ·) (· < ·)]
    [Std.Trichotomous (α := κ) (· < ·)] {m : OrderedMap κ α} (h : m.Sorted) (k : κ) (v : α) :
    (m.insert k v).Sorted := by
  obtain ⟨l⟩ := m
  unfold Sorted keys insert at *
  dsimp only at h ⊢
  induction l with
  | nil => exact List.pairwise_singleton _ _
  | cons e l ih =>
    obtain ⟨he, hl⟩ := List.pairwise_cons.mp h
    simp only [insertEntry]
    split
    · next hk => exact hk ▸ h
    · next hk =>
      split
      · next hlt =>
        refine List.pairwise_cons.mpr ⟨fun x hx => ?_, h⟩
        rcases List.mem_cons.mp hx with rfl | hx
        · exact hlt
        · exact Trans.trans hlt (he x hx)
      · next hlt =>
        have hgt : e.1 < k := by
          by_cases hgt : e.1 < k
          · exact hgt
          · exact absurd (Std.Trichotomous.trichotomous (r := (· < ·)) e.1 k hgt hlt) hk
        refine List.pairwise_cons.mpr ⟨fun x hx => ?_, ih hl⟩
        rcases mem_map_fst_insertEntry.mp hx with rfl | hx
        · exact hgt
        · exact he x hx

/-- Overwriting the value of a key changes nothing that a look at the values cannot tell apart. -/
theorem mapValues_insert_of_get? [DecidableLT κ] [Std.Irrefl (α := κ) (· < ·)]
    [Trans (α := κ) (· < ·) (· < ·) (· < ·)] (f : α → β) {m : OrderedMap κ α} (hm : m.Sorted)
    {k : κ} {a b : α} (h : m.get? k = some a) (hf : f b = f a) :
    (m.insert k b).mapValues (fun _ => f) = m.mapValues fun _ => f := by
  obtain ⟨l⟩ := m
  simp only [insert, mapValues, Entries.mapValues]
  congr 1
  simp only [get?] at h
  unfold Sorted keys at hm
  dsimp only at h hm ⊢
  induction l with
  | nil => cases h
  | cons e l ih =>
    obtain ⟨he, hl⟩ := List.pairwise_cons.mp hm
    simp only [insertEntry]
    rw [Entries.get?_cons] at h
    split at h
    · next hk =>
      cases h
      rw [if_pos hk, List.map_cons, List.map_cons, hf, hk]
    · next hk =>
      have hlt : ¬ k < e.1 := by
        intro hlt
        have hmem : k ∈ l.map (·.1) := List.mem_map.mpr ⟨_, Entries.mem_of_get? h, rfl⟩
        exact Std.Irrefl.irrefl (r := (· < ·)) k (Trans.trans hlt (he k hmem))
      rw [if_neg hk, if_neg hlt, List.map_cons, List.map_cons, ih hl h]

end OrderedMap

namespace ArrivalMap

variable {κ α : Type} [DecidableEq κ]

theorem get?_of_mem {m : ArrivalMap κ α} (h : m.keys.Nodup) {k : κ} {v : α}
    (hv : (k, v) ∈ m.entries) : m.get? k = some v :=
  Entries.get?_of_mem h hv

theorem mem_keys_iff {m : ArrivalMap κ α} {k : κ} : k ∈ m.keys ↔ m.get? k ≠ none := by
  rw [Ne, get?, Entries.get?_eq_none_iff, keys, Decidable.not_not]

theorem nodup_keys_insert {m : ArrivalMap κ α} (h : m.keys.Nodup) (k : κ) (v : α) :
    (m.insert k v).keys.Nodup := by
  by_cases hk : k ∈ m.keys
  · rw [keys_insert_of_mem m v hk]
    exact h
  · rw [keys_insert_of_not_mem m v hk]
    refine List.nodup_append.mpr ⟨h, List.pairwise_singleton _ k, fun a ha b hb heq => ?_⟩
    rw [List.mem_singleton] at hb
    exact hk (hb ▸ heq ▸ ha)

theorem nodup_keys_erase {m : ArrivalMap κ α} (h : m.keys.Nodup) (k : κ) :
    (m.erase k).keys.Nodup := by
  simp only [keys, erase] at *
  rw [Entries.map_fst_erase]
  exact List.Pairwise.filter _ h

/-- A new key stands behind all others. -/
theorem entries_insert_of_not_mem (m : ArrivalMap κ α) {k : κ} (v : α) (h : k ∉ m.keys) :
    (m.insert k v).entries = m.entries ++ [(k, v)] := by
  obtain ⟨l⟩ := m
  simp only [insert, keys] at h ⊢
  induction l with
  | nil => rfl
  | cons e l ih =>
    have he : e.1 ≠ k := fun he => h (by simp [he])
    have hl : k ∉ l.map (·.1) := fun hl => h (by simp [hl])
    simp [insertEntry, he, ih hl]

end ArrivalMap

end VxlanRouting
