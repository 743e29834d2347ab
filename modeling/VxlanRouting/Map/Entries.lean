/-!
Lists of keys with values. The maps of this library are such lists; they differ only in where a new
key goes. A list is seen through `get?`, which gives the first value of a key.
-/
namespace VxlanRouting.Entries

variable {κ α β : Type} [DecidableEq κ]

/-- The value of a key. -/
def get? (k : κ) : List (κ × α) → Option α
  | [] => none
  | e :: l => if e.1 = k then some e.2 else get? k l

/-- The list without the entries of a key; the others keep their order. -/
def erase (k : κ) (l : List (κ × α)) : List (κ × α) :=
  l.filter fun e => decide (e.1 ≠ k)

/-- Every value changed by a function of its key and itself. -/
def mapValues (f : κ → α → β) (l : List (κ × α)) : List (κ × β) :=
  l.map fun e => (e.1, f e.1 e.2)

@[simp] theorem get?_nil (k : κ) : get? k ([] : List (κ × α)) = none := rfl

theorem get?_cons (k : κ) (e : κ × α) (l : List (κ × α)) :
    get? k (e :: l) = if e.1 = k then some e.2 else get? k l := rfl

theorem get?_eq_none_iff {k : κ} {l : List (κ × α)} : get? k l = none ↔ k ∉ l.map (·.1) := by
  induction l with
  | nil => simp
  | cons e l ih =>
    by_cases h : e.1 = k
    · simp [get?_cons, h]
    · simp [get?_cons, h, ih, Ne.symm h]

theorem mem_of_get? {k : κ} {v : α} {l : List (κ × α)} (h : get? k l = some v) : (k, v) ∈ l := by
  induction l with
  | nil => simp at h
  | cons e l ih =>
    rw [get?_cons] at h
    split at h
    · next hk => cases e; simp_all
    · exact List.mem_cons_of_mem _ (ih h)

@[simp] theorem get?_erase_self (k : κ) (l : List (κ × α)) : get? k (erase k l) = none := by
  rw [get?_eq_none_iff]
  simp [erase]

theorem get?_erase_of_ne {k k' : κ} (h : k' ≠ k) (l : List (κ × α)) :
    get? k' (erase k l) = get? k' l := by
  induction l with
  | nil => rfl
  | cons e l ih =>
    by_cases hk : e.1 = k
    · have he : erase k (e :: l) = erase k l := by simp [erase, hk]
      have hk' : e.1 ≠ k' := fun e' => h (by rw [← e', hk])
      rw [he, ih, get?_cons, if_neg hk']
    · have he : erase k (e :: l) = e :: erase k l := by simp [erase, hk]
      rw [he, get?_cons, get?_cons, ih]

@[simp] theorem get?_mapValues (f : κ → α → β) (k : κ) (l : List (κ × α)) :
    get? k (mapValues f l) = (get? k l).map (f k) := by
  induction l with
  | nil => rfl
  | cons e l ih =>
    by_cases h : e.1 = k
    · subst h; simp [mapValues, get?_cons]
    · simpa [mapValues, get?_cons, h] using ih

end VxlanRouting.Entries
