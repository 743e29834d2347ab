import VxlanRouting.Map.Entries

/-!
Maps whose keys stay in the order of their first arrival. Writing to a present key leaves it in its
place, and erasing a key keeps the order of the others.
-/
namespace VxlanRouting

structure ArrivalMap (κ α : Type) where
  entries : List (κ × α) := []
  deriving DecidableEq, Repr

namespace ArrivalMap

variable {κ α β : Type} [DecidableEq κ]

instance : EmptyCollection (ArrivalMap κ α) := ⟨{}⟩

def get? (m : ArrivalMap κ α) (k : κ) : Option α := Entries.get? k m.entries

def contains (m : ArrivalMap κ α) (k : κ) : Bool := (m.get? k).isSome

def keys (m : ArrivalMap κ α) : List κ := m.entries.map (·.1)

def values (m : ArrivalMap κ α) : List α := m.entries.map (·.2)

def size (m : ArrivalMap κ α) : Nat := m.entries.length

def isEmpty (m : ArrivalMap κ α) : Bool := m.entries.isEmpty

/-- A present key gets its new value where it stands, and an absent one goes to the end. -/
def insertEntry (k : κ) (v : α) : List (κ × α) → List (κ × α)
  | [] => [(k, v)]
  | e :: l => if e.1 = k then (k, v) :: l else e :: insertEntry k v l

def insert (m : ArrivalMap κ α) (k : κ) (v : α) : ArrivalMap κ α :=
  ⟨insertEntry k v m.entries⟩

def erase (m : ArrivalMap κ α) (k : κ) : ArrivalMap κ α :=
  ⟨Entries.erase k m.entries⟩

def mapValues (f : κ → α → β) (m : ArrivalMap κ α) : ArrivalMap κ β :=
  ⟨Entries.mapValues f m.entries⟩

def ofList (l : List (κ × α)) : ArrivalMap κ α :=
  l.foldl (fun m e => m.insert e.1 e.2) ∅

@[simp] theorem get?_empty (k : κ) : (∅ : ArrivalMap κ α).get? k = none := rfl

@[simp] theorem get?_insert_self (m : ArrivalMap κ α) (k : κ) (v : α) :
    (m.insert k v).get? k = some v := by
  obtain ⟨l⟩ := m
  simp only [insert, get?]
  induction l with
  | nil => simp [insertEntry, Entries.get?_cons]
  | cons e l ih =>
    unfold insertEntry
    split <;> simp_all [Entries.get?_cons]

theorem get?_insert_of_ne (m : ArrivalMap κ α) {k k' : κ} (v : α) (h : k' ≠ k) :
    (m.insert k v).get? k' = m.get? k' := by
  obtain ⟨l⟩ := m
  simp only [insert, get?]
  induction l with
  | nil => simp [insertEntry, Entries.get?_cons, h.symm]
  | cons e l ih =>
    unfold insertEntry
    split
    · next he => simp [Entries.get?_cons, he, h.symm]
    · simp [Entries.get?_cons, ih]

@[simp] theorem get?_erase_self (m : ArrivalMap κ α) (k : κ) : (m.erase k).get? k = none :=
  Entries.get?_erase_self k m.entries

theorem get?_erase_of_ne (m : ArrivalMap κ α) {k k' : κ} (h : k' ≠ k) :
    (m.erase k).get? k' = m.get? k' :=
  Entries.get?_erase_of_ne h m.entries

@[simp] theorem get?_mapValues (f : κ → α → β) (m : ArrivalMap κ α) (k : κ) :
    (m.mapValues f).get? k = (m.get? k).map (f k) :=
  Entries.get?_mapValues f k m.entries

/-- A key that was absent goes to the end. -/
theorem keys_insert_of_not_mem (m : ArrivalMap κ α) {k : κ} (v : α) (h : k ∉ m.keys) :
    (m.insert k v).keys = m.keys ++ [k] := by
  obtain ⟨l⟩ := m
  simp only [insert, keys] at h ⊢
  induction l with
  | nil => rfl
  | cons e l ih =>
    have he : e.1 ≠ k := fun he => h (by simp [he])
    have hl : k ∉ l.map (·.1) := fun hl => h (by simp [hl])
    simp [insertEntry, he, ih hl]

/-- Writing to a present key moves nothing. -/
theorem keys_insert_of_mem (m : ArrivalMap κ α) {k : κ} (v : α) (h : k ∈ m.keys) :
    (m.insert k v).keys = m.keys := by
  obtain ⟨l⟩ := m
  simp only [insert, keys] at h ⊢
  induction l with
  | nil => simp at h
  | cons e l ih =>
    unfold insertEntry
    split
    · next he => simp [he]
    · next he =>
      have hl : k ∈ l.map (·.1) := by
        simp only [List.map_cons, List.mem_cons] at h
        exact h.resolve_left fun e' => he e'.symm
      simp [ih hl]

end ArrivalMap

end VxlanRouting
