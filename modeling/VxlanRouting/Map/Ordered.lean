import VxlanRouting.Map.Entries

/-!
Maps whose keys are in ascending order, and ascending lists of keys. Writing takes one pass over the
entries, so what a map gives for a key never hangs on the order; `Sorted` says that the order holds.
-/
namespace VxlanRouting

structure OrderedMap (κ α : Type) where
  entries : List (κ × α) := []
  deriving DecidableEq, Repr

namespace OrderedMap

variable {κ α β : Type} [DecidableEq κ]

instance : EmptyCollection (OrderedMap κ α) := ⟨{}⟩

def get? (m : OrderedMap κ α) (k : κ) : Option α := Entries.get? k m.entries

def contains (m : OrderedMap κ α) (k : κ) : Bool := (m.get? k).isSome

def keys (m : OrderedMap κ α) : List κ := m.entries.map (·.1)

def values (m : OrderedMap κ α) : List α := m.entries.map (·.2)

def size (m : OrderedMap κ α) : Nat := m.entries.length

def isEmpty (m : OrderedMap κ α) : Bool := m.entries.isEmpty

/-- A present key gets its new value, and an absent one goes before the first greater key. -/
def insertEntry [LT κ] [DecidableLT κ] (k : κ) (v : α) : List (κ × α) → List (κ × α)
  | [] => [(k, v)]
  | e :: l =>
    if e.1 = k then (k, v) :: l
    else if k < e.1 then (k, v) :: e :: l
    else e :: insertEntry k v l

def insert [LT κ] [DecidableLT κ] (m : OrderedMap κ α) (k : κ) (v : α) : OrderedMap κ α :=
  ⟨insertEntry k v m.entries⟩

def erase (m : OrderedMap κ α) (k : κ) : OrderedMap κ α :=
  ⟨Entries.erase k m.entries⟩

def mapValues (f : κ → α → β) (m : OrderedMap κ α) : OrderedMap κ β :=
  ⟨Entries.mapValues f m.entries⟩

/-- Changes the value of a key that is present. -/
def modify (m : OrderedMap κ α) (k : κ) (f : α → α) : OrderedMap κ α :=
  m.mapValues fun k' v => if k' = k then f v else v

/-- The keys are strictly ascending. -/
def Sorted [LT κ] (m : OrderedMap κ α) : Prop := m.keys.Pairwise (· < ·)

@[simp] theorem get?_empty (k : κ) : (∅ : OrderedMap κ α).get? k = none := rfl

@[simp] theorem get?_insert_self [LT κ] [DecidableLT κ] (m : OrderedMap κ α) (k : κ) (v : α) :
    (m.insert k v).get? k = some v := by
  obtain ⟨l⟩ := m
  simp only [insert, get?]
  induction l with
  | nil => simp [insertEntry, Entries.get?_cons]
  | cons e l ih =>
    unfold insertEntry
    split
    · simp [Entries.get?_cons]
    · split <;> simp_all [Entries.get?_cons]

theorem get?_insert_of_ne [LT κ] [DecidableLT κ] (m : OrderedMap κ α) {k k' : κ} (v : α)
    (h : k' ≠ k) : (m.insert k v).get? k' = m.get? k' := by
  obtain ⟨l⟩ := m
  simp only [insert, get?]
  induction l with
  | nil => simp [insertEntry, Entries.get?_cons, h.symm]
  | cons e l ih =>
    unfold insertEntry
    split
    · next he => simp [Entries.get?_cons, he, h.symm]
    · split
      · simp [Entries.get?_cons, h.symm]
      · simp [Entries.get?_cons, ih]

@[simp] theorem get?_erase_self (m : OrderedMap κ α) (k : κ) : (m.erase k).get? k = none :=
  Entries.get?_erase_self k m.entries

theorem get?_erase_of_ne (m : OrderedMap κ α) {k k' : κ} (h : k' ≠ k) :
    (m.erase k).get? k' = m.get? k' :=
  Entries.get?_erase_of_ne h m.entries

@[simp] theorem get?_mapValues (f : κ → α → β) (m : OrderedMap κ α) (k : κ) :
    (m.mapValues f).get? k = (m.get? k).map (f k) :=
  Entries.get?_mapValues f k m.entries

@[simp] theorem get?_modify_self (m : OrderedMap κ α) (k : κ) (f : α → α) :
    (m.modify k f).get? k = (m.get? k).map f := by
  simp [modify]

theorem get?_modify_of_ne (m : OrderedMap κ α) {k k' : κ} (f : α → α) (h : k' ≠ k) :
    (m.modify k f).get? k' = m.get? k' := by
  simp [modify, h]

end OrderedMap

/-- Puts a value into an ascending list, once. -/
def ascendingInsert {κ : Type} [DecidableEq κ] [LT κ] [DecidableLT κ] (k : κ) : List κ → List κ
  | [] => [k]
  | x :: l => if x = k then x :: l else if k < x then k :: x :: l else x :: ascendingInsert k l

/-- The distinct values of a list in ascending order. -/
def ascending {κ : Type} [DecidableEq κ] [LT κ] [DecidableLT κ] (l : List κ) : List κ :=
  l.foldr ascendingInsert []

theorem mem_ascendingInsert {κ : Type} [DecidableEq κ] [LT κ] [DecidableLT κ] {k x : κ}
    {l : List κ} : x ∈ ascendingInsert k l ↔ x = k ∨ x ∈ l := by
  induction l with
  | nil => simp [ascendingInsert]
  | cons y l ih =>
    unfold ascendingInsert
    split
    · next h => subst h; simp
    · split
      · simp
      · simp only [List.mem_cons, ih]
        constructor
        · rintro (h | h | h) <;> simp [h]
        · rintro (h | h | h) <;> simp [h]

theorem mem_ascending {κ : Type} [DecidableEq κ] [LT κ] [DecidableLT κ] {x : κ} {l : List κ} :
    x ∈ ascending l ↔ x ∈ l := by
  induction l with
  | nil => simp [ascending]
  | cons y l ih =>
    simp only [ascending, List.foldr_cons] at ih ⊢
    simp [mem_ascendingInsert, ih]

end VxlanRouting
