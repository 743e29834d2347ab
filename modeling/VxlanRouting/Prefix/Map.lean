import VxlanRouting.Map.Ordered
import VxlanRouting.Prefix.Basic

/-!
Maps from prefixes, in order of prefixes. Next to the value of a prefix itself, such a map gives the
most specific entry that contains a prefix. An address is looked up as the prefix that holds it
alone. A key is all of its prefix, bits that do not count included: maps whose keys are canonical
have one entry at most for each network.
-/
namespace VxlanRouting

abbrev PrefixMap (α : Type) := OrderedMap Prefix α

namespace PrefixMap

variable {α : Type}

/-- The entry with the greatest length. -/
def longest : List (Prefix × α) → Option (Prefix × α)
  | [] => none
  | e :: l =>
    match longest l with
    | none => some e
    | some b => if e.1.length < b.1.length then some b else some e

/-- The longest entry that contains the prefix. -/
def lookup (m : PrefixMap α) (p : Prefix) : Option (Prefix × α) :=
  longest (m.entries.filter fun e => e.1.Contains p)

/-- The longest entry that covers the address. -/
def lookupAddress (m : PrefixMap α) (a : Address) : Option (Prefix × α) := m.lookup (.host a)

/-- What is written to a map: a value for a prefix, nothing for it, or a change of its value. -/
inductive Change (α : Type) where
  | insert (p : Prefix) (v : α)
  | remove (p : Prefix)
  | update (p : Prefix) (f : α → α)

def Change.dest : Change α → Prefix
  | .insert p _ => p
  | .remove p => p
  | .update p _ => p

/-- The map after a change, and the value that the prefix had before. -/
def change (m : PrefixMap α) (c : Change α) : PrefixMap α × Option α :=
  let m' := match c with
    | .insert p v => m.insert p v
    | .remove p => m.erase p
    | .update p f => m.modify p f
  (m', m.get? c.dest)

/-- The map after some changes, and what each of them found. -/
def changes (m : PrefixMap α) : List (Change α) → PrefixMap α × List (Option α)
  | [] => (m, [])
  | c :: cs =>
    let r := m.change c
    let rs := changes r.1 cs
    (rs.1, r.2 :: rs.2)

theorem mem_of_longest {l : List (Prefix × α)} {b : Prefix × α} (h : longest l = some b) :
    b ∈ l := by
  induction l generalizing b with
  | nil => cases h
  | cons e l ih =>
    simp only [longest] at h
    split at h
    · cases h; exact List.mem_cons_self
    · next hb =>
      split at h <;> cases h
      · exact List.mem_cons_of_mem _ (ih hb)
      · exact List.mem_cons_self

theorem longest_eq_none_iff {l : List (Prefix × α)} : longest l = none ↔ l = [] := by
  cases l with
  | nil => simp [longest]
  | cons e l =>
    simp only [longest]
    split
    · simp
    · split <;> simp

theorem length_le_of_longest {l : List (Prefix × α)} {b e : Prefix × α} (h : longest l = some b)
    (he : e ∈ l) : e.1.length ≤ b.1.length := by
  induction l generalizing b with
  | nil => cases h
  | cons x l ih =>
    simp only [longest] at h
    rcases List.mem_cons.mp he with rfl | hl
    · split at h
      · cases h; exact Nat.le_refl _
      · split at h <;> cases h <;> omega
    · split at h
      · next hn => rw [longest_eq_none_iff.mp hn] at hl; cases hl
      · next c hc =>
        have := ih hc hl
        split at h <;> cases h <;> omega

end PrefixMap

end VxlanRouting
