import VxlanRouting.Proofs.Routers

/-!
The index of the map of routers. Whatever changes lead to a map, the index names the router of a VN
exactly if that router lists the VN. So no VN is listed twice, be it by two routers or in two roles,
and a router that has lost its last VN is not kept. Forgetting a router takes all its VNs out of the
index; for this no VN may stand in the index twice, which its order sees to.
-/
namespace VxlanRouting

/-- Without the entries whose values fail a test, a key keeps its value if that passes. -/
theorem Entries.get?_filter {κ α : Type} [DecidableEq κ] {l : List (κ × α)}
    (hl : (l.map (·.1)).Nodup) (p : α → Bool) (k : κ) :
    get? k (l.filter fun e => p e.2) = (get? k l).filter p := by
  induction l with
  | nil => rfl
  | cons e l ih =>
    obtain ⟨he, hl'⟩ := List.nodup_cons.mp hl
    rw [get?_cons, List.filter_cons]
    by_cases hk : e.1 = k
    · rw [if_pos hk, Option.filter_some]
      split
      · rw [get?_cons, if_pos hk]
      · rw [get?_eq_none_iff, ← hk]
        exact fun hmem => he ((List.filter_sublist.map _).subset hmem)
    · rw [if_neg hk, ← ih hl']
      split
      · rw [get?_cons, if_neg hk]
      · rfl

/-- A router that is not empty lists a VN. -/
theorem LogicalRouter.exists_lists {r : LogicalRouter} (h : ¬ r.isEmpty = true) :
    ∃ vn, r.Lists vn := by
  cases hr : r.routingVn with
  | some vn => exact ⟨vn, .inl hr⟩
  | none =>
    cases hb : r.bridges.entries with
    | nil => exact absurd (by simp [isEmpty, ArrivalMap.isEmpty, hr, hb]) h
    | cons e l =>
      refine ⟨e.1, .inr ?_⟩
      simp [ArrivalMap.contains, ArrivalMap.get?, hb, Entries.get?_cons]

namespace RouterMap

/-- What is done with a map of routers. -/
inductive Change where
  | configure (c : VnConfig)
  | detach (vn : String)
  | remove (id : LogicalRouterId)
  | nextSequence (id : LogicalRouterId)

def change (m : RouterMap) : Change → RouterMap
  | .configure c => (m.configure c).1
  | .detach vn => (m.detach vn).1
  | .remove id => m.remove id
  | .nextSequence id => (m.nextSequence id).1

/-- The map after a list of changes. -/
def changes (m : RouterMap) (l : List Change) : RouterMap := l.foldl change m

theorem router?_remove (m : RouterMap) (id id' : LogicalRouterId) :
    (m.remove id).router? id' = if id' = id then none else m.router? id' := by
  simp only [remove, router?]
  split
  · next h => rw [h, OrderedMap.get?_erase_self]
  · next h => rw [OrderedMap.get?_erase_of_ne _ h]

theorem ownerOf?_remove {m : RouterMap} (h : m.owners.Sorted) (id : LogicalRouterId)
    (vn : String) : (m.remove id).ownerOf? vn = (m.ownerOf? vn).filter fun o => decide (o ≠ id) :=
  Entries.get?_filter (OrderedMap.nodup_keys h) (fun o => decide (o ≠ id)) vn

/-- A coherent map whose index is in order and whose routers have a VN each. -/
structure Indexed (m : RouterMap) : Prop extends Coherent m where
  indexed : m.owners.Sorted
  listed : ∀ id r, m.router? id = some r → ∃ vn, r.Lists vn

theorem indexed_empty : Indexed {} where
  toCoherent := coherent_empty
  indexed := OrderedMap.sorted_empty
  listed _ _ h := by cases h

namespace Indexed

variable {m : RouterMap} (h : m.Indexed)

include h

theorem detach (vn : String) : (m.detach vn).1.Indexed := by
  cases ho : m.ownerOf? vn with
  | none =>
    rw [detach_of_unowned ho]
    exact h
  | some id =>
    obtain ⟨r, _, _, hd⟩ := h.detach_eq ho
    have hc := h.toCoherent.detach vn
    rw [hd] at hc ⊢
    refine ⟨hc, OrderedMap.sorted_erase h.indexed vn, fun id' r' hr' => ?_⟩
    have hget : (store m.routers id (r.without vn)).get? id' = some r' := hr'
    rw [router?_store] at hget
    split at hget
    · split at hget
      · cases hget
      · next hfull =>
        cases hget
        exact LogicalRouter.exists_lists hfull
    · exact h.listed id' r' hget

theorem attach {c : VnConfig} (hc : m.ownerOf? c.name = none) (id : LogicalRouterId) :
    (m.attach c id).Indexed := by
  refine ⟨h.toCoherent.attach hc id, ?_, fun id' r' hr' => ?_⟩
  · simp only [RouterMap.attach]
    split
    · split
      · exact OrderedMap.sorted_insert (OrderedMap.sorted_erase h.indexed _) _ _
      · exact OrderedMap.sorted_insert h.indexed _ _
    · exact OrderedMap.sorted_insert h.indexed _ _
  · rw [router?_attach] at hr'
    split at hr'
    · cases hr'
      exact ⟨c.name, ((h.sound_known id).lists_join c c.name).mpr (.inl rfl)⟩
    · exact h.listed id' r' hr'

theorem configure (c : VnConfig) : (m.configure c).1.Indexed := by
  rcases configure_cases m c with ⟨_, he⟩ | ⟨id, _, _, he⟩ | ⟨id, _, _, he⟩
  · rw [he]
    exact h.detach c.name
  · rw [he]
    exact h
  · rw [he]
    exact (h.detach c.name).attach (ownerOf?_detach_self m c.name) id

/-- Forgetting a router takes its VNs out of the index and leaves all others there. -/
theorem remove (id : LogicalRouterId) : (m.remove id).Indexed := by
  have hrouter : ∀ id' r, (m.remove id).router? id' = some r →
      id' ≠ id ∧ m.router? id' = some r := by
    intro id' r hr
    rw [router?_remove] at hr
    split at hr
    · cases hr
    · next hne => exact ⟨hne, hr⟩
  refine ⟨⟨OrderedMap.sorted_erase h.sorted id, fun vn id' => ?_, fun id' r hr => ?_⟩, ?_,
    fun id' r hr => ?_⟩
  · rw [ownerOf?_remove h.indexed, Option.filter_eq_some_iff, h.owns]
    constructor
    · rintro ⟨⟨r, hr, hl⟩, hne⟩
      refine ⟨r, ?_, hl⟩
      rw [router?_remove, if_neg (by simpa using hne), hr]
    · rintro ⟨r, hr, hl⟩
      obtain ⟨hne, hr⟩ := hrouter id' r hr
      exact ⟨⟨r, hr, hl⟩, by simpa using hne⟩
  · exact h.sound id' r (hrouter id' r hr).2
  · exact List.Pairwise.sublist (List.filter_sublist.map _) h.indexed
  · exact h.listed id' r (hrouter id' r hr).2

theorem nextSequence (id : LogicalRouterId) : (m.nextSequence id).1.Indexed := by
  have hbare : (m.nextSequence id).1.bare = m.bare := bare_nextSequence h.sorted id
  refine ⟨h.of_bare_eq hbare, ?_, fun id' r hr => ?_⟩
  · have howners : (m.nextSequence id).1.owners = m.owners := congrArg (·.owners) hbare
    rw [howners]
    exact h.indexed
  · obtain ⟨r₀, hr₀, he⟩ := router?_of_bare_eq hbare.symm hr
    obtain ⟨vn, hl⟩ := h.listed id' r₀ hr₀
    exact ⟨vn, (LogicalRouter.lists_congr he vn).mp hl⟩

theorem change (c : Change) : (m.change c).Indexed := by
  cases c with
  | configure c => exact h.configure c
  | detach vn => exact h.detach vn
  | remove id => exact h.remove id
  | nextSequence id => exact h.nextSequence id

theorem changes (l : List Change) : (m.changes l).Indexed := by
  induction l generalizing m with
  | nil => exact h
  | cons c l ih => exact ih (h.change c)

end Indexed

/-- Whatever changes lead to a map, its index and its routers tell the same. -/
theorem changes_consistent (l : List Change) :
    (∀ vn id, (changes {} l).ownerOf? vn = some id ↔
      ∃ r, (changes {} l).router? id = some r ∧ r.Lists vn) ∧
    (∀ vn id id' r r', (changes {} l).router? id = some r →
      (changes {} l).router? id' = some r' → r.Lists vn → r'.Lists vn → id = id') ∧
    ∀ id r, (changes {} l).router? id = some r →
      (∀ vn, ¬ (r.routingVn = some vn ∧ r.bridges.contains vn = true)) ∧
      (r.routingVn.isSome ↔ r.routingVrf.isSome) ∧ ∃ vn, r.Lists vn := by
  have h : (changes {} l).Indexed := indexed_empty.changes l
  refine ⟨h.owns, fun vn id id' r r' hr hr' hl hl' => ?_,
    fun id r hr => ⟨?_, ?_, h.listed id r hr⟩⟩
  · have ho := (h.owns vn id).mpr ⟨r, hr, hl⟩
    have ho' := (h.owns vn id').mpr ⟨r', hr', hl'⟩
    exact Option.some.inj (ho.symm.trans ho')
  · rintro vn ⟨hvn, hb⟩
    rw [ArrivalMap.contains, (h.sound id r hr).single vn hvn] at hb
    cases hb
  · rw [← Option.ne_none_iff_isSome, ← Option.ne_none_iff_isSome]
    exact not_congr (h.sound id r hr).paired.symm

end RouterMap

end VxlanRouting
