import VxlanRouting.Proofs.Change
import VxlanRouting.Proofs.Registry

/-!
Routers that are written as they are. The index learns all VNs of such a router, but no VN is taken
from anywhere for it: a VN that the router had before and has no more still leads to it, and another
router goes on listing a VN that now leads to this one. So the index stays exact exactly if, of the
VNs that it knows, the new router lists those that have been its own.
-/
namespace VxlanRouting

/-- After some keys have been written with one value, they have this value. -/
theorem OrderedMap.get?_foldl_insert {κ α : Type} [DecidableEq κ] [LT κ] [DecidableLT κ]
    (l : List κ) (v : α) (m : OrderedMap κ α) (k : κ) :
    (l.foldl (fun m k => m.insert k v) m).get? k = if k ∈ l then some v else m.get? k := by
  induction l generalizing m with
  | nil => rfl
  | cons x l ih =>
    rw [List.foldl_cons, ih]
    by_cases hl : k ∈ l
    · rw [if_pos hl, if_pos (List.mem_cons_of_mem _ hl)]
    · rw [if_neg hl]
      by_cases hx : k = x
      · rw [if_pos (by rw [hx]; exact List.mem_cons_self), hx, get?_insert_self]
      · rw [if_neg (by simp [hx, hl]), get?_insert_of_ne _ _ hx]

/-- A router has a VN, it has a routing VRF exactly if it has a routing VN, and its routing VN is
none of its bridges. -/
structure LogicalRouter.Whole (r : LogicalRouter) : Prop where
  full : r.isEmpty = false
  paired : r.routingVn.isSome = r.routingVrf.isSome
  single : ∀ vn, r.routingVn = some vn → r.bridges.get? vn = none

theorem LogicalRouter.mem_vns {r : LogicalRouter} {vn : String} :
    vn ∈ r.routingVn.toList ++ r.bridges.keys ↔ r.Lists vn := by
  rw [List.mem_append, Option.mem_toList, ArrivalMap.mem_keys_iff,
    ← Option.isSome_iff_ne_none]
  rfl

namespace RouterMap

/-- The index leads from the VN to the router exactly if the router lists the VN. -/
def AgreesOn (m : RouterMap) (vn : String) (id : LogicalRouterId) : Prop :=
  m.ownerOf? vn = some id ↔ ∃ r, m.router? id = some r ∧ r.Lists vn

/-- The index and the routers tell the same of all VNs. -/
def Exact (m : RouterMap) : Prop := ∀ vn id, m.AgreesOn vn id

theorem router?_insert (m : RouterMap) (id : LogicalRouterId) (r : LogicalRouter)
    (id' : LogicalRouterId) :
    (m.insert id r).router? id' = if id' = id then some r else m.router? id' := by
  by_cases he : id' = id
  · rw [if_pos he, he]
    exact OrderedMap.get?_insert_self _ _ _
  · rw [if_neg he]
    exact OrderedMap.get?_insert_of_ne _ _ he

theorem ownerOf?_insert (m : RouterMap) (id : LogicalRouterId) (r : LogicalRouter) (vn : String) :
    (m.insert id r).ownerOf? vn = if r.Lists vn then some id else m.ownerOf? vn := by
  simp only [ownerOf?, insert]
  rw [OrderedMap.get?_foldl_insert]
  simp only [LogicalRouter.mem_vns]

/-- The router that has been written makes the index wrong on the VNs that it has given up and on
those that it has taken from others. -/
theorem Exact.agreesOn_insert {m : RouterMap} (h : m.Exact) (id : LogicalRouterId)
    (r : LogicalRouter) (vn : String) (id' : LogicalRouterId) :
    (m.insert id r).AgreesOn vn id' ↔ (m.ownerOf? vn = some id' → (r.Lists vn ↔ id' = id)) := by
  have hold : m.AgreesOn vn id' := h vn id'
  simp only [AgreesOn] at hold ⊢
  rw [ownerOf?_insert, router?_insert]
  by_cases he : id' = id
  · subst he
    by_cases hl : r.Lists vn
    · simp [hl]
    · simp [hl]
  · rw [if_neg he, ← hold]
    by_cases hl : r.Lists vn
    · simp [hl, he, Ne.symm he]
    · simp [hl, he]

theorem Exact.insert {m : RouterMap} (h : m.Exact) {id : LogicalRouterId} {r : LogicalRouter}
    (hr : ∀ vn id', m.ownerOf? vn = some id' → (r.Lists vn ↔ id' = id)) :
    (m.insert id r).Exact :=
  fun vn id' => (h.agreesOn_insert id r vn id').mpr (hr vn id')

/-- A router that has been written is there as it has been written. The index tells the truth of a
VN and a router if this VN was not theirs, or if it was and the new router lists it just if they are
one; and it is exact as a whole if this is so for all of them. -/
theorem insert_exact_iff (m : RouterMap) (h : m.Exact) (id : LogicalRouterId)
    (r : LogicalRouter) :
    (m.insert id r).router? id = some r ∧
      (∀ vn id', (m.insert id r).AgreesOn vn id' ↔
        (m.ownerOf? vn = some id' → (r.Lists vn ↔ id' = id))) ∧
      ((m.insert id r).Exact ↔
        (∀ vn, m.ownerOf? vn = some id → r.Lists vn) ∧
          ∀ vn id', r.Lists vn → m.ownerOf? vn = some id' → id' = id) := by
  refine ⟨by rw [router?_insert, if_pos rfl], h.agreesOn_insert id r, ?_⟩
  constructor
  · intro hnew
    have hr := fun vn id' => (h.agreesOn_insert id r vn id').mp (hnew vn id')
    exact ⟨fun vn ho => (hr vn id ho).mpr rfl, fun vn id' hl ho => (hr vn id' ho).mp hl⟩
  · rintro ⟨hkept, htaken⟩
    refine h.insert fun vn id' ho => ⟨fun hl => htaken vn id' hl ho, ?_⟩
    rintro rfl
    exact hkept vn ho

end RouterMap

namespace Sample

/-- The router with a second bridge. -/
def grown : LogicalRouter where
  routingVn := some "routing-vn"
  routingVrf := some "routing"
  bridges := ⟨[("bridge-vn", "bridge"), ("other-vn", "other")]⟩

/-- The router when another routing VN has come for the first one. -/
def replaced : LogicalRouter where
  routingVn := some "other-vn"
  routingVrf := some "other"
  bridges := ⟨[("bridge-vn", "bridge")]⟩

end Sample

namespace RouterMap

/-- A router may be written with one VN more. -/
theorem insert_exact_grown :
    Sample.routers.Exact ∧ (Sample.routers.insert Sample.router Sample.grown).Exact := by
  have h : Sample.routers.Exact := Sample.configured.coherent.owns
  have hknown : ∀ e ∈ Sample.routers.owners.entries,
      Sample.grown.Lists e.1 ∧ e.2 = Sample.router := by decide +kernel
  refine ⟨h, (insert_exact_iff _ h Sample.router Sample.grown).2.2.mpr ⟨fun vn ho => ?_, ?_⟩⟩
  · exact (hknown _ (Entries.mem_of_get? ho)).1
  · intro vn id' _ ho
    exact (hknown _ (Entries.mem_of_get? ho)).2

/-- A routing VN that another one has come for still leads to the router. -/
theorem not_insert_exact :
    ¬ ∀ m : RouterMap, m.Exact → ∀ (id : LogicalRouterId) (r : LogicalRouter), r.Whole →
      (m.insert id r).router? id = some r ∧ (m.insert id r).Exact := by
  intro h
  have hexact := (h Sample.routers Sample.configured.coherent.owns Sample.router Sample.replaced
    ⟨rfl, rfl, fun vn hvn => by cases hvn; rfl⟩).2
  obtain ⟨r, hr, hl⟩ := (hexact "routing-vn" Sample.router).mp (by decide +kernel)
  rw [router?_insert, if_pos rfl] at hr
  cases hr
  exact absurd hl (by decide +kernel)

end RouterMap

end VxlanRouting
