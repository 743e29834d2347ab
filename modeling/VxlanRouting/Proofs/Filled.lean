import VxlanRouting.Proofs.MapOrder
import VxlanRouting.Proofs.Paths

/-!
Tables that requests have filled. Whatever becomes of VRFs, interfaces and sessions meanwhile, a VRF
stands under its own name, a route has the prefix of its key and a path at least, the Inet tables
are in order of prefix, and the paths of a route are ranked. So a route is no more than its paths,
and the search for a prefix ends at the route that its canonical form is the key of.
-/
namespace VxlanRouting

/-- The order and the routes of a VRF are as requests leave them. -/
structure Vrf.Proper (v : Vrf) : Prop where
  sorted : v.inet.Sorted
  dest : ∀ k r, v.route? k = some r → r.dest = k.dest
  filled : ∀ k r, v.route? k = some r → r.paths ≠ []
  ranked : ∀ k r, v.route? k = some r → Route.Ranked r.paths

namespace Vrf

theorem proper_empty (name : String) (vn : Option String) (vni : Option Vni) :
    Proper { name, vn, vni } := by
  have hr : ∀ k, route? { name, vn, vni } k = none := by
    intro k
    cases k <;> rfl
  refine ⟨OrderedMap.sorted_empty, ?_, ?_, ?_⟩ <;> intro k r h <;> rw [hr] at h <;> cases h

theorem Proper.withVn {v : Vrf} (h : v.Proper) (vn : Option String) :
    Proper { v with vn } := by
  have hr : ∀ k, route? { v with vn } k = v.route? k := by
    intro k
    cases k <;> rfl
  refine ⟨h.sorted, ?_, ?_, ?_⟩ <;> intro k r hk <;> rw [hr] at hk
  · exact h.dest k r hk
  · exact h.filled k r hk
  · exact h.ranked k r hk

theorem Proper.ranked_paths {v : Vrf} (h : v.Proper) (k : RouteKey) :
    Route.Ranked (v.paths k) := by
  simp only [paths]
  cases hr : v.route? k with
  | none => exact Route.ranked_nil
  | some r => exact h.ranked k r hr

/-- A route is its key with its paths. -/
theorem Proper.route?_eq {v : Vrf} (h : v.Proper) (k : RouteKey) :
    v.route? k = if v.paths k = [] then none else some ⟨k.dest, v.paths k⟩ := by
  unfold paths
  cases hr : v.route? k with
  | none => rfl
  | some r =>
    rw [Option.map_some, Option.getD_some, if_neg (h.filled k r hr)]
    rw [← h.dest k r hr]

theorem Proper.store {v : Vrf} (h : v.Proper) {k : RouteKey} {r : Route} (hd : r.dest = k.dest)
    (hr : Route.Ranked r.paths) : (v.store k r).Proper := by
  have hs : (v.store k r).inet.Sorted := by
    simp only [Vrf.store]
    split <;> cases k
    · exact OrderedMap.sorted_erase h.sorted _
    · exact h.sorted
    · exact OrderedMap.sorted_insert h.sorted _ _
    · exact h.sorted
  have hk : ∀ k' r', (v.store k r).route? k' = some r' →
      (k' = k ∧ r' = r ∧ r.paths ≠ []) ∨ v.route? k' = some r' := by
    intro k' r' h'
    by_cases e : k' = k
    · subst e
      simp only [Vrf.store] at h'
      split at h'
      · rw [route?_drop_self] at h'
        cases h'
      · next hne =>
        rw [route?_put_self] at h'
        cases h'
        exact .inl ⟨rfl, rfl, hne⟩
    · rw [route?_store_of_ne v r e] at h'
      exact .inr h'
  refine ⟨hs, fun k' r' h' => ?_, fun k' r' h' => ?_, fun k' r' h' => ?_⟩
  · rcases hk k' r' h' with ⟨rfl, rfl, _⟩ | h'
    · exact hd
    · exact h.dest k' r' h'
  · rcases hk k' r' h' with ⟨rfl, rfl, hne⟩ | h'
    · exact hne
    · exact h.filled k' r' h'
  · rcases hk k' r' h' with ⟨rfl, rfl, _⟩ | h'
    · exact hr
    · exact h.ranked k' r' h'

theorem Proper.mapRoutes {v : Vrf} (h : v.Proper) {f : Route → Route}
    {g : Path → Path} (hf : ∀ r, f r = { r with paths := r.paths.map g })
    (hp : ∀ x, (g x).peer = x.peer) (ha : ∀ x, (g x).attrs = x.attrs) :
    (v.mapRoutes f).Proper := by
  refine ⟨OrderedMap.sorted_mapValues h.sorted _, ?_, ?_, ?_⟩ <;> intro k r hr <;>
    rw [route?_mapRoutes] at hr <;> obtain ⟨r₀, hr₀, rfl⟩ := Option.map_eq_some_iff.mp hr <;>
    rw [hf]
  · exact h.dest k r₀ hr₀
  · intro he
    exact h.filled k r₀ hr₀ (List.map_eq_nil_iff.mp he)
  · exact Route.ranked_map hp ha (h.ranked k r₀ hr₀)

end Vrf

theorem Path.peer_refresh (t : InterfaceTable) (name : String) (x : Path) :
    (x.refresh t name).peer = x.peer := by
  simp only [refresh]
  split
  · split <;> rfl
  · rfl

theorem Path.attrs_refresh (t : InterfaceTable) (name : String) (x : Path) :
    (x.refresh t name).attrs = x.attrs := by
  simp only [refresh]
  split
  · split <;> rfl
  · rfl

/-- A VRF that is added is empty and has no VN. -/
theorem VrfTable.byName_of_add {t t' : VrfTable} {name : String} {vni : Option Nat}
    (h : t.add name vni = .ok t') :
    ∃ v : Option Vni, t'.byName = t.byName.insert name { name, vni := v } := by
  simp only [add] at h
  split at h
  · cases h
  · split at h
    · cases h
    · split at h <;> cases h
      exact ⟨_, rfl⟩
  · split at h <;> cases h
    exact ⟨none, rfl⟩

theorem VrfTable.byName_of_remove {t t' : VrfTable} {name : String} {v : Vrf}
    (h : t.remove name = .ok (v, t')) : t'.byName = t.byName.erase name := by
  simp only [remove] at h
  split at h <;> cases h
  rfl

theorem VrfTable.get?_of_insert {t t' : VrfTable} {name : String} {v : Vrf}
    (h : t'.byName = t.byName.insert name v) (n : String) :
    t'.get? n = if n = name then some v else t.get? n := by
  simp only [get?]
  rw [h]
  split
  · next hn => rw [hn, OrderedMap.get?_insert_self]
  · next hn => rw [OrderedMap.get?_insert_of_ne _ _ hn]

theorem VrfTable.get?_of_erase {t t' : VrfTable} {name : String}
    (h : t'.byName = t.byName.erase name) (n : String) :
    t'.get? n = if n = name then none else t.get? n := by
  simp only [get?]
  rw [h]
  split
  · next hn => rw [hn, OrderedMap.get?_erase_self]
  · next hn => rw [OrderedMap.get?_erase_of_ne _ hn]

namespace Tables

/-- Gives every VRF a VN, or none. -/
def assignVns (db : Tables) (f : String → Vrf → Option String) : Tables :=
  { db with vrfs :=
    { db.vrfs with byName := db.vrfs.byName.mapValues fun name v => { v with vn := f name v } } }

/-- Tables whose routes come from requests and from resolving paths anew, while VRFs come and go,
VRFs change their VNs, and interfaces and sessions are whatever they are. -/
inductive Filled : Tables → Prop
  | empty : Filled {}
  | addVrf {db : Tables} {vrfs : VrfTable} (name : String) (vni : Option Nat) :
      Filled db → db.vrfs.add name vni = .ok vrfs → Filled { db with vrfs }
  | removeVrf {db : Tables} {v : Vrf} {vrfs : VrfTable} (name : String) :
      Filled db → db.vrfs.remove name = .ok (v, vrfs) → Filled { db with vrfs }
  | assignVns {db : Tables} (f : String → Vrf → Option String) :
      Filled db → Filled (db.assignVns f)
  | setInterfaces {db : Tables} (interfaces : InterfaceTable) :
      Filled db → Filled { db with interfaces }
  | setSessions {db : Tables} (sessions : Sessions) : Filled db → Filled { db with sessions }
  | apply {db : Tables} (q : Request) : Filled db → Filled (db.apply q).1
  | refresh {db : Tables} (name : String) : Filled db → Filled (db.refresh name).1

/-- Every VRF stands under its own name and is as requests leave it. -/
structure Proper (db : Tables) : Prop where
  named : ∀ name v, db.vrfs.get? name = some v → v.name = name
  vrf : ∀ name v, db.vrfs.get? name = some v → v.Proper

theorem Proper.ranked {db : Tables} (h : db.Proper) (vrf : String) (k : RouteKey) :
    Route.Ranked (db.paths vrf k) := by
  simp only [paths]
  cases hv : db.vrfs.get? vrf with
  | none => exact Route.ranked_nil
  | some v => exact (h.vrf vrf v hv).ranked_paths k

theorem Proper.route?_eq {db : Tables} (h : db.Proper) (vrf : String) (k : RouteKey) :
    db.route? vrf k = if db.paths vrf k = [] then none else some ⟨k.dest, db.paths vrf k⟩ := by
  unfold route? paths
  cases hv : db.vrfs.get? vrf with
  | none => rfl
  | some v => exact (h.vrf vrf v hv).route?_eq k

theorem Proper.name_bare? {db : Tables} (h : db.Proper) {vrf : String} {b : Vrf}
    (hb : db.bare? vrf = some b) : b.name = vrf := by
  obtain ⟨v, hv, rfl⟩ := Option.map_eq_some_iff.mp hb
  exact h.named vrf v hv

/-- The tables stay proper if every VRF comes from a proper one of the same name. -/
theorem Proper.of_vrfs {db db' : Tables} (h : db.Proper)
    (hv : ∀ name v', db'.vrfs.get? name = some v' →
      (v'.name = name ∧ v'.Proper) ∨
        ∃ v, db.vrfs.get? name = some v ∧ v'.name = v.name ∧ (v.Proper → v'.Proper)) :
    db'.Proper := by
  refine ⟨fun name v' h' => ?_, fun name v' h' => ?_⟩
  · rcases hv name v' h' with ⟨hn, _⟩ | ⟨v, hv, hn, _⟩
    · exact hn
    · exact hn.trans (h.named name v hv)
  · rcases hv name v' h' with ⟨_, hp⟩ | ⟨v, hv, _, hp⟩
    · exact hp
    · exact hp (h.vrf name v hv)

theorem Proper.addVrf {db : Tables} (h : db.Proper) {name : String} {vni : Option Nat}
    {vrfs : VrfTable} (ha : db.vrfs.add name vni = .ok vrfs) : Proper { db with vrfs } := by
  obtain ⟨v, hv⟩ := VrfTable.byName_of_add ha
  refine h.of_vrfs fun n v' h' => ?_
  dsimp only at h'
  rw [VrfTable.get?_of_insert hv] at h'
  split at h'
  · next hn =>
    cases h'
    exact .inl ⟨hn.symm, Vrf.proper_empty name none v⟩
  · exact .inr ⟨v', h', rfl, id⟩

theorem Proper.removeVrf {db : Tables} (h : db.Proper) {name : String} {v : Vrf}
    {vrfs : VrfTable} (hr : db.vrfs.remove name = .ok (v, vrfs)) : Proper { db with vrfs } := by
  refine h.of_vrfs fun n v' h' => ?_
  dsimp only at h'
  rw [VrfTable.get?_of_erase (VrfTable.byName_of_remove hr)] at h'
  split at h'
  · cases h'
  · exact .inr ⟨v', h', rfl, id⟩

theorem get?_assignVns (db : Tables) (f : String → Vrf → Option String) (name : String) :
    (db.assignVns f).vrfs.get? name =
      (db.vrfs.get? name).map fun v => { v with vn := f name v } := by
  simp only [assignVns, VrfTable.get?]
  rw [OrderedMap.get?_mapValues]

theorem Proper.assignVns {db : Tables} (h : db.Proper) (f : String → Vrf → Option String) :
    (db.assignVns f).Proper := by
  refine h.of_vrfs fun n v' h' => ?_
  rw [get?_assignVns] at h'
  obtain ⟨v, hv, rfl⟩ := Option.map_eq_some_iff.mp h'
  exact .inr ⟨v, hv, rfl, fun hp => hp.withVn _⟩

theorem Proper.update {db : Tables} (h : db.Proper) (vrf : String) (k : RouteKey)
    {f : Route → Route} (hd : ∀ r, (f r).dest = r.dest)
    (hf : ∀ r, Route.Ranked r.paths → Route.Ranked (f r).paths) :
    (db.update vrf k f).1.Proper := by
  unfold Tables.update
  split
  · exact h
  · next v hv =>
    dsimp only
    split
    · exact h
    · refine h.of_vrfs fun n v' h' => ?_
      dsimp only at h'
      by_cases hn : n = vrf
      · subst hn
        rw [VrfTable.get?_modify_self, hv] at h'
        cases h'
        have hdest : (v.routeOrNew k).dest = k.dest := by
          simp only [Vrf.routeOrNew]
          cases hr : v.route? k with
          | none => rfl
          | some r => exact (h.vrf n v hv).dest k r hr
        have hrank : Route.Ranked (v.routeOrNew k).paths := by
          rw [Vrf.paths_routeOrNew]
          exact (h.vrf n v hv).ranked_paths k
        have hname : (v.store k (f (v.routeOrNew k))).name = v.name := by
          rw [← Vrf.name_bare, Vrf.bare_store, Vrf.name_bare]
        refine .inr ⟨v, hv, hname, fun hp => hp.store ((hd _).trans hdest) (hf _ hrank)⟩
      · rw [VrfTable.get?_modify_of_ne _ _ hn] at h'
        exact .inr ⟨v', h', rfl, id⟩

theorem Proper.apply {db : Tables} (h : db.Proper) (q : Request) : (db.apply q).1.Proper := by
  rcases q.action_cases db.interfaces with ha | ⟨ha, hx⟩ | ⟨x, _, hx⟩
  · rw [apply_withdraw db ha]
    exact h.update _ _ (fun r => rfl) fun r hr => Route.ranked_without hr
  · rw [apply_unresolved db ha hx]
    exact h
  · rw [apply_install db hx]
    refine h.update _ _ (Route.dest_add · x) fun r hr => ?_
    rw [Route.paths_add]
    exact Route.ranked_enter x hr

theorem Proper.refresh {db : Tables} (h : db.Proper) (name : String) :
    (db.refresh name).1.Proper := by
  refine h.of_vrfs fun n v' h' => ?_
  unfold Tables.refresh VrfTable.get? at h'
  dsimp only at h'
  rw [OrderedMap.get?_mapValues] at h'
  obtain ⟨v, hv, rfl⟩ := Option.map_eq_some_iff.mp h'
  refine .inr ⟨v, hv, rfl, fun hp => ?_⟩
  exact hp.mapRoutes (fun r => rfl) (Path.peer_refresh _ _) (Path.attrs_refresh _ _)

/-- Tables that requests have filled are proper. -/
theorem Filled.proper {db : Tables} (h : db.Filled) : db.Proper := by
  induction h with
  | empty => exact ⟨fun name v h => (by cases h), fun name v h => (by cases h)⟩
  | addVrf name vni _ ha ih => exact ih.addVrf ha
  | removeVrf name _ hr ih => exact ih.removeVrf hr
  | assignVns f _ ih => exact ih.assignVns f
  | setInterfaces interfaces _ ih => exact ⟨ih.named, ih.vrf⟩
  | setSessions sessions _ ih => exact ⟨ih.named, ih.vrf⟩
  | apply q _ ih => exact ih.apply q
  | refresh name _ ih => exact ih.refresh name

end Tables

end VxlanRouting
