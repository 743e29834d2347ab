import VxlanRouting.Proofs.PathOrder
import VxlanRouting.Tables

/-!
Tables seen through their paths. A request rewrites the paths of one route and leaves all else as it
is: the paths of every other route, the names, VNs and identifiers of the VRFs, the interfaces and
the sessions. It is answered by a notification exactly if the paths of its route change.
-/
namespace VxlanRouting

namespace Route

theorem ext_parts {r r' : Route} (hd : r.dest = r'.dest) (hp : r.paths = r'.paths) : r = r' := by
  cases r; cases r'; simp_all

theorem paths_remove (r : Route) (p : Peer) : (r.remove p).paths = without p r.paths := rfl

/-- The paths with one of them added or changed. -/
def enter (x : Path) (l : List Path) : List Path :=
  if l.find? (fun y => y.peer = x.peer) = some x then l else place x (without x.peer l)

theorem paths_add (r : Route) (x : Path) : (r.add x).paths = enter x r.paths := by
  unfold add find? enter
  split <;> rfl

theorem mem_enter {x y : Path} {l : List Path} (h : y ∈ enter x l) : y = x ∨ y ∈ l := by
  simp only [enter] at h
  split at h
  · exact .inr h
  · exact (mem_place.mp h).imp id fun h => (List.mem_filter.mp h).1

theorem without_enter (x : Path) (l : List Path) :
    without x.peer (enter x l) = without x.peer l := by
  simp only [enter]
  split
  · rfl
  · rw [without_place rfl, without_without]

theorem find?_enter_self (x : Path) (l : List Path) :
    (enter x l).find? (fun y => y.peer = x.peer) = some x := by
  simp only [enter]
  split
  · assumption
  · exact find?_place_self fun y hy => peer_of_mem_without hy

theorem ranked_enter (x : Path) {l : List Path} (hl : Ranked l) : Ranked (enter x l) := by
  simp only [enter]
  split
  · exact hl
  · exact ranked_place (ranked_without hl) fun y hy => peer_of_mem_without hy

end Route

/-- A VRF without its routes. -/
def Vrf.bare (v : Vrf) : Vrf := { v with inet := ∅, evpn := ∅ }

namespace Vrf

@[simp] theorem name_bare (v : Vrf) : v.bare.name = v.name := rfl

@[simp] theorem bare_store (v : Vrf) (k : RouteKey) (r : Route) : (v.store k r).bare = v.bare := by
  simp only [store]
  split <;> cases k <;> rfl

/-- A route that is looked up is among all routes. -/
theorem mem_routes {v : Vrf} {k : RouteKey} {r : Route} (h : v.route? k = some r) :
    (k, r) ∈ v.routes := by
  simp only [routes]
  cases k with
  | inet p => exact List.mem_append_left _ (List.mem_map.mpr ⟨(p, r), Entries.mem_of_get? h, rfl⟩)
  | evpn k => exact List.mem_append_right _ (List.mem_map.mpr ⟨(k, r), Entries.mem_of_get? h, rfl⟩)

/-- The paths of a route, none if there is no such route. -/
def paths (v : Vrf) (k : RouteKey) : List Path := ((v.route? k).map (·.paths)).getD []

@[simp] theorem paths_routeOrNew (v : Vrf) (k : RouteKey) :
    (v.routeOrNew k).paths = v.paths k := by
  simp only [routeOrNew, paths]
  cases v.route? k <;> rfl

@[simp] theorem paths_store_self (v : Vrf) (k : RouteKey) (r : Route) :
    (v.store k r).paths k = r.paths := by
  simp only [store, paths]
  split
  · next h => simp [h]
  · simp

theorem paths_store_of_ne (v : Vrf) {k k' : RouteKey} (r : Route) (h : k' ≠ k) :
    (v.store k r).paths k' = v.paths k' := by
  simp only [paths]
  rw [route?_store_of_ne v r h]

end Vrf

/-- What a request makes of the paths of its route. -/
def Request.rewrite (q : Request) (t : InterfaceTable) (l : List Path) : List Path :=
  match q.action with
  | .withdraw => Route.without q.peer l
  | a =>
    match a.path? t q.peer with
    | none => l
    | some x => Route.enter x l

/-- The path that a request leaves to its peer, where that had the given one before. -/
def Request.outcome (q : Request) (t : InterfaceTable) (found : Option Path) : Option Path :=
  match q.action with
  | .withdraw => none
  | a => (a.path? t q.peer).or found

namespace Request

theorem rewrite_withdraw {q : Request} (h : q.action = .withdraw) (t : InterfaceTable)
    (l : List Path) : q.rewrite t l = Route.without q.peer l := by
  simp [rewrite, h]

theorem rewrite_unresolved {q : Request} (h : q.action ≠ .withdraw) {t : InterfaceTable}
    (hx : q.action.path? t q.peer = none) (l : List Path) : q.rewrite t l = l := by
  cases ha : q.action with
  | withdraw => exact absurd ha h
  | _ => simp only [rewrite, ha] at hx ⊢; rw [hx]

theorem rewrite_install {q : Request} {t : InterfaceTable} {x : Path}
    (hx : q.action.path? t q.peer = some x) (l : List Path) :
    q.rewrite t l = Route.enter x l := by
  cases ha : q.action with
  | withdraw => rw [ha] at hx; cases hx
  | _ => simp only [rewrite, ha] at hx ⊢; rw [hx]

theorem outcome_withdraw {q : Request} (h : q.action = .withdraw) (t : InterfaceTable)
    (found : Option Path) : q.outcome t found = none := by
  simp [outcome, h]

theorem outcome_install {q : Request} (h : q.action ≠ .withdraw) (t : InterfaceTable)
    (found : Option Path) : q.outcome t found = (q.action.path? t q.peer).or found := by
  cases ha : q.action with
  | withdraw => exact absurd ha h
  | _ => simp only [outcome, ha]

/-- A request withdraws, or asks for a path that does not resolve or does. -/
theorem action_cases (q : Request) (t : InterfaceTable) :
    q.action = .withdraw ∨ q.action ≠ .withdraw ∧ q.action.path? t q.peer = none ∨
      ∃ x, q.action ≠ .withdraw ∧ q.action.path? t q.peer = some x := by
  by_cases h : q.action = .withdraw
  · exact .inl h
  · cases hx : q.action.path? t q.peer with
    | none => exact .inr (.inl ⟨h, rfl⟩)
    | some x => exact .inr (.inr ⟨x, h, rfl⟩)

/-- The other peers keep their paths. -/
theorem without_rewrite (q : Request) (t : InterfaceTable) (l : List Path) :
    Route.without q.peer (q.rewrite t l) = Route.without q.peer l := by
  rcases q.action_cases t with h | ⟨h, hx⟩ | ⟨x, h, hx⟩
  · rw [rewrite_withdraw h, Route.without_without]
  · rw [rewrite_unresolved h hx]
  · rw [rewrite_install hx, ← Action.peer_of_path? hx, Route.without_enter]

/-- The peer has the outcome of the request. -/
theorem find?_rewrite_self (q : Request) (t : InterfaceTable) (l : List Path) :
    (q.rewrite t l).find? (fun y => y.peer = q.peer) =
      q.outcome t (l.find? fun y => y.peer = q.peer) := by
  rcases q.action_cases t with h | ⟨h, hx⟩ | ⟨x, h, hx⟩
  · rw [rewrite_withdraw h, outcome_withdraw h, Route.find?_without_self]
  · rw [rewrite_unresolved h hx, outcome_install h, hx, Option.none_or]
  · rw [rewrite_install hx, outcome_install h, hx, Option.some_or, ← Action.peer_of_path? hx,
      Route.find?_enter_self]

end Request

namespace Tables

/-- A VRF without its routes, if there is one of this name. -/
def bare? (db : Tables) (vrf : String) : Option Vrf := (db.vrfs.get? vrf).map Vrf.bare

/-- The paths of a route, none if there is no such route. -/
def paths (db : Tables) (vrf : String) (k : RouteKey) : List Path :=
  ((db.vrfs.get? vrf).map (·.paths k)).getD []

theorem paths_of_get? {db : Tables} {vrf : String} {v : Vrf} (h : db.vrfs.get? vrf = some v)
    (k : RouteKey) : db.paths vrf k = v.paths k := by
  simp [paths, h]

theorem paths_of_bare?_eq_none {db : Tables} {vrf : String} (h : db.bare? vrf = none)
    (k : RouteKey) : db.paths vrf k = [] := by
  simp only [bare?] at h
  simp only [paths]
  rw [Option.map_eq_none_iff.mp h]
  rfl

theorem get?_eq_none_iff_bare? {db : Tables} {vrf : String} :
    db.vrfs.get? vrf = none ↔ db.bare? vrf = none := by
  simp only [bare?]
  rw [Option.map_eq_none_iff]

theorem bare?_of_get? {db : Tables} {vrf : String} {v : Vrf} (h : db.vrfs.get? vrf = some v) :
    db.bare? vrf = some v.bare := by
  simp [bare?, h]

/-- A path is on a route of a VRF. -/
theorem exists_route_of_mem_paths {db : Tables} {vrf : String} {k : RouteKey} {x : Path}
    (h : x ∈ db.paths vrf k) : ∃ v r, db.vrfs.get? vrf = some v ∧ v ∈ db.vrfs.vrfs ∧
      v.route? k = some r ∧ x ∈ r.paths := by
  simp only [paths] at h
  cases hv : db.vrfs.get? vrf with
  | none =>
    rw [hv] at h
    cases h
  | some v =>
    rw [hv, Option.map_some, Option.getD_some, Vrf.paths] at h
    cases hr : v.route? k with
    | none =>
      rw [hr] at h
      cases h
    | some r =>
      rw [hr] at h
      exact ⟨v, r, rfl, List.mem_map.mpr ⟨(vrf, v), Entries.mem_of_get? hv, rfl⟩, hr, h⟩

theorem path?_eq_find? (db : Tables) (vrf : String) (k : RouteKey) (p : Peer) :
    db.path? vrf k p = (db.paths vrf k).find? fun x => x.peer = p := by
  simp only [path?, route?, paths, Vrf.paths]
  cases db.vrfs.get? vrf with
  | none => rfl
  | some v =>
    cases hr : v.route? k with
    | none => simp [hr]
    | some r => simp [hr, Route.find?]

/-- The path of a peer is one of the route's, and is the peer's. -/
theorem mem_of_path? {db : Tables} {vrf : String} {k : RouteKey} {p : Peer} {x : Path}
    (h : db.path? vrf k p = some x) : x ∈ db.paths vrf k ∧ x.peer = p := by
  rw [path?_eq_find?] at h
  exact ⟨List.mem_of_find?_eq_some h, by simpa using List.find?_some h⟩

/-- The tables that an update leads to, by its effect on a list of paths. -/
structure Updates (db db' : Tables) (vrf : String) (k : RouteKey) (l : List Path) : Prop where
  self : db.bare? vrf ≠ none → db'.paths vrf k = l
  other : ∀ vrf' k', (vrf', k') ≠ (vrf, k) → db'.paths vrf' k' = db.paths vrf' k'
  bare : ∀ name, db'.bare? name = db.bare? name
  interfaces : db'.interfaces = db.interfaces
  sessions : db'.sessions = db.sessions

theorem Updates.refl {db : Tables} {vrf : String} {k : RouteKey} {l : List Path}
    (h : db.bare? vrf ≠ none → db.paths vrf k = l) : db.Updates db vrf k l :=
  ⟨h, fun _ _ _ => rfl, fun _ => rfl, rfl, rfl⟩

theorem Updates.paths_missing {db db' : Tables} {vrf : String} {k : RouteKey} {l : List Path}
    (h : db.Updates db' vrf k l) (hv : db.bare? vrf = none) (k' : RouteKey) :
    db'.paths vrf k' = db.paths vrf k' := by
  rw [paths_of_bare?_eq_none hv, paths_of_bare?_eq_none (by rw [h.bare, hv])]

theorem update_updates (db : Tables) (vrf : String) (k : RouteKey) {f : Route → Route}
    {g : List Path → List Path} (hf : ∀ r, (f r).paths = g r.paths) :
    db.Updates (db.update vrf k f).1 vrf k (g (db.paths vrf k)) := by
  simp only [update]
  cases hv : db.vrfs.get? vrf with
  | none =>
    exact Updates.refl fun h => absurd (get?_eq_none_iff_bare?.mp hv) h
  | some v =>
    have hp : db.paths vrf k = (v.routeOrNew k).paths := by
      rw [paths_of_get? hv, Vrf.paths_routeOrNew]
    dsimp only
    split
    · next he =>
      refine Updates.refl fun _ => ?_
      rw [hp, ← hf, he]
    · refine ⟨fun _ => ?_, fun vrf' k' hne => ?_, fun name => ?_, rfl, rfl⟩
      · have hg : (db.vrfs.modify vrf (·.store k (f (v.routeOrNew k)))).get? vrf =
            some (v.store k (f (v.routeOrNew k))) := by
          rw [VrfTable.get?_modify_self, hv]
          rfl
        rw [paths_of_get? hg, Vrf.paths_store_self, hf, hp]
      · by_cases hn : vrf' = vrf
        · subst hn
          have hk : k' ≠ k := fun e => hne (by rw [e])
          have hg : (db.vrfs.modify vrf' (·.store k (f (v.routeOrNew k)))).get? vrf' =
              some (v.store k (f (v.routeOrNew k))) := by
            rw [VrfTable.get?_modify_self, hv]
            rfl
          rw [paths_of_get? hg, Vrf.paths_store_of_ne v _ hk, paths_of_get? hv]
        · unfold paths
          dsimp only
          rw [VrfTable.get?_modify_of_ne _ _ hn]
      · unfold bare?
        dsimp only
        by_cases hn : name = vrf
        · subst hn
          rw [VrfTable.get?_modify_self, hv]
          simp
        · rw [VrfTable.get?_modify_of_ne _ _ hn]

/-- An update is answered exactly if the VRF is there and the paths change. -/
theorem notification_update (db : Tables) (vrf : String) (k : RouteKey) {f : Route → Route}
    {g : List Path → List Path} (hd : ∀ r, (f r).dest = r.dest)
    (hf : ∀ r, (f r).paths = g r.paths) :
    (db.update vrf k f).2 =
      if db.bare? vrf = none ∨ g (db.paths vrf k) = db.paths vrf k then none
      else some ⟨vrf, k⟩ := by
  simp only [update]
  cases hv : db.vrfs.get? vrf with
  | none => simp [get?_eq_none_iff_bare?.mp hv]
  | some v =>
    have hb : db.bare? vrf ≠ none := by simp [bare?_of_get? hv]
    have hp : db.paths vrf k = (v.routeOrNew k).paths := by
      rw [paths_of_get? hv, Vrf.paths_routeOrNew]
    have hr : f (v.routeOrNew k) = v.routeOrNew k ↔ g (db.paths vrf k) = db.paths vrf k := by
      rw [hp, ← hf]
      constructor
      · intro h
        rw [h]
      · intro h
        exact Route.ext_parts (hd _) h
    by_cases h : g (db.paths vrf k) = db.paths vrf k
    · simp [hr.mpr h, h]
    · simp [hb, h, hr]

theorem apply_withdraw (db : Tables) {q : Request} (h : q.action = .withdraw) :
    db.apply q = db.update q.vrf q.key (·.remove q.peer) := by
  simp [apply, h]

theorem apply_unresolved (db : Tables) {q : Request} (h : q.action ≠ .withdraw)
    (hx : q.action.path? db.interfaces q.peer = none) : db.apply q = (db, none) := by
  cases ha : q.action with
  | withdraw => exact absurd ha h
  | _ => simp only [apply, ha] at hx ⊢; rw [hx]

theorem apply_install (db : Tables) {q : Request} {x : Path}
    (hx : q.action.path? db.interfaces q.peer = some x) :
    db.apply q = db.update q.vrf q.key (·.add x) := by
  cases ha : q.action with
  | withdraw => rw [ha] at hx; cases hx
  | _ => simp only [apply, ha] at hx ⊢; rw [hx]

/-- What a request does to the tables. -/
theorem apply_updates (db : Tables) (q : Request) :
    db.Updates (db.apply q).1 q.vrf q.key (q.rewrite db.interfaces (db.paths q.vrf q.key)) := by
  rcases q.action_cases db.interfaces with h | ⟨h, hx⟩ | ⟨x, h, hx⟩
  · rw [apply_withdraw db h, Request.rewrite_withdraw h]
    exact update_updates db q.vrf q.key (Route.paths_remove · q.peer)
  · rw [apply_unresolved db h hx, Request.rewrite_unresolved h hx]
    exact Updates.refl fun _ => rfl
  · rw [apply_install db hx, Request.rewrite_install hx]
    exact update_updates db q.vrf q.key (Route.paths_add · x)

/-- A request is answered exactly if its VRF is there and the paths of its route change. -/
theorem notification_apply (db : Tables) (q : Request) :
    (db.apply q).2 =
      if db.bare? q.vrf = none ∨
        q.rewrite db.interfaces (db.paths q.vrf q.key) = db.paths q.vrf q.key then none
      else some ⟨q.vrf, q.key⟩ := by
  rcases q.action_cases db.interfaces with h | ⟨h, hx⟩ | ⟨x, h, hx⟩
  · rw [apply_withdraw db h, Request.rewrite_withdraw h]
    exact notification_update db q.vrf q.key (fun r => rfl) (Route.paths_remove · q.peer)
  · rw [apply_unresolved db h hx, Request.rewrite_unresolved h hx]
    simp
  · rw [apply_install db hx, Request.rewrite_install hx]
    exact notification_update db q.vrf q.key (Route.dest_add · x) (Route.paths_add · x)

@[simp] theorem interfaces_apply (db : Tables) (q : Request) :
    (db.apply q).1.interfaces = db.interfaces :=
  (apply_updates db q).interfaces

@[simp] theorem bare?_apply (db : Tables) (q : Request) (name : String) :
    (db.apply q).1.bare? name = db.bare? name :=
  (apply_updates db q).bare name

theorem paths_apply_of_ne (db : Tables) (q : Request) {vrf : String} {k : RouteKey}
    (h : (vrf, k) ≠ (q.vrf, q.key)) : (db.apply q).1.paths vrf k = db.paths vrf k :=
  (apply_updates db q).other vrf k h

theorem paths_apply_self (db : Tables) (q : Request) (h : db.bare? q.vrf ≠ none) :
    (db.apply q).1.paths q.vrf q.key = q.rewrite db.interfaces (db.paths q.vrf q.key) :=
  (apply_updates db q).self h

/-- A request brings no path but the one that it installs. -/
theorem mem_paths_apply {db : Tables} {q : Request} {vrf : String} {k : RouteKey} {x : Path}
    (h : x ∈ (db.apply q).1.paths vrf k) :
    x ∈ db.paths vrf k ∨ q.action.path? db.interfaces q.peer = some x := by
  by_cases hk : (vrf, k) = (q.vrf, q.key)
  · obtain ⟨rfl, rfl⟩ := Prod.mk.inj hk
    by_cases hb : db.bare? q.vrf = none
    · rw [paths_of_bare?_eq_none (by rw [bare?_apply, hb])] at h
      cases h
    · rw [paths_apply_self db q hb] at h
      rcases q.action_cases db.interfaces with hw | ⟨hw, hn⟩ | ⟨y, _, hy⟩
      · rw [Request.rewrite_withdraw hw] at h
        exact .inl (List.mem_filter.mp h).1
      · rw [Request.rewrite_unresolved hw hn] at h
        exact .inl h
      · rw [Request.rewrite_install hy] at h
        rcases Route.mem_enter h with rfl | h
        · exact .inr hy
        · exact .inl h
  · rw [paths_apply_of_ne db q hk] at h
    exact .inl h

/-- Without a notification the tables are what they were. -/
theorem apply_of_unnoticed {db : Tables} {q : Request} (h : (db.apply q).2 = none) :
    (db.apply q).1 = db := by
  have hu : ∀ f, (db.update q.vrf q.key f).2 = none → (db.update q.vrf q.key f).1 = db := by
    intro f hf
    unfold update at hf ⊢
    split at hf
    · rfl
    · dsimp only at hf ⊢
      split at hf
      · next he => rw [if_pos he]
      · cases hf
  rcases q.action_cases db.interfaces with ha | ⟨ha, hx⟩ | ⟨x, _, hx⟩
  · rw [apply_withdraw db ha] at h ⊢
    exact hu _ h
  · rw [apply_unresolved db ha hx]
  · rw [apply_install db hx] at h ⊢
    exact hu _ h

/-- The other peers' paths on the route of a request, and all paths elsewhere, stay. -/
theorem without_paths_apply (db : Tables) (q : Request) (vrf : String) (k : RouteKey) :
    Route.without q.peer ((db.apply q).1.paths vrf k) = Route.without q.peer (db.paths vrf k) := by
  by_cases hk : (vrf, k) = (q.vrf, q.key)
  · obtain ⟨rfl, rfl⟩ := Prod.mk.inj hk
    by_cases hn : db.bare? q.vrf = none
    · rw [(apply_updates db q).paths_missing hn q.key]
    · rw [paths_apply_self db q hn, Request.without_rewrite]
  · rw [paths_apply_of_ne db q hk]

/-- A search that skips the paths of the request's peer finds what it found before. -/
theorem find?_paths_apply (db : Tables) (q : Request) {f : Path → Bool}
    (hf : ∀ x, x.peer = q.peer → f x = false) (vrf : String) (k : RouteKey) :
    ((db.apply q).1.paths vrf k).find? f = (db.paths vrf k).find? f := by
  rw [← Route.find?_without hf, without_paths_apply, Route.find?_without hf]

theorem findSome?_paths_apply {α : Type} (db : Tables) (q : Request) {f : Path → Option α}
    (hf : ∀ x, x.peer = q.peer → f x = none) (vrf : String) (k : RouteKey) :
    ((db.apply q).1.paths vrf k).findSome? f = (db.paths vrf k).findSome? f := by
  rw [← Route.findSome?_without hf, without_paths_apply, Route.findSome?_without hf]

theorem path?_apply_self (db : Tables) (q : Request) (h : db.bare? q.vrf ≠ none) :
    (db.apply q).1.path? q.vrf q.key q.peer =
      q.outcome db.interfaces (db.path? q.vrf q.key q.peer) := by
  rw [path?_eq_find?, path?_eq_find?, paths_apply_self db q h, Request.find?_rewrite_self]

theorem path?_apply_of_ne (db : Tables) (q : Request) {vrf : String} {k : RouteKey} {p : Peer}
    (h : (vrf, k, p) ≠ (q.vrf, q.key, q.peer)) :
    (db.apply q).1.path? vrf k p = db.path? vrf k p := by
  rw [path?_eq_find?, path?_eq_find?]
  by_cases hk : (vrf, k) = (q.vrf, q.key)
  · obtain ⟨rfl, rfl⟩ := Prod.mk.inj hk
    refine find?_paths_apply db q (fun x hx => ?_) q.vrf q.key
    have hp : q.peer ≠ p := fun e => h (by rw [e])
    simpa [hx] using hp
  · rw [paths_apply_of_ne db q hk]

/-- The tables after all requests of a list have been applied. -/
def applyAll (db : Tables) (l : List Request) : Tables := l.foldl (fun db q => (db.apply q).1) db

@[simp] theorem applyAll_nil (db : Tables) : db.applyAll [] = db := rfl

@[simp] theorem applyAll_cons (db : Tables) (q : Request) (l : List Request) :
    db.applyAll (q :: l) = (db.apply q).1.applyAll l := rfl

theorem applyAll_append (db : Tables) (l l' : List Request) :
    db.applyAll (l ++ l') = (db.applyAll l).applyAll l' :=
  List.foldl_append

@[simp] theorem bare?_applyAll (db : Tables) (l : List Request) (vrf : String) :
    (db.applyAll l).bare? vrf = db.bare? vrf := by
  induction l generalizing db with
  | nil => rfl
  | cons q l ih => rw [applyAll_cons, ih, bare?_apply]

@[simp] theorem interfaces_applyAll (db : Tables) (l : List Request) :
    (db.applyAll l).interfaces = db.interfaces := by
  induction l generalizing db with
  | nil => rfl
  | cons q l ih => rw [applyAll_cons, ih, interfaces_apply]

/-- Requests for other paths do not matter to a path. -/
theorem path?_applyAll_of_ne (db : Tables) {l : List Request} {vrf : String} {k : RouteKey}
    {p : Peer} (h : ∀ q ∈ l, (vrf, k, p) ≠ (q.vrf, q.key, q.peer)) :
    (db.applyAll l).path? vrf k p = db.path? vrf k p := by
  induction l generalizing db with
  | nil => rfl
  | cons q l ih =>
    rw [applyAll_cons, ih _ fun r hr => h r (List.mem_cons_of_mem _ hr),
      path?_apply_of_ne db q (h q List.mem_cons_self)]

/-- Refreshing resolves the paths of every route anew. -/
theorem paths_refresh (db : Tables) (name vrf : String) (k : RouteKey) :
    (db.refresh name).1.paths vrf k = (db.paths vrf k).map (·.refresh db.interfaces name) := by
  unfold refresh paths VrfTable.get?
  dsimp only
  rw [OrderedMap.get?_mapValues]
  cases db.vrfs.byName.get? vrf with
  | none => rfl
  | some v =>
    simp only [Option.map_some, Option.getD_some, Vrf.paths, Vrf.route?_mapRoutes]
    cases v.route? k <;> rfl

@[simp] theorem bare?_refresh (db : Tables) (name vrf : String) :
    (db.refresh name).1.bare? vrf = db.bare? vrf := by
  unfold refresh bare? VrfTable.get?
  dsimp only
  rw [OrderedMap.get?_mapValues, Option.map_map]
  cases db.vrfs.byName.get? vrf <;> rfl

end Tables

end VxlanRouting
