import VxlanRouting.Proofs.Change

/-!
The tables as a map from VRF, route key and peer to path. No route is stored without paths or under
a key of another prefix, and no peer has two paths on one route. A request changes the path of its
peer on its route and nothing else, and it is answered exactly if this path is not what it was.
-/
namespace VxlanRouting

theorem Route.Ranked.nodup_peers {l : List Path} (h : Ranked l) : (l.map (·.peer)).Nodup :=
  List.pairwise_map.mpr (h.imp fun h => h.2)

theorem Route.find?_of_mem {l : List Path} (hn : (l.map (·.peer)).Nodup) {x : Path} (hx : x ∈ l) :
    (l.find? fun y => y.peer = x.peer) = some x := by
  induction l with
  | nil => cases hx
  | cons y l ih =>
    obtain ⟨hy, hl⟩ := List.nodup_cons.mp hn
    rcases List.mem_cons.mp hx with rfl | hx
    · exact List.find?_cons_of_pos (by simp)
    · have hne : y.peer ≠ x.peer := fun he => hy (List.mem_map.mpr ⟨x, hx, he.symm⟩)
      rw [List.find?_cons_of_neg (by simpa using hne)]
      exact ih hl hx

theorem Vrf.nodup_evpn_store {v : Vrf} (h : v.evpn.keys.Nodup) (k : RouteKey) (r : Route) :
    (v.store k r).evpn.keys.Nodup := by
  simp only [store]
  split <;> cases k
  · exact h
  · exact ArrivalMap.nodup_keys_erase h _
  · exact h
  · exact ArrivalMap.nodup_keys_insert h _ _

theorem Vrf.nodup_evpn_mapRoutes {v : Vrf} (h : v.evpn.keys.Nodup) (f : Route → Route) :
    (v.mapRoutes f).evpn.keys.Nodup := by
  show ((Entries.mapValues (fun _ => f) v.evpn.entries).map (·.1)).Nodup
  rw [Entries.map_fst_mapValues]
  exact h

namespace Tables

/-- No VRF is there twice, and no EVPN key is twice in a VRF. -/
structure Keyed (db : Tables) : Prop where
  vrfs : db.vrfs.byName.Sorted
  evpn : ∀ name v, db.vrfs.get? name = some v → v.evpn.keys.Nodup

theorem Keyed.mapValues {db : Tables} (h : db.Keyed) {f : String → Vrf → Vrf}
    (hf : ∀ name v, v.evpn.keys.Nodup → (f name v).evpn.keys.Nodup) :
    Keyed { db with vrfs := { db.vrfs with byName := db.vrfs.byName.mapValues f } } := by
  refine ⟨OrderedMap.sorted_mapValues h.vrfs f, fun name v hv => ?_⟩
  simp only [VrfTable.get?] at hv
  rw [OrderedMap.get?_mapValues] at hv
  obtain ⟨v₀, hv₀, rfl⟩ := Option.map_eq_some_iff.mp hv
  exact hf name v₀ (h.evpn name v₀ hv₀)

theorem Keyed.addVrf {db : Tables} (h : db.Keyed) {name : String} {vni : Option Nat}
    {vrfs : VrfTable} (ha : db.vrfs.add name vni = .ok vrfs) : Keyed { db with vrfs } := by
  obtain ⟨v, hv⟩ := VrfTable.byName_of_add ha
  refine ⟨?_, fun n v' h' => ?_⟩
  · show vrfs.byName.Sorted
    rw [hv]
    exact OrderedMap.sorted_insert h.vrfs _ _
  · dsimp only at h'
    rw [VrfTable.get?_of_insert hv] at h'
    split at h'
    · cases h'
      exact List.nodup_nil
    · exact h.evpn n v' h'

theorem Keyed.removeVrf {db : Tables} (h : db.Keyed) {name : String} {v : Vrf}
    {vrfs : VrfTable} (hr : db.vrfs.remove name = .ok (v, vrfs)) : Keyed { db with vrfs } := by
  have hv := VrfTable.byName_of_remove hr
  refine ⟨?_, fun n v' h' => ?_⟩
  · show vrfs.byName.Sorted
    rw [hv]
    exact OrderedMap.sorted_erase h.vrfs _
  · dsimp only at h'
    rw [VrfTable.get?_of_erase hv] at h'
    split at h'
    · cases h'
    · exact h.evpn n v' h'

theorem Keyed.update {db : Tables} (h : db.Keyed) (vrf : String) (k : RouteKey)
    (f : Route → Route) : (db.update vrf k f).1.Keyed := by
  simp only [Tables.update]
  split
  · exact h
  · split
    · exact h
    · refine h.mapValues fun name v hv => ?_
      dsimp only
      split
      · exact Vrf.nodup_evpn_store hv _ _
      · exact hv

theorem Keyed.apply {db : Tables} (h : db.Keyed) (q : Request) : (db.apply q).1.Keyed := by
  rcases q.action_cases db.interfaces with ha | ⟨ha, hx⟩ | ⟨x, _, hx⟩
  · rw [apply_withdraw db ha]
    exact h.update _ _ _
  · rw [apply_unresolved db ha hx]
    exact h
  · rw [apply_install db hx]
    exact h.update _ _ _

theorem Filled.keyed {db : Tables} (h : db.Filled) : db.Keyed := by
  induction h with
  | empty => exact ⟨OrderedMap.sorted_empty, fun name v h => (by cases h)⟩
  | addVrf name vni _ ha ih => exact ih.addVrf ha
  | removeVrf name _ hr ih => exact ih.removeVrf hr
  | assignVns f _ ih => exact ih.mapValues fun _ _ hv => hv
  | setInterfaces interfaces _ ih => exact ⟨ih.vrfs, ih.evpn⟩
  | setSessions sessions _ ih => exact ⟨ih.vrfs, ih.evpn⟩
  | apply q _ ih => exact ih.apply q
  | refresh name _ ih => exact ih.mapValues fun _ _ hv => Vrf.nodup_evpn_mapRoutes hv _

/-- No VRF and no route is there twice, and every VRF stands under its own name. -/
structure Distinct (db : Tables) : Prop where
  vrfs : db.vrfs.byName.keys.Nodup
  named : ∀ name v, db.vrfs.get? name = some v → v.name = name
  inet : ∀ name v, db.vrfs.get? name = some v → v.inet.keys.Nodup
  evpn : ∀ name v, db.vrfs.get? name = some v → v.evpn.keys.Nodup

theorem Filled.distinct {db : Tables} (h : db.Filled) : db.Distinct where
  vrfs := OrderedMap.nodup_keys h.keyed.vrfs
  named := h.proper.named
  inet name v hv := OrderedMap.nodup_keys (h.proper.vrf name v hv).sorted
  evpn := h.keyed.evpn

namespace Distinct

variable {db : Tables} (h : db.Distinct)

include h

theorem get?_of_mem {v : Vrf} (hv : v ∈ db.vrfs.vrfs) : db.vrfs.get? v.name = some v := by
  obtain ⟨⟨name, v⟩, hmem, rfl⟩ := List.mem_map.mp hv
  have hget : db.vrfs.get? name = some v := Entries.get?_of_mem h.vrfs hmem
  rwa [h.named name v hget]

theorem nodup_names : (db.vrfs.vrfs.map (·.name)).Nodup := by
  have hnames : db.vrfs.vrfs.map (·.name) = db.vrfs.byName.keys := by
    simp only [VrfTable.vrfs, OrderedMap.values, OrderedMap.keys, List.map_map]
    exact List.map_congr_left fun e he => h.named e.1 e.2 (Entries.get?_of_mem h.vrfs he)
  rw [hnames]
  exact h.vrfs

variable {name : String} {v : Vrf} (hv : db.vrfs.get? name = some v)

include hv

/-- The stored routes are those that are found. -/
theorem route?_of_mem_routes {e : RouteKey × Route} (he : e ∈ v.routes) :
    v.route? e.1 = some e.2 := by
  rcases List.mem_append.mp he with he | he
  · obtain ⟨e, hmem, rfl⟩ := List.mem_map.mp he
    exact Entries.get?_of_mem (h.inet name v hv) hmem
  · obtain ⟨e, hmem, rfl⟩ := List.mem_map.mp he
    exact Entries.get?_of_mem (h.evpn name v hv) hmem

/-- No route key is twice among the stored routes. -/
theorem nodup_keys_routes : (v.routes.map (·.1)).Nodup := by
  have hkeys : v.routes.map (·.1) = v.inet.keys.map .inet ++ v.evpn.keys.map .evpn := by
    simp only [Vrf.routes, List.map_append, List.map_map, OrderedMap.keys, ArrivalMap.keys]
    rfl
  rw [hkeys]
  have hinet : (v.inet.keys.map RouteKey.inet).Nodup :=
    List.pairwise_map.mpr ((h.inet name v hv).imp fun hne h => hne (RouteKey.inet.inj h))
  have hevpn : (v.evpn.keys.map RouteKey.evpn).Nodup :=
    List.pairwise_map.mpr ((h.evpn name v hv).imp fun hne h => hne (RouteKey.evpn.inj h))
  refine List.nodup_append.mpr ⟨hinet, hevpn, fun a ha b hb => ?_⟩
  obtain ⟨p, _, rfl⟩ := List.mem_map.mp ha
  obtain ⟨k, _, rfl⟩ := List.mem_map.mp hb
  intro he
  cases he

end Distinct

/-- Every route of every VRF has paths, the prefix of its key and one path of a peer at most. -/
structure Tidy (db : Tables) : Prop where
  filled : ∀ v ∈ db.vrfs.vrfs, ∀ e ∈ v.routes, e.2.paths ≠ []
  dest : ∀ v ∈ db.vrfs.vrfs, ∀ e ∈ v.routes, e.2.dest = e.1.dest
  peers : ∀ v ∈ db.vrfs.vrfs, ∀ e ∈ v.routes, (e.2.paths.map (·.peer)).Nodup

theorem Filled.tidy {db : Tables} (h : db.Filled) : db.Tidy := by
  have hfound : ∀ v ∈ db.vrfs.vrfs, ∀ e ∈ v.routes, v.Proper ∧ v.route? e.1 = some e.2 := by
    intro v hv e he
    have hget := h.distinct.get?_of_mem hv
    exact ⟨h.proper.vrf v.name v hget, h.distinct.route?_of_mem_routes hget he⟩
  refine ⟨fun v hv e he => ?_, fun v hv e he => ?_, fun v hv e he => ?_⟩
  · obtain ⟨hp, hr⟩ := hfound v hv e he
    exact hp.filled e.1 e.2 hr
  · obtain ⟨hp, hr⟩ := hfound v hv e he
    exact hp.dest e.1 e.2 hr
  · obtain ⟨hp, hr⟩ := hfound v hv e he
    exact (hp.ranked e.1 e.2 hr).nodup_peers

/-- The paths of a route are those that are found by their peers. -/
theorem Proper.mem_paths_iff {db : Tables} (h : db.Proper) (vrf : String) (k : RouteKey)
    (x : Path) : x ∈ db.paths vrf k ↔ db.path? vrf k x.peer = some x := by
  constructor
  · rw [path?_eq_find?]
    exact Route.find?_of_mem (h.ranked vrf k).nodup_peers
  · exact fun hx => (mem_of_path? hx).1

end Tables

/-- The next-hop key and the attributes of the path that an action asks for. -/
def Action.asked? : Action → Option (NextHopKey × Attributes)
  | .installLocal hop attrs => some (hop, attrs)
  | .installEcmp composite attrs _ => some (composite, attrs)
  | .installTunnel t attrs => some (.tunnel t, attrs)
  | .withdraw => none

theorem Action.path?_of_asked {a : Action} {key : NextHopKey} {attrs : Attributes}
    (h : a.asked? = some (key, attrs)) (t : InterfaceTable) (peer : Peer) :
    a.path? t peer = (key.resolve t).map (⟨peer, ·, attrs⟩) := by
  cases a with
  | withdraw => cases h
  | _ =>
    cases h
    rfl

theorem Action.ne_withdraw_of_asked {a : Action} {x : NextHopKey × Attributes}
    (h : a.asked? = some x) : a ≠ .withdraw := by
  rintro rfl
  cases h

/-- The paths stay exactly if the path of the request's peer does. -/
theorem Request.rewrite_eq_iff (q : Request) (t : InterfaceTable) (l : List Path) :
    q.rewrite t l = l ↔
      q.outcome t (l.find? fun x => x.peer = q.peer) = l.find? fun x => x.peer = q.peer := by
  constructor
  · intro h
    rw [← find?_rewrite_self, h]
  · intro h
    rcases q.action_cases t with ha | ⟨ha, hx⟩ | ⟨x, ha, hx⟩
    · rw [outcome_withdraw ha] at h
      rw [rewrite_withdraw ha]
      refine List.filter_eq_self.mpr fun x hx => ?_
      simpa using List.find?_eq_none.mp h.symm x hx
    · rw [rewrite_unresolved ha hx]
    · -- a path that is entered again under the same values leaves the list as it is
      rw [outcome_install ha, hx, Option.some_or, ← Action.peer_of_path? hx] at h
      rw [rewrite_install hx]
      exact if_pos h.symm

namespace Tables

/-- Tables that differ in the path of one peer on one route at most. -/
structure DiffersAt (db db' : Tables) (vrf : String) (k : RouteKey) (p : Peer) : Prop where
  path? : ∀ vrf' k' p', (vrf', k', p') ≠ (vrf, k, p) → db'.path? vrf' k' p' = db.path? vrf' k' p'
  bare? : ∀ name, db'.bare? name = db.bare? name
  interfaces : db'.interfaces = db.interfaces
  sessions : db'.sessions = db.sessions

/-- A request is answered exactly if the path that it is for is not what it was. -/
theorem snd_apply (db : Tables) (q : Request) : (db.apply q).2 =
    if (db.apply q).1.path? q.vrf q.key q.peer = db.path? q.vrf q.key q.peer then none
    else some ⟨q.vrf, q.key⟩ := by
  rw [notification_apply]
  by_cases hb : db.bare? q.vrf = none
  · have hp := (apply_updates db q).paths_missing hb q.key
    rw [if_pos (.inl hb), path?_eq_find?, path?_eq_find?, hp, if_pos rfl]
  · rw [path?_apply_self db q hb, path?_eq_find?]
    simp only [hb, false_or, Request.rewrite_eq_iff]

theorem differsAt_apply (db : Tables) (q : Request) :
    db.DiffersAt (db.apply q).1 q.vrf q.key q.peer :=
  ⟨fun _ _ _ h => path?_apply_of_ne db q h, bare?_apply db q, interfaces_apply db q,
    (apply_updates db q).sessions⟩

/-- A path that is asked for is installed if its VRF is there and its next-hop resolves. -/
theorem path?_apply_of_asked {db : Tables} {q : Request} {key : NextHopKey} {attrs : Attributes}
    {hop : NextHop} (ha : q.action.asked? = some (key, attrs)) (hv : db.vrfs.get? q.vrf ≠ none)
    (hr : key.resolve db.interfaces = some hop) :
    (db.apply q).1.path? q.vrf q.key q.peer = some ⟨q.peer, hop, attrs⟩ := by
  rw [path?_apply_self db q (mt get?_eq_none_iff_bare?.mpr hv),
    Request.outcome_install (Action.ne_withdraw_of_asked ha), Action.path?_of_asked ha, hr]
  rfl

theorem path?_apply_of_withdraw {db : Tables} {q : Request} (ha : q.action = .withdraw) :
    (db.apply q).1.path? q.vrf q.key q.peer = none := by
  by_cases hb : db.bare? q.vrf = none
  · rw [path?_eq_find?, paths_of_bare?_eq_none ((bare?_apply db q q.vrf).trans hb)]
    rfl
  · rw [path?_apply_self db q hb, Request.outcome_withdraw ha]

/-- A request is in vain if its VRF is not there, or its next-hop does not resolve, or the path that
it withdraws is not there. -/
def InVain (db : Tables) (q : Request) : Prop :=
  db.vrfs.get? q.vrf = none ∨
    (∃ key attrs, q.action.asked? = some (key, attrs) ∧ key.resolve db.interfaces = none) ∨
    (q.action = .withdraw ∧ db.path? q.vrf q.key q.peer = none)

theorem apply_of_inVain {db : Tables} {q : Request} (h : db.InVain q) : (db.apply q).1 = db := by
  refine apply_of_unnoticed ?_
  rw [notification_apply, if_pos]
  rcases h with hv | ⟨key, attrs, ha, hr⟩ | ⟨ha, hp⟩
  · exact .inl (get?_eq_none_iff_bare?.mp hv)
  · refine .inr (Request.rewrite_unresolved (Action.ne_withdraw_of_asked ha) ?_ _)
    rw [Action.path?_of_asked ha, hr]
    rfl
  · refine .inr ((Request.rewrite_eq_iff q _ _).mpr ?_)
    rw [Request.outcome_withdraw ha, ← path?_eq_find?, hp]

/-- Tables that requests have filled are a map from VRF, route key and peer to path, kept in routes
with the prefixes of their keys and with paths. A request changes its entry at most. If its VRF is
there and its next-hop resolves, the entry becomes the path that is asked for; a withdrawal removes
it; and a request in vain changes nothing. It is answered exactly if its entry is not what it was. -/
theorem apply_entry (db : Tables) (h : db.Filled) (q : Request) :
    db.Tidy ∧ (∀ vrf k x, x ∈ db.paths vrf k ↔ db.path? vrf k x.peer = some x) ∧
      db.DiffersAt (db.apply q).1 q.vrf q.key q.peer ∧
      (∀ key attrs hop, q.action.asked? = some (key, attrs) → db.vrfs.get? q.vrf ≠ none →
        key.resolve db.interfaces = some hop →
        (db.apply q).1.path? q.vrf q.key q.peer = some ⟨q.peer, hop, attrs⟩) ∧
      (q.action = .withdraw → (db.apply q).1.path? q.vrf q.key q.peer = none) ∧
      (db.InVain q → (db.apply q).1 = db) ∧
      (db.apply q).2 =
        if (db.apply q).1.path? q.vrf q.key q.peer = db.path? q.vrf q.key q.peer then none
        else some ⟨q.vrf, q.key⟩ :=
  ⟨h.tidy, h.proper.mem_paths_iff, differsAt_apply db q, fun _ _ _ => path?_apply_of_asked,
    path?_apply_of_withdraw, apply_of_inVain, snd_apply db q⟩

/-- A machine's network is entered, and this is told. -/
theorem apply_entry_install :
    (Sample.tables.apply Sample.install).1.path? "bridge" (.inet Sample.subnet)
        Sample.install.peer = some ⟨Sample.install.peer, .interface "tap" 3 false, {}⟩ ∧
      (Sample.tables.apply Sample.install).2 = some ⟨"bridge", .inet Sample.subnet⟩ := by
  obtain ⟨_, _, _, hset, _, _, hnote⟩ := apply_entry Sample.tables Sample.filled Sample.install
  have hpath : (Sample.tables.apply Sample.install).1.path? Sample.install.vrf
      Sample.install.key Sample.install.peer =
        some ⟨Sample.install.peer, .interface "tap" 3 false, {}⟩ :=
    hset (.interface "tap" false) {} _ rfl (by decide +kernel) (by decide +kernel)
  have hnone : Sample.tables.path? Sample.install.vrf Sample.install.key
      Sample.install.peer = none := by decide +kernel
  refine ⟨hpath, ?_⟩
  rw [hnote, hpath, hnone, if_neg (Option.some_ne_none _)]
  rfl

end Tables

end VxlanRouting
