import Mathlib.Data.List.Forall2
import VxlanRouting.Proofs.Events
import VxlanRouting.Proofs.PathMap

/-!
What is told of an interface that has changed. Only next-hops that name it, themselves or through a
member at any depth, are resolved anew, and only a route where this makes a difference is told of:
once, and not again when the interface is refreshed again.
-/
namespace VxlanRouting

/-- The key is the interface of this name, or has a member that names it. -/
inductive NextHopKey.Names (name : String) : NextHopKey → Prop
  | interface (policy : Bool) : Names name (.interface name policy)
  | member {kind : CompositeKind} {ms : List MemberKey} {m : MemberKey} :
      m ∈ ms → Names name m.key → Names name (.composite kind ms)

mutual

theorem NextHopKey.mentions_iff (name : String) :
    ∀ k : NextHopKey, k.mentions name = true ↔ k.Names name
  | .interface n policy => by
    simp only [NextHopKey.mentions, beq_iff_eq]
    constructor
    · rintro rfl
      exact .interface policy
    · rintro ⟨⟩
      rfl
  | .composite kind ms => by
    simp only [NextHopKey.mentions]
    rw [MemberKey.anyMentions_iff name ms]
    constructor
    · rintro ⟨m, hm, hn⟩
      exact .member hm hn
    · rintro (_ | ⟨hm, hn⟩)
      exact ⟨_, hm, hn⟩
  | .tunnel _ => ⟨fun h => (by cases h), fun h => (by cases h)⟩
  | .vrf _ => ⟨fun h => (by cases h), fun h => (by cases h)⟩
  | .receive => ⟨fun h => (by cases h), fun h => (by cases h)⟩
  | .discard => ⟨fun h => (by cases h), fun h => (by cases h)⟩

theorem MemberKey.anyMentions_iff (name : String) : ∀ ms : List MemberKey,
    MemberKey.anyMentions name ms = true ↔ ∃ m ∈ ms, m.key.Names name
  | [] => by simp [MemberKey.anyMentions]
  | ⟨label, k⟩ :: ms => by
    simp only [MemberKey.anyMentions, MemberKey.mentions, Bool.or_eq_true]
    rw [NextHopKey.mentions_iff name k, MemberKey.anyMentions_iff name ms]
    simp

end

/-! ### What may change -/

/-- The path with its next-hop resolved anew, if this names the interface and resolves. -/
structure Path.Renewed (t : InterfaceTable) (name : String) (x y : Path) : Prop where
  peer : y.peer = x.peer
  attrs : y.attrs = x.attrs
  resolved : x.hop.key.Names name → ∀ hop, x.hop.key.resolve t = some hop → y.hop = hop
  changed : y.hop ≠ x.hop →
    x.hop.key.Names name ∧ x.hop.key.resolve t = some y.hop ∧ y.hop.key = x.hop.key

/-- The same paths in the same order, each renewed. -/
structure Route.Renewed (t : InterfaceTable) (name : String) (r s : Route) : Prop where
  dest : s.dest = r.dest
  paths : List.Forall₂ (Path.Renewed t name) r.paths s.paths

/-- The same keys in the same order, each with a value that the old one is related to. -/
def Entries.Alike {κ α : Type} (R : α → α → Prop) (l l' : List (κ × α)) : Prop :=
  List.Forall₂ (fun e e' => e'.1 = e.1 ∧ R e.2 e'.2) l l'

theorem Entries.alike_mapValues {κ α : Type} {R : α → α → Prop} {f : κ → α → α}
    (h : ∀ k v, R v (f k v)) (l : List (κ × α)) : Alike R l (mapValues f l) :=
  List.forall₂_map_right_iff.mpr (List.forall₂_same.mpr fun e _ => ⟨rfl, h e.1 e.2⟩)

structure Vrf.Renewed (t : InterfaceTable) (name : String) (v w : Vrf) : Prop where
  bare : w.bare = v.bare
  inet : Entries.Alike (Route.Renewed t name) v.inet.entries w.inet.entries
  evpn : Entries.Alike (Route.Renewed t name) v.evpn.entries w.evpn.entries

/-- Tables that differ at most in the next-hops that name the interface. -/
structure Tables.Renewed (db db' : Tables) (name : String) : Prop where
  interfaces : db'.interfaces = db.interfaces
  sessions : db'.sessions = db.sessions
  byVni : db'.vrfs.byVni = db.vrfs.byVni
  byName : Entries.Alike (Vrf.Renewed db.interfaces name) db.vrfs.byName.entries
    db'.vrfs.byName.entries

section

variable (t : InterfaceTable) (name : String)

theorem Path.renewed_refresh (x : Path) : x.Renewed t name (x.refresh t name) := by
  have hnames : x.hop.mentions name = true ↔ x.hop.key.Names name := by
    rw [← NextHop.mentions_key, NextHopKey.mentions_iff]
  refine ⟨peer_refresh t name x, attrs_refresh t name x, fun hn hop hr => ?_, fun hne => ?_⟩
  · simp only [refresh]
    rw [if_pos (hnames.mpr hn), hr]
  · have hkey := key_refresh t name x
    revert hne hkey
    simp only [refresh]
    split
    · next hm =>
      split
      · next hop hr => exact fun _ hkey => ⟨hnames.mp hm, hr, hkey⟩
      · exact fun hne => absurd rfl hne
    · exact fun hne => absurd rfl hne

theorem Route.renewed_refresh (r : Route) : r.Renewed t name (r.refresh t name) := by
  refine ⟨rfl, List.forall₂_map_right_iff.mpr (List.forall₂_same.mpr fun x _ => ?_)⟩
  exact Path.renewed_refresh t name x

theorem Vrf.renewed_refresh (v : Vrf) :
    v.Renewed t name (v.mapRoutes (Route.refresh t name)) :=
  ⟨rfl, Entries.alike_mapValues (fun _ => Route.renewed_refresh t name) _,
    Entries.alike_mapValues (fun _ => Route.renewed_refresh t name) _⟩

end

theorem Tables.renewed_refresh (db : Tables) (name : String) :
    db.Renewed (db.refresh name).1 name :=
  ⟨rfl, rfl, rfl, Entries.alike_mapValues (fun _ => Vrf.renewed_refresh db.interfaces name) _⟩

/-! ### Refreshing again -/

section

variable (t : InterfaceTable) (name : String)

theorem Path.refresh_refresh (x : Path) :
    (x.refresh t name).refresh t name = x.refresh t name := by
  by_cases hm : x.hop.mentions name = true
  · cases hr : x.hop.key.resolve t with
    | none =>
      have hx : x.refresh t name = x := by
        simp only [refresh]
        rw [if_pos hm, hr]
      rw [hx, hx]
    | some hop =>
      have hx : x.refresh t name = { x with hop } := by
        simp only [refresh]
        rw [if_pos hm, hr]
      -- the new next-hop has the key of the old one, and so names and resolves to the same
      have hkey : hop.key = x.hop.key := NextHopKey.key_of_resolve hr
      have hm' : hop.mentions name = true := by
        rw [← NextHop.mentions_key, hkey, NextHop.mentions_key, hm]
      rw [hx]
      simp only [refresh]
      rw [if_pos hm', hkey, hr]
  · have hx : x.refresh t name = x := by
      simp only [refresh]
      rw [if_neg hm]
    rw [hx, hx]

theorem Route.refresh_refresh (r : Route) :
    (r.refresh t name).refresh t name = r.refresh t name := by
  simp only [refresh, List.map_map]
  congr 2
  exact funext (Path.refresh_refresh t name)

/-- A route changes exactly if one of its paths does. -/
theorem Route.refresh_eq_iff (r : Route) :
    r.refresh t name = r ↔ r.paths.map (·.refresh t name) = r.paths := by
  obtain ⟨dest, l⟩ := r
  simp [refresh]

end

theorem Entries.mapValues_mapValues {κ α : Type} (f g : κ → α → α) (l : List (κ × α)) :
    mapValues g (mapValues f l) = mapValues (fun k v => g k (f k v)) l := by
  simp [mapValues]

theorem Vrf.mapRoutes_mapRoutes {f : Route → Route} (h : ∀ r, f (f r) = f r) (v : Vrf) :
    (v.mapRoutes f).mapRoutes f = v.mapRoutes f := by
  simp only [mapRoutes, OrderedMap.mapValues, ArrivalMap.mapValues, Entries.mapValues_mapValues, h]

theorem Vrf.routes_mapRoutes (f : Route → Route) (v : Vrf) :
    (v.mapRoutes f).routes = v.routes.map fun e => (e.1, f e.2) := by
  simp only [mapRoutes, routes, OrderedMap.mapValues, ArrivalMap.mapValues, Entries.mapValues,
    List.map_append, List.map_map]
  rfl

/-- Refreshing an interface again changes nothing and tells nothing. -/
theorem Tables.refresh_refresh (db : Tables) (name : String) :
    (db.refresh name).1.refresh name = ((db.refresh name).1, []) := by
  have hf : ∀ r : Route, (r.refresh db.interfaces name).refresh db.interfaces name =
      r.refresh db.interfaces name := Route.refresh_refresh db.interfaces name
  simp only [refresh, OrderedMap.mapValues, Entries.mapValues_mapValues, Vrf.mapRoutes_mapRoutes hf,
    VrfTable.vrfs, OrderedMap.values]
  congr 1
  refine List.flatMap_eq_nil_iff.mpr fun v hv => ?_
  obtain ⟨_, he, rfl⟩ := List.mem_map.mp hv
  obtain ⟨e, _, rfl⟩ := List.mem_map.mp he
  rw [Vrf.routes_mapRoutes, List.map_eq_nil_iff, List.filter_eq_nil_iff]
  rintro _ hr
  obtain ⟨r, _, rfl⟩ := List.mem_map.mp hr
  simp [hf]

/-! ### What is told -/

namespace Tables

theorem mem_refresh {db : Tables} {name : String} {n : Notification} :
    n ∈ (db.refresh name).2 ↔ ∃ v ∈ db.vrfs.vrfs, ∃ e ∈ v.routes,
      e.2.refresh db.interfaces name ≠ e.2 ∧ ⟨v.name, e.1⟩ = n := by
  simp only [refresh, List.mem_flatMap, List.mem_map, List.mem_filter, decide_eq_true_eq, and_assoc]

/-- The routes that are told of are those with a path that has changed. -/
theorem Distinct.mem_refresh_iff {db : Tables} (h : db.Distinct) {name : String}
    {n : Notification} :
    n ∈ (db.refresh name).2 ↔ (db.refresh name).1.paths n.vrf n.key ≠ db.paths n.vrf n.key := by
  have hfound : ∀ {v : Vrf} {k : RouteKey} {r : Route}, db.vrfs.get? v.name = some v →
      v.route? k = some r → db.paths v.name k = r.paths := by
    intro v k r hv hr
    simp [paths, Vrf.paths, hv, hr]
  rw [mem_refresh, paths_refresh]
  constructor
  · rintro ⟨v, hv, e, he, hne, rfl⟩
    have hget := h.get?_of_mem hv
    rw [hfound hget (h.route?_of_mem_routes hget he)]
    exact mt (Route.refresh_eq_iff _ _ e.2).mpr hne
  · intro hne
    -- a route without paths has none that could change
    obtain ⟨x, hx⟩ : ∃ x, x ∈ db.paths n.vrf n.key :=
      List.exists_mem_of_ne_nil _ fun hnil => hne (by rw [hnil]; rfl)
    obtain ⟨v, r, hv, hmem, hr, _⟩ := exists_route_of_mem_paths hx
    have hname : v.name = n.vrf := h.named n.vrf v hv
    refine ⟨v, hmem, (n.key, r), Vrf.mem_routes hr, ?_, by rw [hname]⟩
    rw [← hname] at hv hne
    rw [hfound hv hr] at hne
    exact mt (Route.refresh_eq_iff _ _ r).mp hne

/-- No route is told of twice. -/
theorem Distinct.nodup_refresh {db : Tables} (h : db.Distinct) (name : String) :
    (db.refresh name).2.Nodup := by
  refine List.pairwise_flatMap.mpr ⟨fun v hv => ?_, ?_⟩
  · have hkeys := h.nodup_keys_routes (h.get?_of_mem hv)
    refine List.pairwise_map.mpr (((List.pairwise_map.mp hkeys).filter _).imp ?_)
    exact fun hne he => hne (Notification.mk.inj he).2
  · refine (List.pairwise_map.mp h.nodup_names).imp fun hne n hn n' hn' he => hne ?_
    obtain ⟨_, _, rfl⟩ := List.mem_map.mp hn
    obtain ⟨_, _, rfl⟩ := List.mem_map.mp hn'
    exact (Notification.mk.inj he).1

/-- Refreshing an interface changes next-hops that name it and nothing else, each to what its own
key resolves to. It tells of every route with a path that has changed, of each once and of no other;
and refreshing it again changes nothing and tells nothing. -/
theorem refresh_reports (db : Tables) (h : db.Distinct) (name : String) :
    db.Renewed (db.refresh name).1 name ∧
      (∀ n, n ∈ (db.refresh name).2 ↔
        (db.refresh name).1.paths n.vrf n.key ≠ db.paths n.vrf n.key) ∧
      (db.refresh name).2.Nodup ∧
      (db.refresh name).1.refresh name = ((db.refresh name).1, []) :=
  ⟨db.renewed_refresh name, fun _ => h.mem_refresh_iff, h.nodup_refresh name,
    db.refresh_refresh name⟩

/-- The machine's path has the interface as a member; the control node's was resolved with it. -/
theorem refresh_reports_untold :
    (Sample.untold.tables.refresh "tap").2 = [⟨"bridge", .inet Sample.subnet⟩] ∧
      (Sample.untold.tables.refresh "tap").1.paths "bridge" (.inet Sample.subnet) ≠
        Sample.untold.tables.paths "bridge" (.inet Sample.subnet) ∧
      ((Sample.untold.tables.refresh "tap").1.refresh "tap").2 = [] := by
  obtain ⟨_, hmem, _, hagain⟩ :=
    refresh_reports Sample.untold.tables Sample.filled_untold.distinct "tap"
  have hnotes : (Sample.untold.tables.refresh "tap").2 = [⟨"bridge", .inet Sample.subnet⟩] := by
    decide +kernel
  refine ⟨hnotes, (hmem ⟨"bridge", .inet Sample.subnet⟩).mp ?_, by rw [hagain]⟩
  rw [hnotes]
  exact List.mem_singleton_self _

end Tables

end VxlanRouting
