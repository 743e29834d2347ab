import VxlanRouting.Proofs.Duty

/-!
What a request changes in decisions. A decision stays if no route that it reads is written to. The
directions do not listen to themselves besides: what leaks into the EVPN table is read from control
nodes only, and what leaks into the Inet table is never read from what has leaked. So every duty
comes to rest after one request, and is done then.
-/
namespace VxlanRouting

namespace View

/-- The view after a request has been applied; sequences may have been given out meanwhile. -/
structure Applies (v w : View) (q : Request) : Prop where
  params : w.params = v.params
  tables : w.tables = (v.tables.apply q).1
  routers : w.routers.bare = v.routers.bare

variable {v w : View} {q : Request}

theorem Applies.proper (h : v.Applies w q) (hv : v.tables.Proper) : w.tables.Proper := by
  rw [h.tables]
  exact hv.apply q

theorem Applies.bare? (h : v.Applies w q) (vrf : String) :
    w.tables.bare? vrf = v.tables.bare? vrf := by
  rw [h.tables, Tables.bare?_apply]

theorem Applies.interfaces (h : v.Applies w q) : w.tables.interfaces = v.tables.interfaces := by
  rw [h.tables, Tables.interfaces_apply]

theorem Applies.bridgesOf (h : v.Applies w q) (vrf : String) :
    w.routers.bridgesOf vrf = v.routers.bridgesOf vrf :=
  RouterMap.bridgesOf_congr h.routers vrf

theorem Applies.paths_of_ne (h : v.Applies w q) {vrf : String} {k : RouteKey}
    (hne : (vrf, k) ≠ (q.vrf, q.key)) : w.tables.paths vrf k = v.tables.paths vrf k := by
  rw [h.tables, Tables.paths_apply_of_ne _ _ hne]

/-- Only a control node's path in the fabric VRF tells of the hardware address of a router. -/
theorem Applies.sameHost (h : v.Applies w q) (hv : v.tables.Proper)
    (hq : q.vrf ≠ v.params.fabricVrf ∨ q.peer.kind ≠ .bgp) : v.SameHost w := by
  refine ⟨fun name => ?_, fun a => ?_⟩
  · simp only [Tables.IsVm]
    rw [h.interfaces]
  · rw [routerMac?_eq hv, routerMac?_eq (h.proper hv), h.params, h.tables]
    rcases hq with hq | hq
    · rw [Tables.paths_apply_of_ne _ _ fun he => hq (Prod.mk.inj he).1.symm]
    · refine (Tables.findSome?_paths_apply _ q (fun x hx => ?_) _ _).symm
      rw [Path.controlTunnel?_of_kind_ne (hx ▸ hq)]
      rfl

/-- A decision stays if what is written to is not read. -/
theorem Applies.want_of_not_reads (h : v.Applies w q) (hv : v.tables.Proper) (hh : v.SameHost w)
    {σ : Duty} (hσ : ¬ σ.Reads v.routers q.vrf q.key) : σ.want w = σ.want v := by
  refine Duty.want_congr hv (h.proper hv) h.params hh σ (h.bridgesOf _) (by rw [h.bare?])
    fun vrf k hk => ?_
  refine h.paths_of_ne fun he => hσ ?_
  obtain ⟨rfl, rfl⟩ := Prod.mk.inj he
  exact hk

/-- What leaks into an EVPN table is read from control nodes only. -/
theorem Applies.want_toEvpn (h : v.Applies w q) (hv : v.tables.Proper) (hq : q.peer.kind ≠ .bgp)
    (vrf : String) (p : Prefix) :
    Duty.want w ⟨.toEvpn, vrf, p⟩ = Duty.want v ⟨.toEvpn, vrf, p⟩ := by
  have hh : v.SameHost w := h.sameHost hv (.inr hq)
  refine leakedEvpn_congr hv (h.proper hv) hh ?_
  rw [h.tables]
  refine Tables.findSome?_paths_apply _ q (fun x hx => ?_) _ _
  rw [Path.controlTunnel?_of_kind_ne (hx ▸ hq)]
  rfl

/-- What has leaked into an EVPN table does not leak back. -/
theorem Applies.want_toInet (h : v.Applies w q) (hv : v.tables.Proper) (hh : v.SameHost w)
    (hq : q.peer = v.params.leakPeer) (vrf : String) (p : Prefix) :
    Duty.want w ⟨.toInet, vrf, p⟩ = Duty.want v ⟨.toInet, vrf, p⟩ := by
  refine leakedInet_congr hv (h.proper hv) hh ?_
  rw [h.tables, h.params]
  refine Tables.find?_paths_apply _ q (fun x hx => ?_) _ _
  simp [hx, hq]

/-- A request for the path of a duty leaves it as decided. -/
theorem Applies.idle (h : v.Applies w q) (hc : v.params.FromConfig) (hv : v.tables.Proper)
    {σ : Duty} (hq : σ.Of v.params q) (ha : q.action.Asks (σ.want v)) :
    σ.Idle w ∧ σ.want w = σ.want v := by
  obtain ⟨hvrf, hkey, hpeer⟩ := hq
  have hkind : q.peer.kind ≠ .bgp := hc.ne_bgp_of_owns (hpeer ▸ σ.owns_peer v.params)
  have hwant : σ.want w = σ.want v := by
    refine h.want_of_not_reads hv (h.sameHost hv (.inr hkind)) ?_
    rw [hkey]
    exact σ.not_reads_key _ _
  refine ⟨?_, hwant⟩
  by_cases hb : v.tables.bare? σ.vrf = none
  · exact Duty.idle_of_missing (h.proper hv) ((h.bare? σ.vrf).trans hb)
  · simp only [Duty.Idle, Duty.found]
    rw [hwant, h.params, h.tables, ← hvrf, ← hkey, ← hpeer,
      Tables.path?_apply_self _ q (by rw [hvrf]; exact hb)]
    exact Request.accords_outcome ha (Duty.regular_of_want hv σ) _

end View

/-! A small network that general statements are tried on: one logical router with one bridge, and a
machine behind one interface. -/
namespace Sample

def config : Config := ⟨⟨.v4, 0x0a000001, by decide⟩, none, none, none⟩

def params : Parameters where
  routerId := config.routerId
  fabricVrf := Parameters.defaultFabricVrf
  exportPeer := Parameters.defaultExportPeer
  leakPeer := Parameters.defaultLeakPeer

theorem fromConfig : params.FromConfig := ⟨config, by rfl⟩

def router : LogicalRouterId := ⟨1, by decide⟩

/-- The network 10.1.1.0/24. -/
def subnet : Prefix := ⟨⟨.v4, 0x0a010100, by decide⟩, 24, by decide⟩

def routingVn : VnConfig := ⟨"routing-vn", "routing", some router, true⟩

def bridgeVn : VnConfig := ⟨"bridge-vn", "bridge", some router, false⟩

def routers : RouterMap := ((({} : RouterMap).configure routingVn).1.configure bridgeVn).1

theorem configured : routers.Configured := .configure bridgeVn (.configure routingVn .empty)

def tap : Interface := ⟨"tap", .vm {}, 3⟩

/-- The tables with a VRF more, if it can be added. -/
def withVrf (db : Tables) (name : String) (vni : Option Nat) : Tables :=
  match db.vrfs.add name vni with
  | .ok vrfs => { db with vrfs }
  | .error _ => db

theorem filled_withVrf {db : Tables} (h : db.Filled) (name : String) (vni : Option Nat) :
    (withVrf db name vni).Filled := by
  simp only [withVrf]
  split
  · next ha => exact h.addVrf name vni ha
  · exact h

/-- Two VRFs without routes, which carry the two VNs. -/
def vrfs : Tables :=
  (withVrf (withVrf {} "bridge" none) "routing" (some 7)).assignVns
    fun name _ => some (name ++ "-vn")

theorem filled_vrfs : vrfs.Filled :=
  .assignVns _ (filled_withVrf (filled_withVrf .empty _ _) _ _)

/-- The two VRFs and one interface. -/
def tables : Tables := { vrfs with interfaces := ⟨[("tap", tap)]⟩ }

theorem filled : tables.Filled := filled_vrfs.setInterfaces _

/-- The engine of the network, with nothing to do. -/
def engine : Engine := { params, tables, routers }

/-- A machine behind the interface has the network. -/
def install : Request :=
  ⟨"bridge", .inet subnet, ⟨"machine", .localVm⟩, .installLocal (.interface "tap" false) {}⟩

/-- The machine gives the network up. -/
def withdraw : Request := ⟨"bridge", .inet subnet, ⟨"machine", .localVm⟩, .withdraw⟩

/-- The engine while nothing of the machine's network has been passed on. -/
def served : Engine := { engine with tables := (tables.apply install).1 }

end Sample

namespace Engine

/-- The engine after all requests in its queue have been applied and passed on to no direction. -/
def settle (e : Engine) : Engine := { e with tables := e.tables.applyAll e.queue, queue := [] }

/-- One run of a direction decides once and for all: it asks for one path at most, the path that is
there after it is as decided, and a second run finds nothing to do. -/
theorem run_settles (e : Engine) (hc : e.params.FromConfig) (ht : e.tables.Filled)
    (hr : e.routers.routers.Sorted) (hq : e.queue = []) (d : Direction) (vrf : String)
    (p : Prefix) :
    (e.run d vrf p).queue.length ≤ 1 ∧
      Accords (Duty.found (e.run d vrf p).settle.toView ⟨d, vrf, p⟩)
        (Duty.want e.toView ⟨d, vrf, p⟩) ∧
      ((e.run d vrf p).settle.run d vrf p).queue = [] := by
  rw [run_eq_fulfil, run_eq_fulfil]
  by_cases hi : Duty.Idle e.toView ⟨d, vrf, p⟩
  · have hs : e.settle = e := by
      simp only [settle]
      rw [hq]
      show { e with queue := [] } = e
      rw [← hq]
    rw [fulfil_of_idle hi, hs, fulfil_of_idle hi, hq]
    exact ⟨Nat.zero_le 1, hi, rfl⟩
  · obtain ⟨q, hp, hof, ha⟩ := fulfil_of_not_idle hr hi
    have hqueue : (e.fulfil ⟨d, vrf, p⟩).queue = [q] := by rw [hp.queue, hq, List.nil_append]
    have happ : e.toView.Applies (e.fulfil ⟨d, vrf, p⟩).settle.toView q := by
      refine ⟨hp.params, ?_, hp.routers⟩
      show (e.fulfil ⟨d, vrf, p⟩).tables.applyAll (e.fulfil ⟨d, vrf, p⟩).queue = _
      rw [hqueue, hp.tables]
      rfl
    obtain ⟨hidle, hwant⟩ := happ.idle hc ht.proper hof ha
    refine ⟨by rw [hqueue]; exact Nat.le_refl 1, hwant ▸ hidle, ?_⟩
    rw [fulfil_of_idle hidle]
    rfl

/-- A machine's network is exported in one run. -/
theorem run_settles_export :
    (Sample.served.run .fromBridges "routing" Sample.subnet).queue ≠ [] ∧
      ((Sample.served.run .fromBridges "routing" Sample.subnet).settle.run .fromBridges "routing"
        Sample.subnet).queue = [] := by
  refine ⟨by decide +kernel, ?_⟩
  exact (run_settles Sample.served Sample.fromConfig (Sample.filled.apply Sample.install)
    Sample.configured.coherent.sorted rfl .fromBridges "routing" Sample.subnet).2.2

end Engine

end VxlanRouting
