import VxlanRouting.Proofs.Events
import VxlanRouting.Proofs.PathHistory

/-!
What is exported when the directions of a routing VRF have nothing to ask for. The first bridge in
attach order that has a route for the prefix decides, by its best path of a machine. If this leads
to an interface of a machine, the routing VRF has it as an EVPN route under the VN of the bridge and
its own identifier, and leaks it into its Inet table unless another path comes first. If there is no
such path, nothing is exported.
-/
namespace VxlanRouting

/-- The best path of some kind is the one that no other of the kind comes before. -/
theorem Route.Ranked.find?_eq_some {l : List Path} (h : Ranked l) {f : Path → Prop}
    [DecidablePred f] {x : Path} (hx : x ∈ l) (hf : f x) (hfirst : ∀ y ∈ l, f y → ¬ y.Before x) :
    (l.find? fun y => f y) = some x := by
  have hleast := h.least_find? f
  cases hfound : l.find? fun y => decide (f y) with
  | none =>
    rw [hfound] at hleast
    cases hleast with
    | none hnone => exact absurd hf (hnone x hx)
  | some y =>
    rw [hfound] at hleast
    cases hleast with
    | some hy hfy hbefore =>
      by_cases he : x = y
      · rw [he]
      · exact absurd (hbefore x hx hf he) (hfirst y hy hfy)

namespace Tables

/-- The VN of the first bridge of a list that has a route for a prefix, and this route. -/
def firstRoute? (db : Tables) (bridges : List (String × String)) (p : Prefix) :
    Option (String × Route) :=
  bridges.findSome? fun b => (db.route? b.2 (.inet p)).map fun r => (b.1, r)

/-- What is exported comes from the first bridge with a route, and from no other. -/
theorem Proper.source?_eq {db : Tables} (h : db.Proper) (bridges : List (String × String))
    (p : Prefix) : db.source? bridges (.inet p) =
      (db.firstRoute? bridges p).bind fun o => (o.2.findKind? .localVm).map fun x => (o.1, x) := by
  induction bridges with
  | nil => rfl
  | cons b l ih =>
    simp only [firstRoute?] at ih ⊢
    rw [source?_cons, ih, List.findSome?_cons, h.route?_eq]
    split
    · rfl
    · rfl

end Tables

namespace View

/-- The advertisement that a path on an interface of a machine becomes. -/
theorem localAdvertisement_interface {v : View} {hop : NextHop} {name : String} {policy : Bool}
    (hkey : hop.key = .interface name policy) (hvm : v.tables.IsVm name) (attrs : Attributes) :
    v.localAdvertisement hop attrs =
      some (.single (.interface name policy) (attrs.advertised .vxlan)) := by
  cases hop with
  | interface name' label policy' =>
    cases hkey
    exact if_pos hvm
  | _ => cases hkey

theorem mirror_interface {v : View} {x : Path} {name : String} {policy : Bool}
    (hkey : x.hop.key = .interface name policy) (hvm : v.tables.IsVm name) :
    v.mirror x = some (.single (.interface name policy) (x.attrs.advertised .vxlan)) := by
  rw [← localAdvertisement_interface hkey hvm]
  simp only [mirror]
  split
  · next ht =>
    rw [ht] at hkey
    cases hkey
  · next hc =>
    rw [hc] at hkey
    cases hkey
  · rfl

/-- What a routing VRF exports, by its first bridge with a route. -/
theorem exported_of_firstRoute? {v : View} (h : v.tables.Proper) {vrf : String} {p : Prefix}
    (hp : p.Canonical) {r : Vrf} (hr : v.tables.vrfs.get? vrf = some r) :
    v.exported vrf p = (v.tables.firstRoute? (v.routers.bridgesOf vrf) p).bind fun o =>
      (o.2.findKind? .localVm).bind fun x =>
        v.localAdvertisement x.hop { x.attrs with destVns := [o.1], vni := r.vni } := by
  rw [exported_eq h, source?, hp.eq, h.source?_eq, Tables.bare?_of_get? hr]
  rw [Option.bind_assoc]
  refine Option.bind_congr fun o _ => ?_
  rw [Option.bind_map]
  rfl

end View

namespace Engine

/-- A direction that asks for nothing is idle. -/
theorem idle_of_run {e : Engine} (hs : e.routers.routers.Sorted) {d : Direction} {vrf : String}
    {p : Prefix} (h : (e.run d vrf p).queue = e.queue) : Duty.Idle e.toView ⟨d, vrf, p⟩ := by
  rw [run_eq_fulfil] at h
  exact (queue_fulfil_eq_iff hs _).mp h

/-- Where the directions of a router's own routing VRF ask for nothing, the first bridge in attach
order that has a route decides. Its best path of a machine, if on an interface of a machine, stands
in the EVPN table with the same interface and policy, and with all of its attributes but the VN of
the bridge, the identifier of the routing VRF, the encapsulation and the ECMP sequence; and it
stands in the Inet table as it is there, unless another peer's path comes before it. Without such a
route or path, nothing is exported, and nothing leaks that no other peer has. The prefix is in
canonical form, as every prefix is that an address and a length give. -/
theorem settled_export (e : Engine) (hc : e.params.FromConfig) (ht : e.tables.Filled)
    (hs : e.routers.routers.Sorted) {id : LogicalRouterId} {r : LogicalRouter}
    (hr : e.routers.router? id = some r) {vrf : String} (hvrf : r.routingVrf = some vrf)
    (hsole : ∀ id' r', e.routers.router? id' = some r' → r'.routingVrf = some vrf → id' = id)
    {v : Vrf} (hv : e.tables.vrfs.get? vrf = some v) {p : Prefix} (hp : p.Canonical)
    (hquiet : ∀ d, (e.run d vrf p).queue = e.queue) :
    (∀ vn o x name label policy, e.tables.firstRoute? r.bridges.entries p = some (vn, o) →
      o.findKind? .localVm = some x → x.hop = .interface name label policy →
      e.tables.IsVm name →
      ∃ y, e.tables.path? vrf (.evpn (.type5 p)) e.params.exportPeer = some y ∧
        y.hop.key = .interface name policy ∧
        y.attrs = { x.attrs with
          destVns := [vn], vni := v.vni, tunnelTypes := .vxlan, ecmpSequence := 0 } ∧
        ((∀ z ∈ e.tables.paths vrf (.evpn (.type5 p)), z.peer ≠ e.params.exportPeer →
            z.peer ≠ e.params.leakPeer → ¬ z.Before y) →
          ∃ w, e.tables.path? vrf (.inet p) e.params.leakPeer = some w ∧
            w.hop.key = y.hop.key ∧ w.attrs = y.attrs)) ∧
      ((∀ vn o, e.tables.firstRoute? r.bridges.entries p = some (vn, o) →
          o.findKind? .localVm = none) →
        e.tables.path? vrf (.evpn (.type5 p)) e.params.exportPeer = none ∧
          ((∀ z ∈ e.tables.paths vrf (.evpn (.type5 p)), z.peer = e.params.leakPeer) →
            e.tables.path? vrf (.inet p) e.params.leakPeer = none)) := by
  have hbridges : e.routers.bridgesOf vrf = r.bridges.entries :=
    RouterMap.bridgesOf_of_sole hs hr hvrf hsole
  have hexport := View.exported_of_firstRoute? ht.proper hp hv
  rw [hbridges] at hexport
  have hidle : Accords (e.tables.path? vrf (.evpn (.type5 p)) e.params.exportPeer)
      (e.exported vrf p) := idle_of_run hs (hquiet .fromBridges)
  have hleak : Accords (e.tables.path? vrf (.inet p) e.params.leakPeer) (e.leakedInet vrf p) :=
    idle_of_run hs (hquiet .toInet)
  refine ⟨fun vn o x name label policy ho hx hhop hvm => ?_, fun hnone => ?_⟩
  · have hkey : x.hop.key = .interface name policy := by rw [hhop]; rfl
    rw [hexport, ho, Option.bind_some, hx, Option.bind_some,
      View.localAdvertisement_interface hkey hvm] at hidle
    obtain ⟨y, hy, hykey, hyattrs⟩ := accords_some hidle
    refine ⟨y, hy, hykey, hyattrs, fun hfirst => ?_⟩
    obtain ⟨hymem, hypeer⟩ := Tables.mem_of_path? hy
    have hbest : ((e.tables.paths vrf (.evpn (.type5 p))).find? fun z =>
        decide (z.peer ≠ e.params.leakPeer)) = some y := by
      refine (ht.proper.ranked _ _).find?_eq_some hymem ?_ ?_
      · rw [hypeer]
        exact hc.peers_ne
      · intro z hz hne
        by_cases hzp : z.peer = e.params.exportPeer
        · -- the peer has no second path
          have hzy : z = y := by
            have hfind := (ht.proper.mem_paths_iff _ _ z).mp hz
            rw [hzp, hy] at hfind
            exact (Option.some.inj hfind).symm
          rw [hzy]
          exact Path.before_irrefl y
        · exact hfirst z hz hzp hne
    rw [View.leakedInet_eq ht.proper, hp.eq, hbest, Option.bind_some,
      View.mirror_interface hykey hvm] at hleak
    obtain ⟨w, hw, hwkey, hwattrs⟩ := accords_some hleak
    refine ⟨w, hw, hwkey.trans hykey.symm, ?_⟩
    rw [hwattrs, hyattrs]
    rfl
  · have hwant : e.exported vrf p = none := by
      rw [hexport]
      cases ho : e.tables.firstRoute? r.bridges.entries p with
      | none => rfl
      | some o =>
        rw [Option.bind_some, hnone o.1 o.2 ho]
        rfl
    rw [hwant] at hidle
    refine ⟨accords_none hidle, fun hall => ?_⟩
    have hbest : ((e.tables.paths vrf (.evpn (.type5 p))).find? fun z =>
        decide (z.peer ≠ e.params.leakPeer)) = none :=
      List.find?_eq_none.mpr fun z hz => by simp [hall z hz]
    rw [View.leakedInet_eq ht.proper, hp.eq, hbest, Option.bind_none] at hleak
    exact accords_none hleak

/-- A machine's network stands in both tables of the routing VRF. -/
theorem settled_export_passedOn :
    ∃ y w, Sample.passedOn.tables.path? "routing" (.evpn (.type5 Sample.subnet))
        Sample.params.exportPeer = some y ∧
      Sample.passedOn.tables.path? "routing" (.inet Sample.subnet) Sample.params.leakPeer =
        some w ∧
      w.hop.key = .interface "tap" false ∧ w.attrs = y.attrs ∧ y.attrs.destVns = ["bridge-vn"] := by
  have hrouter : Sample.passedOn.routers.router? Sample.router =
      some ⟨some "routing-vn", some "routing", ⟨[("bridge-vn", "bridge")]⟩, 0⟩ := by decide +kernel
  have hsole : ∀ id r, Sample.passedOn.routers.router? id = some r →
      r.routingVrf = some "routing" → id = Sample.router := fun _ _ hr hvrf =>
    Sample.configured.coherent.router_unique Sample.apart hr hrouter hvrf rfl
  obtain ⟨v, hv⟩ : ∃ v, Sample.passedOn.tables.vrfs.get? "routing" = some v :=
    Option.ne_none_iff_exists'.mp (by decide +kernel)
  have hquiet : ∀ d, (Sample.passedOn.run d "routing" Sample.subnet).queue =
      Sample.passedOn.queue := by
    intro d
    cases d <;> decide +kernel
  obtain ⟨y, hy, hkey, hattrs, hleak⟩ := (settled_export Sample.passedOn Sample.fromConfig
    Sample.filled_passedOn Sample.configured.coherent.sorted hrouter rfl hsole hv (by decide)
    hquiet).1 "bridge-vn" ⟨Sample.subnet, [⟨⟨"machine", .localVm⟩, .interface "tap" 3 false, {}⟩]⟩
    ⟨⟨"machine", .localVm⟩, .interface "tap" 3 false, {}⟩ "tap" 3 false (by decide +kernel) rfl rfl
    (by decide +kernel)
  have hfirst : ∀ z ∈ Sample.passedOn.tables.paths "routing" (.evpn (.type5 Sample.subnet)),
      z.peer = Sample.params.exportPeer := by decide +kernel
  obtain ⟨w, hw, hwkey, hwattrs⟩ := hleak fun z hz hne _ => absurd (hfirst z hz) hne
  exact ⟨y, w, hy, hw, hwkey.trans hkey, hwattrs, by rw [hattrs]⟩

end Engine

end VxlanRouting
