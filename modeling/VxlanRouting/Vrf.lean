import VxlanRouting.Map.Arrival
import VxlanRouting.Prefix.Map
import VxlanRouting.Route
import VxlanRouting.RouteKey

/-!
A VRF: a table of Inet routes in order of prefix and a table of EVPN routes in order of arrival.
Both are read and written through one route key. A route without paths is not kept.
-/
namespace VxlanRouting

structure Vrf where
  name : String
  /-- The virtual network that the VRF belongs to. -/
  vn : Option String := none
  vni : Option Vni := none
  inet : PrefixMap Route := ∅
  evpn : ArrivalMap EvpnKey Route := ∅
  deriving DecidableEq

namespace Vrf

def route? (v : Vrf) : RouteKey → Option Route
  | .inet p => v.inet.get? p
  | .evpn k => v.evpn.get? k

def path? (v : Vrf) (k : RouteKey) (p : Peer) : Option Path := (v.route? k).bind (·.find? p)

def put (v : Vrf) (k : RouteKey) (r : Route) : Vrf :=
  match k with
  | .inet p => { v with inet := v.inet.insert p r }
  | .evpn k => { v with evpn := v.evpn.insert k r }

def drop (v : Vrf) (k : RouteKey) : Vrf :=
  match k with
  | .inet p => { v with inet := v.inet.erase p }
  | .evpn k => { v with evpn := v.evpn.erase k }

/-- Writes a route, or drops it when it has no path left. -/
def store (v : Vrf) (k : RouteKey) (r : Route) : Vrf := if r.paths = [] then v.drop k else v.put k r

/-- The route of a key, without paths if there is none. -/
def routeOrNew (v : Vrf) (k : RouteKey) : Route := (v.route? k).getD ⟨k.dest, []⟩

/-- All routes with their keys, those of the Inet table first. -/
def routes (v : Vrf) : List (RouteKey × Route) :=
  v.inet.entries.map (fun e => (.inet e.1, e.2)) ++ v.evpn.entries.map fun e => (.evpn e.1, e.2)

/-- Changes every route in its place. -/
def mapRoutes (f : Route → Route) (v : Vrf) : Vrf :=
  { v with inet := v.inet.mapValues fun _ => f, evpn := v.evpn.mapValues fun _ => f }

@[simp] theorem route?_put_self (v : Vrf) (k : RouteKey) (r : Route) :
    (v.put k r).route? k = some r := by
  cases k <;> simp [put, route?]

theorem route?_put_of_ne (v : Vrf) {k k' : RouteKey} (r : Route) (h : k' ≠ k) :
    (v.put k r).route? k' = v.route? k' := by
  cases k <;> cases k' <;> simp only [put, route?]
  · exact OrderedMap.get?_insert_of_ne _ _ fun e => h (by rw [e])
  · exact ArrivalMap.get?_insert_of_ne _ _ fun e => h (by rw [e])

@[simp] theorem route?_drop_self (v : Vrf) (k : RouteKey) : (v.drop k).route? k = none := by
  cases k <;> simp [drop, route?]

theorem route?_drop_of_ne (v : Vrf) {k k' : RouteKey} (h : k' ≠ k) :
    (v.drop k).route? k' = v.route? k' := by
  cases k <;> cases k' <;> simp only [drop, route?]
  · exact OrderedMap.get?_erase_of_ne _ fun e => h (by rw [e])
  · exact ArrivalMap.get?_erase_of_ne _ fun e => h (by rw [e])

theorem route?_store_of_ne (v : Vrf) {k k' : RouteKey} (r : Route) (h : k' ≠ k) :
    (v.store k r).route? k' = v.route? k' := by
  unfold store
  split
  · exact route?_drop_of_ne v h
  · exact route?_put_of_ne v r h

@[simp] theorem route?_mapRoutes (f : Route → Route) (v : Vrf) (k : RouteKey) :
    (v.mapRoutes f).route? k = (v.route? k).map f := by
  cases k <;> simp [mapRoutes, route?]

end Vrf

end VxlanRouting
