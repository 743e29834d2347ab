import VxlanRouting.Engine.Basic

/-!
Reconciling: each direction gets one path of a routing VRF to what its decision wants. A walk of a
router runs all directions for every prefix that its bridges or its routing VRF know.
-/
namespace VxlanRouting.Engine

/-- From the bridges to the EVPN table of the routing VRF. -/
def exportPrefix (e : Engine) (vrf : String) (p : Prefix) : Engine :=
  e.sync vrf (.ofPrefix .evpn p) e.params.exportPeer (e.exported vrf p)

/-- From the EVPN table of a routing VRF to its Inet table. -/
def leakToInet (e : Engine) (vrf : String) (p : Prefix) : Engine :=
  e.sync vrf (.ofPrefix .inet p) e.params.leakPeer (e.leakedInet vrf p)

/-- From the Inet table of a routing VRF to its EVPN table. -/
def leakToEvpn (e : Engine) (vrf : String) (p : Prefix) : Engine :=
  e.sync vrf (.ofPrefix .evpn p) e.params.leakPeer (e.leakedEvpn vrf p)

/-- Exports a prefix of a bridge to the routing VRF of its router, if there is one. -/
def exportFrom (e : Engine) (bridge : String) (p : Prefix) : Engine :=
  match (e.tables.vrfs.get? bridge).bind e.routers.routingVrfOf? with
  | none => e
  | some vrf => e.exportPrefix vrf p

def reconcile (e : Engine) (vrf : String) (p : Prefix) : Engine :=
  ((e.exportPrefix vrf p).leakToInet vrf p).leakToEvpn vrf p

/-- The prefixes in the Inet table of a VRF. -/
def inetPrefixes (e : Engine) (vrf : String) : List Prefix :=
  match e.tables.vrfs.get? vrf with
  | none => []
  | some v => v.inet.values.map (·.dest)

/-- The prefixes that have an EVPN route as such in a VRF. -/
def evpnPrefixes (e : Engine) (vrf : String) : List Prefix :=
  match e.tables.vrfs.get? vrf with
  | none => []
  | some v => (v.evpn.keys.filter fun k => decide k.IsType5).map (·.dest)

/-- The prefixes that a router knows, in ascending order. -/
def knownPrefixes (e : Engine) (r : LogicalRouter) (vrf : String) : List Prefix :=
  ascending (r.bridges.values.flatMap e.inetPrefixes ++ e.evpnPrefixes vrf ++ e.inetPrefixes vrf)

def walk (e : Engine) (id : LogicalRouterId) : Engine :=
  match e.routers.router? id with
  | none => e
  | some r =>
    match r.routingVrf with
    | none => e
    | some vrf => (e.knownPrefixes r vrf).foldl (fun e p => e.reconcile vrf p) e

/-- The withdrawals of what the engine owns on a route. -/
def withdrawals (e : Engine) (vrf : String) (k : RouteKey) (r : Route) : List Request :=
  ([e.params.exportPeer, e.params.leakPeer].filter fun p => (r.find? p).isSome).map fun p =>
    ⟨vrf, k, p, .withdraw⟩

/-- Withdraws all that the engine owns in a VRF. -/
def withdrawAll (e : Engine) (vrf : String) : Engine :=
  match e.tables.vrfs.get? vrf with
  | none => e
  | some v => { e with queue := e.queue ++ v.routes.flatMap fun r => e.withdrawals vrf r.1 r.2 }

/-- Installs a route item under the peer that delivered it. -/
def updateItem (e : Engine) (peer : Peer) (vrf : String) (p : Prefix) (item : RouteItem) :
    Except Fault Engine :=
  match e.tables.vrfs.get? vrf with
  | none => .ok e
  | some _ => (e.itemAdvertisement vrf item).map (e.sync vrf (.ofPrefix item.table p) peer ·)

/-- Removes the path of a route item. -/
def withdrawItem (e : Engine) (peer : Peer) (vrf : String) (p : Prefix) (t : TableKind) : Engine :=
  e.sync vrf (.ofPrefix t p) peer none

end VxlanRouting.Engine
