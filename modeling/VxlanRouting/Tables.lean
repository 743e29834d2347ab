import VxlanRouting.Locate
import VxlanRouting.Request
import VxlanRouting.Sessions
import VxlanRouting.VrfTable

/-!
The state that routing works on: VRFs, interfaces and sessions. A request changes at most the path
of its peer on its route, and is answered by a notification if it does. After an interface has
changed, the paths that use it are resolved anew.
-/
namespace VxlanRouting

structure Tables where
  vrfs : VrfTable := {}
  interfaces : InterfaceTable := ∅
  sessions : Sessions := {}
  deriving DecidableEq

/-- The path with its next-hop resolved anew, if it uses the interface and still resolves. -/
def Path.refresh (t : InterfaceTable) (name : String) (x : Path) : Path :=
  if x.hop.mentions name then
    match x.hop.key.resolve t with
    | some hop => { x with hop }
    | none => x
  else x

def Route.refresh (t : InterfaceTable) (name : String) (r : Route) : Route :=
  { r with paths := r.paths.map (·.refresh t name) }

namespace Tables

def route? (db : Tables) (vrf : String) (k : RouteKey) : Option Route :=
  (db.vrfs.get? vrf).bind (·.route? k)

def path? (db : Tables) (vrf : String) (k : RouteKey) (p : Peer) : Option Path :=
  (db.route? vrf k).bind (·.find? p)

def locate? (db : Tables) (vrf : String) (t : TableKind) (a : Address) (n : Nat) : Option Route :=
  (db.vrfs.get? vrf).bind (·.locate? t a n)

/-- Changes one route of a VRF; the answer tells of it if the route is not what it was. -/
def update (db : Tables) (vrf : String) (k : RouteKey) (f : Route → Route) :
    Tables × Option Notification :=
  match db.vrfs.get? vrf with
  | none => (db, none)
  | some v =>
    let r := v.routeOrNew k
    if f r = r then (db, none)
    else ({ db with vrfs := db.vrfs.modify vrf (·.store k (f r)) }, some ⟨vrf, k⟩)

def apply (db : Tables) (q : Request) : Tables × Option Notification :=
  match q.action with
  | .withdraw => db.update q.vrf q.key (·.remove q.peer)
  | a =>
    match a.path? db.interfaces q.peer with
    | none => (db, none)
    | some x => db.update q.vrf q.key (·.add x)

/-- Resolves the paths that use an interface anew; the answer tells of the routes that changed, the
VRFs in order of name. -/
def refresh (db : Tables) (name : String) : Tables × List Notification :=
  let f := Route.refresh db.interfaces name
  let changed (v : Vrf) := (v.routes.filter fun e => decide (f e.2 ≠ e.2)).map fun e =>
    Notification.mk v.name e.1
  ({ db with vrfs := { db.vrfs with byName := db.vrfs.byName.mapValues fun _ => Vrf.mapRoutes f } },
    db.vrfs.vrfs.flatMap changed)

end Tables

end VxlanRouting
