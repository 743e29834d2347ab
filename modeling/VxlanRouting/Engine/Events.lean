import VxlanRouting.Engine.Process

/-!
Events: the configuration of VNs and the coming and going of interfaces. A VRF that has ceased to be
a routing VRF loses all that the engine owns there. A walk of the routers that an event affects does
the rest.
-/
namespace VxlanRouting.Engine

/-- Takes a VN from every VRF that has it, but the one to keep. -/
def clearVn (e : Engine) (vn : String) (keep : Option String) : Engine :=
  let clear (v : Vrf) : Vrf :=
    if v.vn = some vn ∧ some v.name ≠ keep then { v with vn := none } else v
  let byName := e.tables.vrfs.byName.mapValues fun _ => clear
  { e with tables := { e.tables with vrfs := { e.tables.vrfs with byName } } }

/-- Gives a VN to its VRF alone. -/
def moveVn (e : Engine) (vn vrf : String) : Engine :=
  let e := e.clearVn vn (some vrf)
  let vrfs := e.tables.vrfs.modify vrf fun v => { v with vn := some vn }
  { e with tables := { e.tables with vrfs } }

/-- Changes the routers and withdraws what the engine owns in VRFs that are no routing VRFs now. -/
def setRouters (e : Engine) (routers : RouterMap) : Engine :=
  let lost := e.routers.routingVrfs.filter (· ∉ routers.routingVrfs)
  lost.foldl withdrawAll { e with routers }

def walkAll (e : Engine) (ids : List LogicalRouterId) : Engine := ids.foldl walk e

/-- Applies the configuration of a VN, whose VRF has to exist. -/
def updateVn (e : Engine) (c : VnConfig) : Except VrfError Engine :=
  match e.tables.vrfs.get? c.vrf with
  | none => .error (.unknown c.vrf)
  | some _ =>
    let (routers, affected) := e.routers.configure c
    .ok (((e.moveVn c.name c.vrf).setRouters routers).walkAll affected)

/-- Forgets a VN. -/
def deleteVn (e : Engine) (vn : String) : Engine :=
  let (routers, left) := e.routers.detach vn
  ((e.clearVn vn none).setRouters routers).walkAll left.toList

/-- Resolves the paths that use an interface anew and walks all routers. -/
def notifyInterface (e : Engine) (name : String) : Engine :=
  let (tables, changed) := e.tables.refresh name
  let e : Engine := changed.foldl notify { e with tables }
  e.walkAll e.routers.ids

def setInterfaces (e : Engine) (interfaces : InterfaceTable) : Engine :=
  { e with tables := { e.tables with interfaces } }

/-- Adds or replaces an interface. -/
def updateInterface (e : Engine) (i : Interface) : Engine :=
  (e.setInterfaces (e.tables.interfaces.put i)).notifyInterface i.name

/-- Removes an interface; an unknown one changes nothing. -/
def deleteInterface (e : Engine) (name : String) : Engine :=
  if e.tables.interfaces.contains name then
    (e.setInterfaces (e.tables.interfaces.erase name)).notifyInterface name
  else e

end VxlanRouting.Engine
