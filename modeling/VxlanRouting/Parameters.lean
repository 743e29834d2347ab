import VxlanRouting.Address.Text
import VxlanRouting.Path
import VxlanRouting.RouteKey

/-!
Parameters: those of the whole engine, and those of one advertisement. The engine owns paths under
two peers. The export peer owns what comes from bridges, and the leak peer owns what one table of a
routing VRF leaks into the other.
-/
namespace VxlanRouting

structure Parameters where
  /-- The address of this host; next-hops with it are local. -/
  routerId : Address
  /-- The VRF with the routes to other hosts. -/
  fabricVrf : String
  exportPeer : Peer
  leakPeer : Peer
  deriving DecidableEq, Repr

namespace Parameters

def defaultFabricVrf : String := "default-domain:default-project:ip-fabric:__default__"

def defaultExportPeer : Peer := ⟨"routing-vrf-interface-peer", .localExport⟩

def defaultLeakPeer : Peer := ⟨"routing-vrf-vxlan-bgp-peer", .vxlanBgp⟩

instance : ToString Parameters where
  toString p := "Route advertiser config\n" ++
    "  router id     : " ++ toString p.routerId ++ "\n" ++
    "  fabric vrf    : " ++ p.fabricVrf ++ "\n" ++
    "  interface peer: " ++ toString p.exportPeer ++ "\n" ++
    "  vxlan-bgp peer: " ++ toString p.leakPeer ++ "\n"

/-- Parameters of which some are not given yet. -/
structure Draft where
  routerId : Option Address := none
  fabricVrf : Option String := none
  exportPeer : Option Peer := none
  leakPeer : Option Peer := none
  deriving DecidableEq, Repr

/-- A draft lacks the one parameter that has no default. -/
inductive DraftError where
  | noRouterId
  deriving DecidableEq, Repr

def DraftError.message : DraftError → String
  | .noRouterId => "`router_id` must be initialized"

/-- Fills in the defaults. -/
def Draft.build (d : Draft) : Except DraftError Parameters :=
  match d.routerId with
  | none => .error .noRouterId
  | some routerId =>
    .ok {
      routerId
      fabricVrf := d.fabricVrf.getD defaultFabricVrf
      exportPeer := d.exportPeer.getD defaultExportPeer
      leakPeer := d.leakPeer.getD defaultLeakPeer }

end Parameters

/-- What one advertisement carries. The encapsulation and the ECMP sequence of the attributes do not
count: an advertisement sets its own. -/
structure RouteParameters where
  hopAddress : Option Address := none
  hopMac : Mac := Mac.zero
  attrs : Attributes := {}
  deriving DecidableEq, Repr

namespace RouteParameters

/-- The parameters of an installed path; a tunnel gives its end and its hardware address. -/
def ofPath (x : Path) : RouteParameters :=
  match x.hop with
  | .tunnel t => ⟨some t.dest, t.mac, x.attrs⟩
  | _ => ⟨none, Mac.zero, x.attrs⟩

def withDestVns (p : RouteParameters) (vns : List String) : RouteParameters :=
  { p with attrs := { p.attrs with destVns := vns } }

def withVni (p : RouteParameters) (vni : Option Vni) : RouteParameters :=
  { p with attrs := { p.attrs with vni } }

def withHop (p : RouteParameters) (a : Address) (m : Mac) : RouteParameters :=
  { p with hopAddress := some a, hopMac := m }

/-- The attributes of an advertisement with an encapsulation. -/
def attributes (p : RouteParameters) (t : TunnelTypes) : Attributes := p.attrs.advertised t

end RouteParameters

/-- A next-hop of a route item; the label of a VXLAN tunnel is a network identifier. -/
structure ItemHop where
  address : Address
  label : Nat
  types : TunnelTypes
  mac : Mac
  deriving DecidableEq, Repr

/-- A route as a peer delivers it. The sources name the local routes behind a local next-hop. -/
structure RouteItem where
  table : TableKind
  hops : List ItemHop
  sources : List String
  params : RouteParameters
  deriving DecidableEq, Repr

end VxlanRouting
