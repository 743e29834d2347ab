import VxlanRouting.Members

/-!
Advertisements: what is to be installed under a peer for a route. The decisions are pure. A prefix
of a bridge is exported as an EVPN route of the routing VRF; EVPN routes of a routing VRF leak into
its Inet table, and tunnels that a control node put into the Inet table leak back as EVPN routes.
-/
namespace VxlanRouting

inductive Advertisement where
  | single (hop : NextHopKey) (attrs : Attributes)
  | ecmp (composite : NextHopKey) (attrs : Attributes)
  | tunnel (tunnel : Tunnel) (attrs : Attributes)
  deriving DecidableEq

/-- An installed path already is what is wanted; the ECMP sequence of a composite does not count. -/
def Advertisement.Matches (a : Advertisement) (x : Path) : Prop :=
  match a with
  | .single hop attrs => x.hop.key = hop ∧ x.attrs = attrs
  | .ecmp composite attrs => x.hop.key = composite ∧ x.attrs.Agrees attrs
  | .tunnel t attrs => x.hop = .tunnel t ∧ x.attrs = attrs

instance (a : Advertisement) (x : Path) : Decidable (a.Matches x) := by
  unfold Advertisement.Matches
  cases a <;> infer_instance

namespace View

/-- A single tunnel carries its label as network identifier, if it is one. -/
def tunnelAdvertisement (v : View) (label : Nat) (t : Tunnel) (attrs : Attributes) :
    Advertisement :=
  .tunnel (v.tunnelTo t.dest t.mac t.types)
    { attrs.advertised t.types with vni := (Vni.ofNat? label).or attrs.vni }

/-- Nothing for no member, a route of its own for one, and a composite for more. -/
def ofMembers (v : View) (ms : List MemberKey) (attrs : Attributes) : Option Advertisement :=
  match ms with
  | [] => none
  | [⟨label, .tunnel t⟩] => some (v.tunnelAdvertisement label t attrs)
  | [⟨_, hop⟩] => some (.single hop (attrs.advertised .vxlan))
  | ms =>
    let kind := if ms.all (·.key.isInterface) then .localEcmp else .ecmp
    some (.ecmp (.composite kind ms) (attrs.advertised .vxlan))

/-- A live member is of use if it leads to a machine of this host or, where they are wanted, through
a tunnel. -/
def IsUsable (v : View) (tunnels : Bool) (h : NextHop) : Prop :=
  match h with
  | .interface name _ _ => v.tables.IsVm name
  | .tunnel _ => tunnels = true
  | _ => False

instance (v : View) (tunnels : Bool) (h : NextHop) : Decidable (v.IsUsable tunnels h) :=
  match h with
  | .interface name _ _ => inferInstanceAs (Decidable (v.tables.IsVm name))
  | .tunnel _ => instDecidableEqBool tunnels true
  | .composite _ _ _ | .vrf _ | .receive | .discard => .isFalse id

def usableMembers (v : View) (tunnels : Bool) (slots : List Slot) : List MemberKey :=
  ((slots.filterMap Slot.member?).filter fun m => v.IsUsable tunnels m.hop).map LiveMember.toKey

/-- The advertisement of a local next-hop: the interface of a machine, or a composite of such. -/
def localAdvertisement (v : View) (h : NextHop) (attrs : Attributes) : Option Advertisement :=
  match h with
  | .interface name _ policy =>
    if v.tables.IsVm name then
      some (.single (.interface name policy) (attrs.advertised .vxlan))
    else none
  | .composite _ _ slots => v.ofMembers (v.usableMembers false slots) attrs
  | _ => none

/-- What a routing VRF exports for a prefix: the local path of the first bridge that has the prefix,
under the VN of the bridge and the network identifier of the routing VRF. -/
def exported (v : View) (vrf : String) (p : Prefix) : Option Advertisement := do
  let (vn, bridge) ← v.routers.origin? v.tables.vrfs vrf p.network p.length
  let r ← v.tables.locate? bridge .inet p.network p.length
  let x ← r.findKind? .localVm
  let routing ← v.tables.vrfs.get? vrf
  v.localAdvertisement x.hop { x.attrs with destVns := [vn], vni := routing.vni }

/-- What leaks into the Inet table of a routing VRF: the best EVPN path that has not leaked there
itself. -/
def leakedInet (v : View) (vrf : String) (p : Prefix) : Option Advertisement := do
  let r ← v.tables.locate? vrf .evpn p.network p.length
  let x ← r.paths.find? fun x => decide (x.peer ≠ v.params.leakPeer)
  match x.hop with
  | .tunnel t => some (.tunnel (v.tunnelTo t.dest t.mac t.types) (x.attrs.advertised t.types))
  | .composite _ _ slots => v.ofMembers (v.usableMembers true slots) x.attrs
  | h => v.localAdvertisement h x.attrs

/-- What leaks into the EVPN table of a routing VRF: the best Inet tunnel of a control node. -/
def leakedEvpn (v : View) (vrf : String) (p : Prefix) : Option Advertisement := do
  let r ← v.tables.locate? vrf .inet p.network p.length
  let (x, t) ← r.paths.findSome? fun x => x.controlTunnel?.map fun t => (x, t)
  some (.tunnel (v.tunnelTo t.dest t.mac .vxlan) (x.attrs.advertised .vxlan))

/-- The members that a route item asks for: those of its sources if a next-hop is this host, and a
tunnel for every other next-hop. -/
def itemMembers (v : View) (vrf : String) (item : RouteItem) : Except Fault (List MemberKey) :=
  let remote := (item.hops.filter fun h => decide (h.address ≠ v.params.routerId)).map fun h =>
    MemberKey.mk h.label (.tunnel ⟨h.address, h.mac, h.types.preferred⟩)
  if item.hops.any fun h => h.address = v.params.routerId then
    (v.members vrf item.table item.sources).map (· ++ remote)
  else .ok remote

/-- What a route item installs. A member on its own has to be an interface or a tunnel. -/
def itemAdvertisement (v : View) (vrf : String) (item : RouteItem) :
    Except Fault (Option Advertisement) :=
  match v.itemMembers vrf item with
  | .error f => .error f
  | .ok [m] =>
    match m.key.hopKind with
    | .interface | .tunnel => .ok (v.ofMembers [m] item.params.attrs)
    | k => .error (.memberKind k)
  | .ok ms => .ok (v.ofMembers ms item.params.attrs)

end View

end VxlanRouting
