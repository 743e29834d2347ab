import VxlanRouting.LogicalRouter.Basic
import VxlanRouting.Map.Ordered

/-!
The map of logical routers, with an index from each VN to the router that it belongs to. The
configuration of VNs changes the map; a VN leaves its old router before it joins a new one, and a
router that has lost its last VN is forgotten.
-/
namespace VxlanRouting

/-- The configuration of a VN. -/
structure VnConfig where
  name : String
  vrf : String
  router : Option LogicalRouterId
  /-- The VN is the routing VN of its router. -/
  routing : Bool
  deriving DecidableEq, Repr

structure RouterMap where
  routers : OrderedMap LogicalRouterId LogicalRouter := ∅
  owners : OrderedMap String LogicalRouterId := ∅
  deriving DecidableEq

namespace RouterMap

def router? (m : RouterMap) (id : LogicalRouterId) : Option LogicalRouter := m.routers.get? id

/-- The router that a VN belongs to. -/
def ownerOf? (m : RouterMap) (vn : String) : Option LogicalRouterId := m.owners.get? vn

/-- The identifiers in ascending order. -/
def ids (m : RouterMap) : List LogicalRouterId := m.routers.keys

/-- Writes a router, or forgets it if it has no VNs. -/
def store (m : OrderedMap LogicalRouterId LogicalRouter) (id : LogicalRouterId)
    (r : LogicalRouter) : OrderedMap LogicalRouterId LogicalRouter :=
  if r.isEmpty then m.erase id else m.insert id r

/-- Takes a VN from its router, and tells which one that was. -/
def detach (m : RouterMap) (vn : String) : RouterMap × Option LogicalRouterId :=
  match m.ownerOf? vn with
  | none => (m, none)
  | some id =>
    let routers := match m.router? id with
      | some r => store m.routers id (r.without vn)
      | none => m.routers
    (⟨routers, m.owners.erase vn⟩, some id)

/-- The router already has the VN in the configured role. -/
def Settled (m : RouterMap) (c : VnConfig) (id : LogicalRouterId) : Prop :=
  m.ownerOf? c.name = some id ∧ ∃ r, m.router? id = some r ∧
    if c.routing then r.routingVn = some c.name ∧ r.routingVrf = some c.vrf
    else r.bridges.get? c.name = some c.vrf

instance (m : RouterMap) (c : VnConfig) (id : LogicalRouterId) : Decidable (m.Settled c id) :=
  match h : m.router? id with
  | none => isFalse fun hs => by obtain ⟨_, r, hr, _⟩ := hs; rw [h] at hr; cases hr
  | some r =>
    decidable_of_iff (m.ownerOf? c.name = some id ∧
      if c.routing then r.routingVn = some c.name ∧ r.routingVrf = some c.vrf
      else r.bridges.get? c.name = some c.vrf) (by simp [Settled, h])

/-- Puts a VN into its router; a routing VN that was there before belongs to no router then. -/
def attach (m : RouterMap) (c : VnConfig) (id : LogicalRouterId) : RouterMap :=
  let r := (m.router? id).getD {}
  if c.routing then
    let owners := match r.routingVn with
      | some vn => m.owners.erase vn
      | none => m.owners
    ⟨m.routers.insert id { r with routingVn := some c.name, routingVrf := some c.vrf },
      owners.insert c.name id⟩
  else
    ⟨m.routers.insert id { r with bridges := r.bridges.insert c.name c.vrf },
      m.owners.insert c.name id⟩

/-- Applies the configuration of a VN, and tells which routers it affects: the one that the VN left
and the one that it is in. -/
def configure (m : RouterMap) (c : VnConfig) : RouterMap × List LogicalRouterId :=
  match c.router with
  | none =>
    let (m, left) := m.detach c.name
    (m, left.toList)
  | some id =>
    if m.Settled c id then (m, [id])
    else
      let (m, left) := m.detach c.name
      (m.attach c id, if left = some id then [id] else left.toList ++ [id])

/-- Writes a router as it is, and makes it the owner of its VNs. -/
def insert (m : RouterMap) (id : LogicalRouterId) (r : LogicalRouter) : RouterMap :=
  let vns := r.routingVn.toList ++ r.bridges.keys
  ⟨m.routers.insert id r, vns.foldl (fun owners vn => owners.insert vn id) m.owners⟩

/-- Forgets a router and all VNs that belong to it. -/
def remove (m : RouterMap) (id : LogicalRouterId) : RouterMap :=
  ⟨m.routers.erase id, ⟨m.owners.entries.filter fun e => decide (e.2 ≠ id)⟩⟩

/-- Gives out the next ECMP sequence of a router; an unknown one has the sequence zero only. -/
def nextSequence (m : RouterMap) (id : LogicalRouterId) : RouterMap × Nat :=
  match m.router? id with
  | none => (m, 0)
  | some r =>
    ({ m with routers := m.routers.insert id { r with ecmpSequence := r.ecmpSequence + 1 } },
      r.ecmpSequence + 1)

/-- The routing VRFs of all routers, in ascending order. -/
def routingVrfs (m : RouterMap) : List String :=
  ascending (m.routers.values.filterMap (·.routingVrf))

end RouterMap

end VxlanRouting
