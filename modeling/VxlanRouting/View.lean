import VxlanRouting.LogicalRouter.Role
import VxlanRouting.Parameters
import VxlanRouting.Tables

/-!
The state that decisions look at, and questions about it: which next-hops lead to machines of this
host, which of them speak BGP, and which hardware address another router has.
-/
namespace VxlanRouting

structure View where
  params : Parameters
  tables : Tables := {}
  routers : RouterMap := {}
  deriving DecidableEq

namespace Tables

/-- The interface belongs to a virtual machine. -/
def IsVm (db : Tables) (name : String) : Prop := ∃ i ∈ db.interfaces.get? name, i.isVm = true

instance (db : Tables) (name : String) : Decidable (db.IsVm name) :=
  decidable_of_iff ((db.interfaces.get? name).any (·.isVm) = true)
    (by simp [IsVm, Option.any_eq_true, Option.mem_def])

/-- A labelled interface next-hop with a session on a primary address of the interface. -/
def IsSessionInterface (db : Tables) (h : NextHop) : Prop :=
  match h with
  | .interface name label _ => label ≠ noLabel ∧
    ∃ i ∈ db.interfaces.get? name, ∃ a ∈ i.primaryAddresses, db.sessions.Has ⟨name, a⟩
  | _ => False

instance (db : Tables) (name : String) :
    Decidable (∃ i ∈ db.interfaces.get? name,
      ∃ a ∈ i.primaryAddresses, db.sessions.Has ⟨name, a⟩) :=
  decidable_of_iff ((db.interfaces.get? name).any (fun i => i.primaryAddresses.any fun a =>
    decide (db.sessions.Has ⟨name, a⟩)) = true)
    (by simp [Option.any_eq_true, Option.mem_def])

instance (db : Tables) (h : NextHop) : Decidable (db.IsSessionInterface h) := by
  unfold IsSessionInterface
  cases h <;> infer_instance

/-- A composite with such a next-hop among its live members. -/
def IsSessionComposite (db : Tables) (h : NextHop) : Prop :=
  ∃ ms ∈ h.live?, ∃ m ∈ ms, db.IsSessionInterface m.hop

instance (db : Tables) (h : NextHop) : Decidable (db.IsSessionComposite h) :=
  decidable_of_iff
    (h.live?.any (fun ms => ms.any fun m => decide (db.IsSessionInterface m.hop)) = true)
    (by simp [IsSessionComposite, Option.any_eq_true, Option.mem_def])

end Tables

/-- The tunnel of a path that a control node owns. -/
def Path.controlTunnel? (x : Path) : Option Tunnel :=
  match x.hop with
  | .tunnel t => if x.peer.kind = .bgp then some t else none
  | _ => none

namespace View

/-- The hardware address of a router, from the host route to it in the fabric VRF. -/
def routerMac? (v : View) (a : Address) : Option Mac :=
  match v.tables.route? v.params.fabricVrf (.inet (.host a)) with
  | some r => r.paths.findSome? fun x => (x.controlTunnel?.map (·.mac)).filter (· ≠ Mac.zero)
  | none => none

/-- The tunnel to a router; a hardware address that is not known is looked up. -/
def tunnelTo (v : View) (a : Address) (m : Mac) (t : TunnelTypes) : Tunnel :=
  ⟨a, if m = Mac.zero then (v.routerMac? a).getD Mac.zero else m, t⟩

end View

end VxlanRouting
