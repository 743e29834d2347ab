import VxlanRouting.Locate
import VxlanRouting.LogicalRouter.Map
import VxlanRouting.VrfTable

/-!
The roles of VRFs. A VRF of a routing VN is a routing VRF, and any other VRF with a VN is a bridge.
The bridge that a prefix comes from is the first one in attach order whose Inet table has it.
-/
namespace VxlanRouting.RouterMap

def IsRouting (m : RouterMap) (v : Vrf) : Prop :=
  ∃ vn ∈ v.vn, ∃ id ∈ m.ownerOf? vn, ∃ r ∈ m.router? id,
    r.routingVn = some vn ∧ r.routingVrf = some v.name

instance (m : RouterMap) (v : Vrf) : Decidable (m.IsRouting v) :=
  decidable_of_iff ((v.vn.any fun vn => (m.ownerOf? vn).any fun id => (m.router? id).any fun r =>
    decide (r.routingVn = some vn ∧ r.routingVrf = some v.name)) = true)
    (by simp [IsRouting, Option.any_eq_true, Option.mem_def])

def IsBridge (m : RouterMap) (v : Vrf) : Prop := v.vn ≠ none ∧ ¬ m.IsRouting v

instance (m : RouterMap) (v : Vrf) : Decidable (m.IsBridge v) :=
  inferInstanceAs (Decidable (_ ∧ _))

/-- The first router whose routing VRF has this name. -/
def servedBy? (m : RouterMap) (vrf : String) : Option LogicalRouterId :=
  (m.routers.entries.find? fun e => decide (e.2.routingVrf = some vrf)).map (·.1)

/-- The routing VRF of the router that a bridge is attached to. -/
def routingVrfOf? (m : RouterMap) (v : Vrf) : Option String := do
  let vn ← v.vn
  let r ← m.router? (← m.ownerOf? vn)
  if r.bridges.get? vn = some v.name then r.routingVrf else none

/-- The bridge VNs, with their VRFs, of the router that a routing VRF serves. -/
def bridgesOf (m : RouterMap) (vrf : String) : List (String × String) :=
  match (m.servedBy? vrf).bind m.router? with
  | some r => r.bridges.entries
  | none => []

/-- The first bridge that has a route to exactly this address and length. -/
def origin? (m : RouterMap) (t : VrfTable) (vrf : String) (a : Address) (n : Nat) :
    Option (String × String) :=
  (m.bridgesOf vrf).find? fun b => ((t.get? b.2).bind (·.locate? .inet a n)).isSome

end VxlanRouting.RouterMap
