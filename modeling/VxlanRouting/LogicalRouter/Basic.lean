import VxlanRouting.Address.Groups
import VxlanRouting.Map.Arrival
import VxlanRouting.Text.Numeral
import VxlanRouting.Text.Pieces

/-!
Logical routers. One has at most one routing VN, whose VRF is its routing VRF, and any number of
bridge VNs in the order in which they were attached. It counts the ECMP sequences that it has given
out. Its identifier is a number of 128 bits, written as thirty-two hexadecimal digits in five parts.
-/
namespace VxlanRouting

open Text

structure LogicalRouterId where
  value : Nat
  value_lt : value < 1 <<< 128
  deriving DecidableEq, Repr

namespace LogicalRouterId

instance : LT LogicalRouterId := ⟨fun a b => a.value < b.value⟩

instance : DecidableLT LogicalRouterId := fun a b =>
  inferInstanceAs (Decidable (a.value < b.value))

/-- The numbers of digits of the five parts. -/
def partLengths : List Nat := [8, 4, 4, 4, 12]

/-- Cuts a list into parts of given lengths. -/
def split {α : Type} : List Nat → List α → List (List α)
  | [], _ => []
  | n :: ns, l => l.take n :: split ns (l.drop n)

def text (id : LogicalRouterId) : List Char :=
  joined '-' (split partLengths ((groups 4 32 id.value).flatMap (numeral 16)))

instance : ToString LogicalRouterId := ⟨fun id => String.ofList id.text⟩

def ofText? (s : List Char) : Option LogicalRouterId :=
  if (pieces '-' s).map List.length = partLengths then
    match natural? 16 (pieces '-' s).flatten with
    | some n => if h : n < 1 <<< 128 then some ⟨n, h⟩ else none
    | none => none
  else none

end LogicalRouterId

structure LogicalRouter where
  routingVn : Option String := none
  routingVrf : Option String := none
  /-- The VRF of each bridge VN. -/
  bridges : ArrivalMap String String := ∅
  ecmpSequence : Nat := 0
  deriving DecidableEq

namespace LogicalRouter

/-- A router without VNs is not kept. -/
def isEmpty (r : LogicalRouter) : Bool := r.routingVn.isNone && r.bridges.isEmpty

/-- The router has the VN, in either role. -/
def Lists (r : LogicalRouter) (vn : String) : Prop :=
  r.routingVn = some vn ∨ r.bridges.contains vn = true

instance (r : LogicalRouter) (vn : String) : Decidable (r.Lists vn) :=
  inferInstanceAs (Decidable (_ ∨ _))

/-- The router without a VN. -/
def without (r : LogicalRouter) (vn : String) : LogicalRouter :=
  let r := if r.routingVn = some vn then { r with routingVn := none, routingVrf := none } else r
  { r with bridges := r.bridges.erase vn }

@[simp] theorem ecmpSequence_without (r : LogicalRouter) (vn : String) :
    (r.without vn).ecmpSequence = r.ecmpSequence := by
  unfold without; dsimp only; split <;> rfl

theorem not_lists_without (r : LogicalRouter) (vn : String) : ¬ (r.without vn).Lists vn := by
  unfold without Lists
  dsimp only
  split <;> simp_all [ArrivalMap.contains]

end LogicalRouter

end VxlanRouting
