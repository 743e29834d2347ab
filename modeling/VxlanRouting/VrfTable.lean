import VxlanRouting.Vrf

/-!
The table of VRFs, by name and by network identifier. A name and an identifier are each taken once.
-/
namespace VxlanRouting

/-- Why a VRF cannot be added or found. -/
inductive VrfError where
  | unknown (name : String)
  | unknownVni (vni : Vni)
  | taken (name : String)
  | badVni (cause : VniError)
  | vniTaken
  deriving DecidableEq, Repr

def VrfError.message : VrfError → String
  | .unknown name => "No VRF named '" ++ name ++ "'"
  | .unknownVni v => "No VRF named 'vni " ++ toString v ++ "'"
  | .taken name => "A VRF named '" ++ name ++ "' already exists"
  | .badVni e => "Invalid VNI: " ++ e.message
  | .vniTaken => "Internal error: Vni already in use"

structure VrfTable where
  byName : OrderedMap String Vrf := ∅
  /-- The name of the VRF that has an identifier. -/
  byVni : OrderedMap Vni String := ∅
  deriving DecidableEq

namespace VrfTable

def get? (t : VrfTable) (name : String) : Option Vrf := t.byName.get? name

def get (t : VrfTable) (name : String) : Except VrfError Vrf :=
  match t.get? name with
  | some v => .ok v
  | none => .error (.unknown name)

def getByVni (t : VrfTable) (n : Nat) : Except VrfError Vrf :=
  match Vni.ofNat n with
  | .error e => .error (.badVni e)
  | .ok vni =>
    match t.byVni.get? vni with
    | none => .error (.unknownVni vni)
    | some name => t.get name

def size (t : VrfTable) : Nat := t.byName.size

/-- Adds a VRF with empty tables. -/
def add (t : VrfTable) (name : String) (vni : Option Nat) : Except VrfError VrfTable :=
  match vni.map Vni.ofNat with
  | some (.error e) => .error (.badVni e)
  | some (.ok vni) =>
    if t.byName.contains name then .error (.taken name)
    else if t.byVni.contains vni then .error .vniTaken
    else .ok ⟨t.byName.insert name { name, vni := some vni }, t.byVni.insert vni name⟩
  | none =>
    if t.byName.contains name then .error (.taken name)
    else .ok { t with byName := t.byName.insert name { name } }

/-- Removes a VRF and frees its identifier. -/
def remove (t : VrfTable) (name : String) : Except VrfError (Vrf × VrfTable) :=
  match t.get? name with
  | none => .error (.unknown name)
  | some v =>
    let byVni := match v.vni with
      | some vni => t.byVni.erase vni
      | none => t.byVni
    .ok (v, ⟨t.byName.erase name, byVni⟩)

/-- Changes the VRF of a name, if there is one. -/
def modify (t : VrfTable) (name : String) (f : Vrf → Vrf) : VrfTable :=
  { t with byName := t.byName.modify name f }

def setVn (t : VrfTable) (name : String) (vn : Option String) : Except VrfError VrfTable :=
  if t.byName.contains name then .ok (t.modify name fun v => { v with vn })
  else .error (.unknown name)

/-- The VRFs in order of name. -/
def vrfs (t : VrfTable) : List Vrf := t.byName.values

@[simp] theorem get?_modify_self (t : VrfTable) (name : String) (f : Vrf → Vrf) :
    (t.modify name f).get? name = (t.get? name).map f := by
  simp [modify, get?]

theorem get?_modify_of_ne (t : VrfTable) {name name' : String} (f : Vrf → Vrf) (h : name' ≠ name) :
    (t.modify name f).get? name' = t.get? name' :=
  OrderedMap.get?_modify_of_ne _ _ h

end VrfTable

end VxlanRouting
