import VxlanRouting.Address.Basic
import VxlanRouting.Mac
import VxlanRouting.Map.Ordered

/-!
Interfaces of this host and the table of them by name. The interface of a virtual machine may have
one primary address of each family.
-/
namespace VxlanRouting

/-- What is known of the interface of a virtual machine. -/
structure VmLink where
  mac : Mac := Mac.zero
  vn : Option String := none
  primaryV4 : Option Address := none
  primaryV6 : Option Address := none
  deriving DecidableEq, Repr

inductive InterfaceKind where
  | vm (link : VmLink)
  | physical
  | inet
  deriving DecidableEq, Repr

structure Interface where
  name : String
  kind : InterfaceKind
  label : Nat
  deriving DecidableEq, Repr

/-- Why an interface cannot be added or changed. -/
inductive InterfaceError where
  | unknown (name : String)
  | taken (name : String)
  deriving DecidableEq, Repr

def InterfaceError.message : InterfaceError → String
  | .unknown name => "No interface named '" ++ name ++ "'"
  | .taken name => "An interface named '" ++ name ++ "' already exists"

namespace Interface

def vmLink? (i : Interface) : Option VmLink :=
  match i.kind with
  | .vm link => some link
  | _ => none

def isVm (i : Interface) : Bool := i.vmLink?.isSome

def mac? (i : Interface) : Option Mac := i.vmLink?.map (·.mac)

/-- The primary addresses, version 4 first. -/
def primaryAddresses (i : Interface) : List Address :=
  match i.vmLink? with
  | some link => link.primaryV4.toList ++ link.primaryV6.toList
  | none => []

/-- Sets the primary address of the address's family; only a virtual machine's interface has one. -/
def withPrimary (i : Interface) (a : Address) : Interface :=
  match i.kind with
  | .vm link =>
    match a.family with
    | .v4 => { i with kind := .vm { link with primaryV4 := some a } }
    | .v6 => { i with kind := .vm { link with primaryV6 := some a } }
  | _ => i

end Interface

abbrev InterfaceTable := OrderedMap String Interface

namespace InterfaceTable

/-- Adds or replaces the interface of this name. -/
def put (t : InterfaceTable) (i : Interface) : InterfaceTable := t.insert i.name i

def add (t : InterfaceTable) (i : Interface) : Except InterfaceError InterfaceTable :=
  if t.contains i.name then .error (.taken i.name) else .ok (t.put i)

def replace (t : InterfaceTable) (i : Interface) : Except InterfaceError InterfaceTable :=
  if t.contains i.name then .ok (t.put i) else .error (.unknown i.name)

end InterfaceTable

end VxlanRouting
