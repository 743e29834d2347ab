import VxlanRouting.Document.Yaml.Node
import VxlanRouting.Map.Entries

/-!
Anchors of YAML documents. An anchor gets the number of names that are known before it, and a
reference stands for the number that its name has at that place. A number may be given more than
once, since a name that is anchored again counts once; of the nodes with a number the last one is
meant.
-/
namespace VxlanRouting.Yaml

structure Anchors where
  /-- The number that a name has now. -/
  numbers : List (List Char × Nat) := []
  /-- The scalars by their numbers, the last one first; a mapping is none. -/
  scalars : List (Nat × Option Scalar) := []
  deriving DecidableEq, Repr

/-- A scalar, or the number of the node that stands for one. -/
inductive Target where
  | scalar (s : Scalar)
  | number (n : Nat)
  deriving DecidableEq, Repr

namespace Anchors

def insert (a : Anchors) (name : List Char) (s : Option Scalar) : Anchors :=
  let n := a.numbers.length
  ⟨(name, n) :: Entries.erase name a.numbers, (n, s) :: a.scalars⟩

/-- The anchors with that of a node, if it has one. -/
def insertIfNamed (a : Anchors) (name : Option (List Char)) (s : Option Scalar) : Anchors :=
  match name with
  | none => a
  | some n => a.insert n s

/-- What a node stands for, and the anchors behind it; `none` if a name is not known. -/
def target? (a : Anchors) : Node → Option (Target × Anchors)
  | .scalar anchor s => some (.scalar s, a.insertIfNamed anchor (some s))
  | .reference name => (Entries.get? name a.numbers).map fun n => (.number n, a)

/-- What the nodes of entries stand for, and the anchors behind them. -/
def targets? (a : Anchors) : List (Node × Node) → Option (List (Target × Target) × Anchors)
  | [] => some ([], a)
  | (k, v) :: es => do
    let (k, a) ← a.target? k
    let (v, a) ← a.target? v
    let (ts, a) ← targets? a es
    some ((k, v) :: ts, a)

/-- The scalar that a target is; `none` if it is the mapping itself. -/
def scalar? (a : Anchors) : Target → Option Scalar
  | .scalar s => some s
  | .number n => (Entries.get? n a.scalars).join

end Anchors

/-- The keys and values of a mapping, with references followed. -/
def Mapping.scalars? (m : Mapping) : Option (List (Scalar × Scalar)) := do
  let (ts, a) ← (({} : Anchors).insertIfNamed m.anchor none).targets? m.entries
  ts.mapM fun t => do some (← a.scalar? t.1, ← a.scalar? t.2)

end VxlanRouting.Yaml
