import VxlanRouting.Document.Yaml.Layout
import VxlanRouting.Document.Yaml.Scalar

/-!
Nodes of YAML documents. A key or a value is a scalar or a reference to a node with an anchor; where
none is written it is an empty scalar. A document is one mapping of such nodes, which may have an
anchor and a tag of its own. Nothing but marks of the document's end may follow it.
-/
namespace VxlanRouting.Yaml

inductive Node where
  | scalar (anchor : Option (List Char)) (s : Scalar)
  | reference (name : List Char)
  deriving DecidableEq, Repr

/-- A mapping with the name of its own anchor. -/
structure Mapping where
  anchor : Option (List Char) := none
  entries : List (Node × Node) := []
  deriving DecidableEq, Repr

namespace Node

/-- What stands where no node is written. -/
def absent : Node := .scalar none {}

/-- The anchor and the tag at the front, in either order, and the tokens behind them. -/
def properties : List Token → Option (List Char) × Option Tag × List Token
  | .anchor a :: .tag t :: ts => (some a, some t, ts)
  | .tag t :: .anchor a :: ts => (some a, some t, ts)
  | .anchor a :: ts => (some a, none, ts)
  | .tag t :: ts => (none, some t, ts)
  | ts => (none, none, ts)

/-- What a tag stands for, if there is one; `none` if its handle is not known. -/
def fullTag? (handles : Handles) : Option Tag → Option (Option (List Char))
  | none => some none
  | some t => (t.full? handles).map some

/-- Reads a node. An anchor or a tag with no scalar behind it belongs to an empty one. -/
def ofTokens? (handles : Handles) (ts : List Token) : Option (Node × List Token) :=
  match ts with
  | .reference n :: ts => some (.reference n, ts)
  | ts =>
    let (anchor, tag, r) := properties ts
    match fullTag? handles tag, r with
    | none, _ => none
    | some tag, .scalar plain s :: r => some (.scalar anchor ⟨plain, tag, s⟩, r)
    | some _, .blockStart :: _ => none
    | some _, .flowStart :: _ => none
    | some tag, r =>
      if anchor.isSome || tag.isSome then some (.scalar anchor ⟨true, tag, []⟩, r) else none

/-- Reads a node that is absent if one of the given tokens comes first. -/
def orAbsent? (handles : Handles) (ends : List Token) (ts : List Token) :
    Option (Node × List Token) :=
  if ts.head?.any ends.contains then some (absent, ts) else ofTokens? handles ts

/-- Reads the value behind a key; without a colon it is absent. -/
def value? (handles : Handles) (ends : List Token) (ts : List Token) : Option (Node × List Token) :=
  match ts with
  | .value :: ts => orAbsent? handles ends ts
  | ts => some (absent, ts)

end Node

namespace Mapping

/-- Reads the entries of a mapping outside braces, up to its end. -/
def blockEntries? (handles : Handles) :
    Nat → List Token → Option (List (Node × Node) × List Token)
  | 0, _ => none
  | _ + 1, .blockEnd :: ts => some ([], ts)
  | fuel + 1, .key :: ts => do
    let (k, ts) ← Node.orAbsent? handles [.key, .value, .blockEnd] ts
    let (v, ts) ← Node.value? handles [.key, .value, .blockEnd] ts
    let (es, ts) ← blockEntries? handles fuel ts
    some ((k, v) :: es, ts)
  | _ + 1, _ => none

/-- Reads an entry within braces. A node that is not told as a key is one without a value. -/
def flowEntry? (handles : Handles) (ts : List Token) : Option ((Node × Node) × List Token) :=
  match ts with
  | .key :: ts => do
    let (k, ts) ← Node.orAbsent? handles [.value, .comma, .flowEnd] ts
    let (v, ts) ← Node.value? handles [.comma, .flowEnd] ts
    some ((k, v), ts)
  | ts => (Node.ofTokens? handles ts).map fun (k, ts) => ((k, Node.absent), ts)

/-- Reads the entries within braces, up to the closing one. A comma may stand behind the last. -/
def flowEntries? (handles : Handles) :
    Nat → List Token → Option (List (Node × Node) × List Token)
  | 0, _ => none
  | _ + 1, .flowEnd :: ts => some ([], ts)
  | fuel + 1, ts =>
    match flowEntry? handles ts with
    | some (e, .comma :: ts) => (flowEntries? handles fuel ts).map fun (es, ts) => (e :: es, ts)
    | some (e, .flowEnd :: ts) => some ([e], ts)
    | _ => none

/-- Reads a mapping. -/
def ofTokens? (handles : Handles) (ts : List Token) : Option (Mapping × List Token) :=
  let (anchor, tag, r) := Node.properties ts
  match Node.fullTag? handles tag with
  | none => none
  | some _ =>
    match r with
    | .blockStart :: r =>
      (blockEntries? handles (r.length + 1) r).map fun (es, r) => (⟨anchor, es⟩, r)
    | .flowStart :: r =>
      (flowEntries? handles (r.length + 1) r).map fun (es, r) => (⟨anchor, es⟩, r)
    | _ => none

/-- The directives at the front, and the tokens behind them. -/
def directives : List Token → List Directive × List Token
  | .directive d :: ts => let (ds, ts) := directives ts; (d :: ds, ts)
  | ts => ([], ts)

/-- The tokens of a document's node. The start is marked if there are directives. -/
def documentNode? (ds : List Directive) (ts : List Token) : Option (List Token) :=
  match ts with
  | .documentStart :: ts => some ts
  | ts => if ds.isEmpty then some ts else none

/-- Reads the only document of a text. -/
def ofDocument? (ts : List Token) : Option Mapping := do
  let (ds, ts) := directives ts
  let handles ← Directive.handles? ds
  let ts ← documentNode? ds ts
  let (m, ts) ← ofTokens? handles ts
  if ts.all (· == .documentEnd) then some m else none

end Mapping

end VxlanRouting.Yaml
