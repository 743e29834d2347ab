/-!
Data of documents: what a stored value or a configuration is read from, whatever the document's
format. A record may name a member more than once; who reads it decides what that means.
-/
namespace VxlanRouting

inductive Datum where
  | null
  | flag (value : Bool)
  | integer (value : Int)
  /-- Any other number. -/
  | real
  | text (value : String)
  | list (items : List Datum)
  | record (members : List (String × Datum))

instance : Inhabited Datum := ⟨.null⟩

namespace Datum

/-- The text that a datum is; `none` for other data. -/
def text? : Datum → Option String
  | .text s => some s
  | _ => none

/-- A text that may be absent or null. -/
def optionalText? : Option Datum → Option (Option String)
  | none => some none
  | some .null => some none
  | some (.text s) => some (some s)
  | some _ => none

/-- The first member of a name. -/
def member? (name : String) (members : List (String × Datum)) : Option Datum :=
  (members.find? fun m => m.1 == name).map (·.2)

end Datum

end VxlanRouting
