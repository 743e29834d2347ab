/-!
Scalars of YAML documents, and how they are read as texts that may be absent. A plain scalar without
a tag is absent if it is empty or a word for null. One with the tag for null has to be such a word,
and any other scalar is its text.
-/
namespace VxlanRouting.Yaml

structure Scalar where
  plain : Bool := true
  tag : Option (List Char) := none
  chars : List Char := []
  deriving DecidableEq, Repr

/-- The words for null. -/
def nullWords : List String := ["~", "null", "Null", "NULL"]

def nullTag : List Char := "tag:yaml.org,2002:null".toList

def Scalar.text (s : Scalar) : String := String.ofList s.chars

/-- Reads a text that may be absent. -/
def Scalar.optionalText? (s : Scalar) : Option (Option String) :=
  let isNull := nullWords.contains s.text
  if !s.plain then some (some s.text)
  else
    match s.tag with
    | none => some (if s.chars.isEmpty || isNull then none else some s.text)
    | some t => if t = nullTag then if isNull then some none else none else some (some s.text)

end VxlanRouting.Yaml
