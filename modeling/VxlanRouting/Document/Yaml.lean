import VxlanRouting.Document.Yaml.Anchor

/-!
YAML documents that hold one mapping of scalars, with or without braces. Lists, collections within
the mapping and further documents are refused.
-/
namespace VxlanRouting.Yaml

/-- The keys and values of the mapping that a text holds, in their order. -/
def entries? (text : String) : Option (List (Scalar × Scalar)) :=
  (tokens? text.toList).bind fun ts => (Mapping.ofDocument? ts).bind Mapping.scalars?

end VxlanRouting.Yaml
