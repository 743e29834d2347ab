import VxlanRouting.Document.Yaml.Tag

/-!
Directives: lines behind a percent sign that stand before a document. They tell the version, which
is 1.1 or 1.2 and told only once, and what the handles of tags stand for, each of them told only
once.
-/
namespace VxlanRouting.Yaml

inductive Directive where
  | version (major minor : Nat)
  | handle (name start : List Char)
  deriving DecidableEq, Repr

namespace Directive

/-- Reads a number of at most nine digits. -/
def number? (s : List Char) : Option (Nat × List Char) :=
  let digits := s.takeWhile Char.isDigit
  if digits.length ≤ 9 then
    (Text.natural? 10 digits).map fun n => (n, s.drop digits.length)
  else none

def version? (s : List Char) : Option (Directive × List Char) :=
  match number? s with
  | some (major, '.' :: r) => (number? r).map fun (minor, r) => (.version major minor, r)
  | _ => none

/-- Reads a handle, which ends with a mark, and the text it stands for. -/
def handle? (s : List Char) : Option (Directive × List Char) :=
  (Yaml.handle? s).bind fun (h, r) =>
    if h.getLast? = some '!' ∧ r.head?.any isSpace then
      (someTagText? true (r.dropWhile isSpace)).bind fun (t, r) =>
        if atBlank r then some (.handle h (beforeZero t), r) else none
    else none

/-- Reads a directive behind its percent sign. The rest starts at the next line. -/
def ofText? (s : List Char) : Option (Directive × List Char) :=
  let name := s.takeWhile isNameChar
  let r := s.drop name.length
  let argument := r.dropWhile isSpace
  let d :=
    if !atBlank r then none
    else if name = "YAML".toList then version? argument
    else if name = "TAG".toList then handle? argument
    else none
  d.bind fun (d, r) => (nextLine? r).map fun r => (d, r)

def toVersion? : Directive → Option (Nat × Nat)
  | .version major minor => some (major, minor)
  | .handle .. => none

def toHandle? : Directive → Option (List Char × List Char)
  | .version .. => none
  | .handle name start => some (name, start)

/-- The handles that are known behind a document's directives. -/
def handles? (ds : List Directive) : Option Handles :=
  let versions := ds.filterMap toVersion?
  let told := ds.filterMap toHandle?
  if versions.length ≤ 1 ∧ (∀ v ∈ versions, v.1 = 1 ∧ (v.2 = 1 ∨ v.2 = 2)) ∧
      (told.map (·.1)).Nodup then
    some (told ++ defaultHandles)
  else none

end Directive

end VxlanRouting.Yaml
