import VxlanRouting.Document.Yaml.Block
import VxlanRouting.Document.Yaml.Directive
import VxlanRouting.Document.Yaml.Plain

/-!
The signs and texts that YAML documents are written with. Lists and the signs of lists are none of
them, since no document with a list is read.
-/
namespace VxlanRouting.Yaml

/-- How the text of a scalar is written. -/
inductive Style where
  /-- Without signs around it; the flag tells whether the line ends behind it. -/
  | plain (broken : Bool)
  | quoted
  | block
  deriving DecidableEq, Repr

inductive Lexeme where
  | directive (d : Directive)
  | documentStart
  | documentEnd
  | braceOpen
  | braceClose
  | comma
  | question
  | colon
  | anchor (name : List Char)
  | reference (name : List Char)
  | tag (t : Tag)
  | scalar (style : Style) (chars : List Char)
  deriving DecidableEq, Repr

/-- Signs that no plain scalar starts with. -/
def reservedSigns : List Char :=
  [',', '[', ']', '{', '}', '#', '&', '*', '!', '|', '>', '\'', '"', '%', '@', '\x60']

/-- A plain scalar may start here; a dash, a question mark or a colon only before a solid character,
the last two only outside braces. -/
def startsPlain (flow : Bool) : List Char → Bool
  | [] => false
  | c :: s =>
    if isSpaceOrBreak c || reservedSigns.contains c then false
    else if c == '-' then !atBlank s
    else if c == '?' || c == ':' then !flow && !atBlank s
    else true

namespace Lexeme

/-- Reads a scalar; `indent` is the indentation of the mapping that it stands in. Block scalars do
not stand within braces. -/
def scalar? (flow : Bool) (indent : Option Nat) (s : List Char) : Option (Lexeme × List Char) :=
  let deeper := (indent.map (· + 1)).getD 0
  match s with
  | '\'' :: r => (single? (r.length + 1) r).map fun (t, r) => (.scalar .quoted t, r)
  | '"' :: r => (double? (r.length + 1) r).map fun (t, r) => (.scalar .quoted t, r)
  | s =>
    if startsPlain flow s then
      (plain? flow deeper (s.length + 1) s).map fun (t, broken, r) => (.scalar (.plain broken) t, r)
    else
      match s with
      | '|' :: r =>
        if flow then none else (block? false indent r).map fun (t, r) => (.scalar .block t, r)
      | '>' :: r =>
        if flow then none else (block? true indent r).map fun (t, r) => (.scalar .block t, r)
      | _ => none

/-- Reads the lexeme at the front of a text that starts in a column. -/
def ofText? (flow : Bool) (indent : Option Nat) (column : Nat) (s : List Char) :
    Option (Lexeme × List Char) :=
  match s with
  | [] => none
  | c :: r =>
    if column = 0 && c == '%' then (Directive.ofText? r).map fun (d, r) => (.directive d, r)
    else if column = 0 && isMarker s then
      some (if c == '-' then .documentStart else .documentEnd, s.drop 3)
    else if c == '{' then some (.braceOpen, r)
    else if c == '}' then some (.braceClose, r)
    else if c == ',' then some (.comma, r)
    else if c == '?' && (flow || atBlank r) then some (.question, r)
    else if c == ':' && (flow || atBlank r) then some (.colon, r)
    else if c == '&' then (anchorName? r).map fun (n, r) => (.anchor n, r)
    else if c == '*' then (anchorName? r).map fun (n, r) => (.reference n, r)
    else if c == '!' then (Tag.ofText? flow s).map fun (t, r) => (.tag t, r)
    else scalar? flow indent s

end Lexeme

end VxlanRouting.Yaml
