import VxlanRouting.Document.Yaml.Quoted

/-!
Names and tags in YAML documents. A tag is a handle with a suffix, and directives say what the
handle stands for; a tag between angles stands for itself. A percent sign and two digits in it are
an octet of an encoded character. Tags are kept as octets, each of them as the character of its
number, and end before an octet of zero.
-/
namespace VxlanRouting.Yaml

/-- The characters of the names of anchors, handles and directives. -/
def isNameChar (c : Char) : Bool := c.isAlphanum || c == '_' || c == '-'

/-- What may stand right behind the name of an anchor, but for a blank. -/
def nameEnds : List Char := ['?', ':', ',', ']', '}', '%', '@', '\x60']

/-- Reads the name of an anchor. -/
def anchorName? (s : List Char) : Option (List Char × List Char) :=
  let name := s.takeWhile isNameChar
  let r := s.drop name.length
  if !name.isEmpty && (atBlank r || r.head?.any nameEnds.contains) then some (name, r) else none

/-- Reads an octet behind a percent sign. -/
def octet? : List Char → Option (Nat × List Char)
  | '%' :: a :: b :: s => (Text.natural? 16 [a, b]).map fun n => (n, s)
  | _ => none

/-- The number of octets that follow the first one of a character. -/
def continuation? (n : Nat) : Option Nat :=
  if n < 0x80 then some 0
  else if n < 0xc0 then none
  else if n < 0xe0 then some 1
  else if n < 0xf0 then some 2
  else if n < 0xf8 then some 3
  else none

/-- Reads octets that go on with a character. -/
def furtherOctets? : Nat → List Char → Option (List Char × List Char)
  | 0, s => some ([], s)
  | k + 1, s =>
    match octet? s with
    | none => none
    | some (n, r) =>
      if 0x80 ≤ n ∧ n < 0xc0 then prepend? [Char.ofNat n] (furtherOctets? k r) else none

/-- Reads the octets of one character. -/
def octets? (s : List Char) : Option (List Char × List Char) :=
  (octet? s).bind fun (n, r) =>
    (continuation? n).bind fun k => prepend? [Char.ofNat n] (furtherOctets? k r)

/-- The signs in the text of a tag. -/
def tagSigns : List Char :=
  [';', '/', '?', ':', '@', '&', '=', '+', '$', '.', '!', '~', '*', '\'', '(', ')']

/-- A character in the text of a tag; signs of collections only between angles and in directives. -/
def isTagChar (enclosed : Bool) (c : Char) : Bool :=
  isNameChar c || tagSigns.contains c || (enclosed && [',', '[', ']'].contains c)

/-- Reads the text of a tag as far as it goes. -/
def tagText? (enclosed : Bool) : Nat → List Char → Option (List Char × List Char)
  | 0, _ => none
  | _ + 1, [] => some ([], [])
  | fuel + 1, c :: s =>
    if c == '%' then (octets? (c :: s)).bind fun (t, r) => prepend? t (tagText? enclosed fuel r)
    else if isTagChar enclosed c then prepend? [c] (tagText? enclosed fuel s)
    else some ([], c :: s)

/-- Reads the text of a tag, which is not empty. -/
def someTagText? (enclosed : Bool) (s : List Char) : Option (List Char × List Char) :=
  (tagText? enclosed (s.length + 1) s).filter fun x => !x.1.isEmpty

/-- The octets before an octet of zero. -/
def beforeZero (s : List Char) : List Char := s.takeWhile fun c => c != '\x00'

/-- Reads an exclamation mark, the name behind it and the mark that may close the name. -/
def handle? : List Char → Option (List Char × List Char)
  | '!' :: s =>
    let name := s.takeWhile isNameChar
    match s.drop name.length with
    | '!' :: r => some ('!' :: name ++ ['!'], r)
    | r => some ('!' :: name, r)
  | _ => none

/-- What the handles of tags stand for. -/
abbrev Handles := List (List Char × List Char)

/-- The handles that need no directive. -/
def defaultHandles : Handles :=
  [("!".toList, "!".toList), ("!!".toList, "tag:yaml.org,2002:".toList)]

structure Tag where
  /-- Empty if the suffix stands for itself. -/
  handle : List Char
  suffix : List Char
  deriving DecidableEq, Repr

namespace Tag

/-- Reads a tag between angles, behind the opening one. -/
def enclosed? (s : List Char) : Option (Tag × List Char) :=
  match someTagText? true s with
  | some (t, '>' :: r) => some (⟨[], beforeZero t⟩, r)
  | _ => none

/-- Reads a tag with a handle; a mark alone stands for itself. -/
def handled? (s : List Char) : Option (Tag × List Char) :=
  (handle? s).bind fun (h, r) =>
    if 2 ≤ h.length ∧ h.getLast? = some '!' then
      (someTagText? false r).map fun (t, r) => (⟨h, beforeZero t⟩, r)
    else
      (tagText? false (r.length + 1) r).map fun (t, r) =>
        let suffix := beforeZero (h.drop 1 ++ t)
        (if suffix.isEmpty then ⟨[], ['!']⟩ else ⟨['!'], suffix⟩, r)

/-- Reads a tag, which ends at a blank or, within braces, at a comma. -/
def ofText? (flow : Bool) (s : List Char) : Option (Tag × List Char) :=
  let r := match s with
    | '!' :: '<' :: r => enclosed? r
    | s => handled? s
  r.filter fun x => atBlank x.2 || (flow && x.2.head? == some ',')

/-- What a tag stands for. -/
def full? (handles : Handles) (t : Tag) : Option (List Char) :=
  if t.handle.isEmpty then some t.suffix else (handles.lookup t.handle).map (· ++ t.suffix)

end Tag

end VxlanRouting.Yaml
