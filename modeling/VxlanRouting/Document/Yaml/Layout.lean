import VxlanRouting.Document.Yaml.Lexeme

/-!
The layout of YAML documents: where mappings start and end, and which scalars are keys. Outside
braces a mapping is told by the column of its keys. A key without a question mark is known as one
only by the colon behind it, which has to stand on the same line and not much more than a thousand
columns away. A mapping within a mapping is refused.
-/
namespace VxlanRouting.Yaml

inductive Token where
  | directive (d : Directive)
  | documentStart
  | documentEnd
  /-- The start of a mapping outside braces. -/
  | blockStart
  | blockEnd
  /-- The start of a mapping within braces. -/
  | flowStart
  | flowEnd
  /-- What separates the entries within braces. -/
  | comma
  | key
  | value
  | anchor (name : List Char)
  | reference (name : List Char)
  | tag (t : Tag)
  | scalar (plain : Bool) (chars : List Char)
  deriving DecidableEq, Repr

/-- What turns out to be a key if a colon follows. -/
structure PossibleKey where
  place : Place
  /-- It stands where the next key of its mapping has to. -/
  required : Bool
  /-- The number of tokens before it. -/
  index : Nat
  deriving DecidableEq, Repr

structure Layout where
  tokens : List Token := []
  /-- Within braces. -/
  flow : Bool := false
  /-- The column of the mapping that is open, if it is outside braces. -/
  indent : Option Nat := none
  key : Option PossibleKey := none
  /-- A key may start at the next lexeme. -/
  keyAllowed : Bool := true
  deriving DecidableEq, Repr

/-- The number of columns in which a key and its colon lie. -/
def keyColumns : Nat := 1024

/-- How far the blanks between two lexemes have been skipped. -/
inductive BlankState where
  | lineStart | within | comment
  deriving DecidableEq, Repr

/-- Skips blanks, breaks, comments and, where a line starts, a mark of the byte order. Outside
braces a new line may start with a key, and no tab stands where a key may start. The answer tells
whether a key may start. -/
def skipBlank (flow : Bool) : BlankState → Bool → List Char → Bool × List Char
  | _, keyAllowed, [] => (keyAllowed, [])
  | state, keyAllowed, c :: s =>
    if isBreak c then skipBlank flow .lineStart (keyAllowed || !flow) s
    else if state = .comment then skipBlank flow .comment keyAllowed s
    else if c == '#' then skipBlank flow .comment keyAllowed s
    else if c == ' ' || (c == '\t' && (flow || !keyAllowed)) ||
        (c == '\ufeff' && state = .lineStart) then
      skipBlank flow .within keyAllowed s
    else (keyAllowed, c :: s)

namespace Layout

def push (l : Layout) (t : Token) : Layout := { l with tokens := l.tokens ++ [t] }

def insert (l : Layout) (index : Nat) (t : Token) : Layout :=
  { l with tokens := l.tokens.take index ++ t :: l.tokens.drop index }

/-- What might have been a key is none. -/
def dropKey? (l : Layout) : Option Layout :=
  if l.key.any (·.required) then none else some { l with key := none }

/-- A key may start here, if any may. -/
def markKey? (l : Layout) (p : Place) : Option Layout :=
  if l.keyAllowed then
    l.dropKey?.map fun l =>
      { l with key := some ⟨p, !l.flow && l.indent == some p.column, l.tokens.length⟩ }
  else some l

/-- What might be a key is none if the text has gone on to a place too far behind it. -/
def reach? (l : Layout) (p : Place) : Option Layout :=
  if l.key.any fun k => k.place.line < p.line || k.place.column + keyColumns < p.column then
    l.dropKey?
  else some l

/-- Outside braces a key in a column starts a mapping, unless one is open at this column. -/
def startMapping? (l : Layout) (column index : Nat) : Option Layout :=
  if l.flow then some l
  else
    match l.indent with
    | none => some { l.insert index .blockStart with indent := some column }
    | some c => if c < column then none else some l

/-- Ends the mapping that is open outside braces. -/
def endMapping (l : Layout) : Layout :=
  if !l.flow && l.indent.isSome then { l.push .blockEnd with indent := none } else l

/-- Ends the mapping if the text goes on less deep. -/
def leave (l : Layout) (column : Nat) : Layout :=
  if l.indent.any (column < ·) then l.endMapping else l

/-- A sign between documents. -/
def between? (l : Layout) (t : Token) : Option Layout :=
  l.endMapping.dropKey?.map fun l => { l.push t with keyAllowed := false }

/-- A question mark tells a key. -/
def question? (l : Layout) (p : Place) : Option Layout :=
  if l.flow || l.keyAllowed then
    (l.startMapping? p.column l.tokens.length).bind fun l =>
      l.dropKey?.map fun l => { l.push .key with keyAllowed := !l.flow }
  else none

/-- A colon tells that what might be a key is one or, if there is none, that the key is over. -/
def colon? (l : Layout) (p : Place) : Option Layout :=
  match l.key with
  | some k =>
    ((l.insert k.index .key).startMapping? k.place.column k.index).map fun l =>
      { l.push .value with key := none, keyAllowed := false }
  | none =>
    if l.flow || l.keyAllowed then
      (l.startMapping? p.column l.tokens.length).map fun l =>
        { l.push .value with keyAllowed := !l.flow }
    else none

/-- A part of a node, which may be the start of a key. -/
def content? (l : Layout) (p : Place) (t : Token) : Option Layout :=
  (l.markKey? p).map fun l => { l.push t with keyAllowed := false }

/-- The layout with the next lexeme, which stands at a place. -/
def add? (l : Layout) (p : Place) : Lexeme → Option Layout
  | .directive d => l.between? (.directive d)
  | .documentStart => l.between? .documentStart
  | .documentEnd => l.between? .documentEnd
  | .braceOpen =>
    if l.flow || l.indent.isSome then none
    else some { l.push .flowStart with flow := true, key := none, keyAllowed := true }
  | .braceClose =>
    if l.flow then some { l.push .flowEnd with flow := false, key := none, keyAllowed := false }
    else none
  | .comma => if l.flow then some { l.push .comma with key := none, keyAllowed := true } else none
  | .question => l.question? p
  | .colon => l.colon? p
  | .anchor n => l.content? p (.anchor n)
  | .reference n => l.content? p (.reference n)
  | .tag t => l.content? p (.tag t)
  | .scalar (.plain broken) s =>
    (l.content? p (.scalar true s)).map fun l => { l with keyAllowed := broken }
  | .scalar .quoted s => l.content? p (.scalar false s)
  | .scalar .block s => l.dropKey?.map fun l => { l.push (.scalar false s) with keyAllowed := true }

/-- Reads the tokens from a place on. -/
def tokens? : Nat → Layout → Place → List Char → Option (List Token)
  | 0, _, _, _ => none
  | fuel + 1, l, p, s =>
    let start : BlankState := if p.column = 0 then .lineStart else .within
    let (keyAllowed, r) := skipBlank l.flow start l.keyAllowed s
    let p := p.before s r
    match { l with keyAllowed }.reach? p with
    | none => none
    | some l =>
      if r.isEmpty then (l.endMapping.dropKey?).map (·.tokens)
      else
        let l := l.leave p.column
        match Lexeme.ofText? l.flow l.indent p.column r with
        | none => none
        | some (x, rest) =>
          match l.add? p x with
          | none => none
          | some l => tokens? fuel l (p.before r rest) rest

end Layout

/-- The tokens of a text. -/
def tokens? (text : List Char) : Option (List Token) :=
  let s := normalBreaks text
  if s.all isPrintable then Layout.tokens? (s.length + 1) {} {} s else none

end VxlanRouting.Yaml
