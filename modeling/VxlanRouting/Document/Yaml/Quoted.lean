import VxlanRouting.Address.Groups
import VxlanRouting.Document.Yaml.Lines
import VxlanRouting.Text.Numeral

/-!
Scalars between quotes. Between single quotes a quote is written twice. Between double quotes a
backslash starts an escape; at the end of a line it joins the line to the next one, and of the run
behind it only the breaks are kept. Runs of blanks are folded, and no line may look like the start
or the end of a document.
-/
namespace VxlanRouting.Yaml

/-- The characters that one letter behind a backslash stands for. -/
def escapes : List (Char × Char) :=
  [('0', '\x00'), ('a', '\x07'), ('b', '\x08'), ('t', '\t'), ('\t', '\t'), ('n', '\n'),
   ('v', '\x0b'), ('f', '\x0c'), ('r', '\r'), ('e', '\x1b'), (' ', ' '), ('"', '"'), ('/', '/'),
   ('\\', '\\'), ('N', '\u0085'), ('_', '\u00a0'), ('L', '\u2028'), ('P', '\u2029')]

/-- The number of hexadecimal digits behind a letter. -/
def escapeDigits? : Char → Option Nat
  | 'x' => some 2
  | 'u' => some 4
  | 'U' => some 8
  | _ => none

/-- The character of a number, if it is one. -/
def charOfNat? (n : Nat) : Option Char := if n.isValidChar then some (Char.ofNat n) else none

/-- The character of an escape, and what follows it. -/
def escape? : List Char → Option (Char × List Char)
  | [] => none
  | c :: s =>
    match escapes.lookup c with
    | some d => some (d, s)
    | none =>
      match escapeDigits? c with
      | none => none
      | some k =>
        if k ≤ s.length then
          ((Text.natural? 16 (s.take k)).bind charOfNat?).map fun d => (d, s.drop k)
        else none

/-- A text that was read, put behind another one. -/
def prepend? (front : List Char) (r : Option (List Char × List Char)) :
    Option (List Char × List Char) :=
  r.map fun x => (front ++ x.1, x.2)

/-- What follows a run between quotes, unless it is the mark of a document. -/
def afterRun? (run rest : List Char) : Option (List Char) :=
  if endsLine run && isMarker rest then none else some rest

/-- Reads on to the closing single quote. -/
def single? : Nat → List Char → Option (List Char × List Char)
  | 0, _ => none
  | _ + 1, [] => none
  | fuel + 1, '\'' :: '\'' :: s => prepend? ['\''] (single? fuel s)
  | _ + 1, '\'' :: s => some ([], s)
  | fuel + 1, c :: s =>
    if isSpaceOrBreak c then
      let run := c :: blankRun s
      (afterRun? run (s.dropWhile isSpaceOrBreak)).bind fun r =>
        prepend? (folded run) (single? fuel r)
    else prepend? [c] (single? fuel s)

/-- Reads on to the closing double quote. -/
def double? : Nat → List Char → Option (List Char × List Char)
  | 0, _ => none
  | _ + 1, [] => none
  | fuel + 1, c :: s =>
    if c = '"' then some ([], s)
    else if c = '\\' then
      if s.head?.any isBreak then
        let run := blankRun s
        (afterRun? run (s.dropWhile isSpaceOrBreak)).bind fun r =>
          prepend? ((run.drop 1).filter isBreak) (double? fuel r)
      else (escape? s).bind fun (d, r) => prepend? [d] (double? fuel r)
    else if isSpaceOrBreak c then
      let run := c :: blankRun s
      (afterRun? run (s.dropWhile isSpaceOrBreak)).bind fun r =>
        prepend? (folded run) (double? fuel r)
    else prepend? [c] (double? fuel s)

/-- The lowest hexadecimal digits of a number. -/
def hexDigits (count n : Nat) : List Char := (groups 4 count n).flatMap (Text.numeral 16)

/-- A character between double quotes; all but printable ASCII is escaped. -/
def quotedChar (c : Char) : List Char :=
  if c = '"' ∨ c = '\\' then ['\\', c]
  else if 32 < c.toNat ∧ c.toNat < 127 then [c]
  else '\\' :: 'U' :: hexDigits 8 c.toNat

/-- The text between double quotes that reads back as the given one. -/
def doubleQuoted (s : List Char) : List Char := '"' :: s.flatMap quotedChar ++ ['"']

end VxlanRouting.Yaml
