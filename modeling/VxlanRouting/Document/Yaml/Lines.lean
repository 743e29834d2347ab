import VxlanRouting.Text.Pieces

/-!
Lines and blanks of YAML documents. A line ends at a line feed, a carriage return, both of them
together or U+0085, which all count as one line feed, and at U+2028 and U+2029, which are kept as
they are. A run of blanks that goes over the end of a line is folded: one break is read as a space,
and of several breaks the first is dropped.
-/
namespace VxlanRouting.Yaml

/-- A blank within a line. -/
def isSpace (c : Char) : Bool := c == ' ' || c == '\t'

/-- The end of a line in a text with normal breaks. -/
def isBreak (c : Char) : Bool := c == '\n' || c == '\u2028' || c == '\u2029'

def isSpaceOrBreak (c : Char) : Bool := isSpace c || isBreak c

/-- The text with normal breaks: all but the two separators are line feeds. -/
def normalBreaks : List Char → List Char
  | '\r' :: '\n' :: s => '\n' :: normalBreaks s
  | c :: s => (if c = '\r' || c = '\u0085' then '\n' else c) :: normalBreaks s
  | [] => []

/-- Characters that a text with normal breaks may hold. -/
def isPrintable (c : Char) : Bool :=
  let n := c.toNat
  c == '\t' || c == '\n' || (32 ≤ n && n ≤ 126) || (0xa0 ≤ n && n ≤ 0xfffd) || 0x10000 ≤ n

/-- A word may end here. -/
def atBlank : List Char → Bool
  | [] => true
  | c :: _ => isSpaceOrBreak c

/-- Three dashes or three dots with a blank behind them. At the start of a line they mark the start
or the end of a document. -/
def isMarker (s : List Char) : Bool :=
  (s.take 3 == ['-', '-', '-'] || s.take 3 == ['.', '.', '.']) && atBlank (s.drop 3)

/-- The blanks and breaks at the front. -/
def blankRun (s : List Char) : List Char := s.takeWhile isSpaceOrBreak

/-- What a run of blanks and breaks is read as. -/
def folded (run : List Char) : List Char :=
  match run.filter isBreak with
  | [] => run
  | ['\n'] => [' ']
  | '\n' :: more => more
  | breaks => breaks

/-- The parts of a run that lie on the lines it goes over. -/
def lineParts (run : List Char) : List (List Char) :=
  Text.pieces '\n' (run.map fun c => if isBreak c then '\n' else c)

/-- A new line starts behind the run. -/
def endsLine (run : List Char) : Bool := run.getLast?.any isBreak

/-- A comment goes up to the end of its line. -/
def skipComment (s : List Char) : List Char :=
  match s with
  | '#' :: r => r.dropWhile fun c => !isBreak c
  | s => s

/-- The next line, if no more than blanks and a comment are left of this one. -/
def nextLine? (s : List Char) : Option (List Char) :=
  match skipComment (s.dropWhile isSpace) with
  | [] => some []
  | c :: r => if isBreak c then some r else none

/-- A place in a text: its line and its column, both from zero. -/
structure Place where
  line : Nat := 0
  column : Nat := 0
  deriving DecidableEq, Repr

def Place.next (p : Place) (c : Char) : Place :=
  if isBreak c then ⟨p.line + 1, 0⟩ else ⟨p.line, p.column + 1⟩

/-- The place behind a text that starts here. -/
def Place.after (p : Place) (s : List Char) : Place := s.foldl Place.next p

/-- The place of `rest`, which ends the text `s` that starts here. -/
def Place.before (p : Place) (s rest : List Char) : Place :=
  p.after (s.take (s.length - rest.length))

end VxlanRouting.Yaml
