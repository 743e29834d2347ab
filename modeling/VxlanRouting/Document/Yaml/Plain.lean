import VxlanRouting.Document.Yaml.Lines

/-!
Plain scalars: words with single blanks or folded runs between them. A word ends at a blank, at a
colon before a blank and, within braces, at a sign that separates or encloses entries. The scalar
ends at a comment, at the mark of a document and, outside braces, at a line that stands less deep
than the scalar has to.
-/
namespace VxlanRouting.Yaml

/-- What separates the entries of a flow collection, or opens or closes one. -/
def isFlowSign (c : Char) : Bool := [',', '[', ']', '{', '}'].contains c

/-- The word at the front, which may be empty. Within braces no colon stands right before a question
mark or a sign of the collection. -/
def word? (flow : Bool) : List Char → Option (List Char × List Char)
  | [] => some ([], [])
  | c :: s =>
    if isSpaceOrBreak c then some ([], c :: s)
    else if flow && c == ':' && s.head?.any fun d => isFlowSign d || d == '?' then none
    else if (c == ':' && atBlank s) || (flow && isFlowSign c) then some ([], c :: s)
    else (word? flow s).map fun r => (c :: r.1, r.2)

/-- The scalar does not go on behind a run: a comment or a mark comes next, or a new line outside
braces that starts before the column `indent`. -/
def endsPlain (flow : Bool) (indent : Nat) (run rest : List Char) : Bool :=
  rest.head? == some '#' || (endsLine run && isMarker rest) ||
    (!flow && run.any isBreak && ((lineParts run).getLastD []).length < indent)

/-- A tab stands before the column `indent` of a new line. -/
def hasEarlyTab (indent : Nat) (run : List Char) : Bool :=
  (lineParts run).tail.any fun l => (l.take indent).contains '\t'

/-- Reads a plain scalar and the run behind it. The answer holds the text, whether the run goes over
the end of a line, and the rest. -/
def plain? (flow : Bool) (indent : Nat) : Nat → List Char → Option (List Char × Bool × List Char)
  | 0, _ => none
  | fuel + 1, s =>
    match word? flow s with
    | none => none
    | some (w, r) =>
      let run := blankRun r
      let next := r.dropWhile isSpaceOrBreak
      if hasEarlyTab indent run then none
      else if run.isEmpty || endsPlain flow indent run next then some (w, run.any isBreak, next)
      else
        match plain? flow indent fuel next with
        | none => none
        | some (more, broken, rest) =>
          if more.isEmpty then some (w, run.any isBreak, next)
          else some (w ++ folded run ++ more, broken, rest)

end VxlanRouting.Yaml
