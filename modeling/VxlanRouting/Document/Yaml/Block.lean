import VxlanRouting.Document.Yaml.Lines

/-!
Block scalars: the lines below a bar or an angle that stand at one indentation. Behind a bar every
line keeps its break. Behind an angle the break between two lines is folded if neither of them
starts with a blank. The indentation is given by a digit or, without one, by the deepest of the
empty lines at the start and of the first line behind them. Breaks at the end are kept, dropped but
for the first one, or all dropped.
-/
namespace VxlanRouting.Yaml

/-- What becomes of the breaks behind the last line. -/
inductive Chomping where
  | strip | clip | keep
  deriving DecidableEq, Repr

/-- The first line of a block scalar. -/
structure BlockHeader where
  folds : Bool
  chomping : Chomping := .clip
  /-- How much deeper than its mapping the scalar stands. -/
  deeper : Option Nat := none
  deriving DecidableEq, Repr

/-- The sign of a chomping, and what follows it. -/
def Chomping.ofText? : List Char → Option (Chomping × List Char)
  | '-' :: s => some (.strip, s)
  | '+' :: s => some (.keep, s)
  | _ => none

/-- The digit of an indentation, if there is one, and what follows it; zero is none. -/
def deeper? (s : List Char) : Option (Option Nat × List Char) :=
  match s with
  | [] => some (none, [])
  | c :: r =>
    if c == '0' then none
    else if c.isDigit then some (some (c.toNat - 48), r)
    else some (none, s)

/-- Reads the line behind a bar or an angle. The answer also holds the lines below it. -/
def BlockHeader.ofText? (folds : Bool) (s : List Char) : Option (BlockHeader × List Char) :=
  match Chomping.ofText? s with
  | some (chomping, r) =>
    (deeper? r).bind fun (deeper, r) =>
      (nextLine? r).map fun r => (⟨folds, chomping, deeper⟩, r)
  | none =>
    (deeper? s).bind fun (deeper, r) =>
      let (chomping, r) := (if deeper.isSome then Chomping.ofText? r else none).getD (.clip, r)
      (nextLine? r).map fun r => (⟨folds, chomping, deeper⟩, r)

/-- Empty lines, up to a line with text. -/
structure Gap where
  /-- The breaks behind the empty lines. -/
  breaks : List Char
  /-- The deepest column that indentation reaches. -/
  deepest : Nat
  /-- The indentation of the line with text. -/
  column : Nat
  /-- That line without its indentation, and what follows. -/
  rest : List Char
  deriving DecidableEq, Repr

/-- Reads empty lines. Spaces are indentation, up to the column `indent` if it is known, and no tab
is. -/
def gap? (indent : Option Nat) : Nat → List Char → Option Gap
  | 0, _ => none
  | fuel + 1, s =>
    let spaces := (s.takeWhile (· == ' ')).length
    let n := (indent.map (min spaces)).getD spaces
    match s.drop n with
    | [] => some ⟨[], n, n, []⟩
    | c :: r =>
      if c == '\t' && indent.all (n < ·) then none
      else if isBreak c then
        (gap? indent fuel r).map fun g =>
          { g with breaks := c :: g.breaks, deepest := max n g.deepest }
      else some ⟨[], n, n, c :: r⟩

/-- What stands between two lines for the break `joint` between them, if empty lines follow it or
not. -/
def jointText (folds : Bool) (joint : List Char) (gapped : Bool) : List Char :=
  if folds && joint == ['\n'] then if gapped then [] else [' '] else joint

/-- Reads the lines at the column `indent` from the gap before them on. `afterBlank` tells whether
the line before the gap starts with a blank, and `joint` is the break behind that line. The answer
holds the text, the break behind the last line and the gap behind that. -/
def blockLines? (folds : Bool) (indent : Nat) :
    Nat → Bool → List Char → Gap → Option (List Char × List Char × Gap)
  | 0, _, _, _ => none
  | fuel + 1, afterBlank, joint, g =>
    if g.column = indent && !g.rest.isEmpty then
      let blank := g.rest.head?.any isSpace
      let front := jointText (folds && !afterBlank && !blank) joint (!g.breaks.isEmpty) ++ g.breaks
      let line := g.rest.takeWhile fun c => !isBreak c
      let r := g.rest.drop line.length
      match gap? (some indent) (r.length + 1) (r.drop 1) with
      | none => none
      | some g =>
        (blockLines? folds indent fuel blank (r.take 1) g).map fun x => (front ++ line ++ x.1, x.2)
    else some ([], joint, g)

/-- Reads a block scalar behind its bar or angle; `outer` is the indentation of the mapping that it
stands in. The answer holds the text and the rest, from where a line is less deep. -/
def block? (folds : Bool) (outer : Option Nat) (s : List Char) :
    Option (List Char × List Char) := do
  let (h, r) ← BlockHeader.ofText? folds s
  let known := h.deeper.map (outer.getD 0 + ·)
  let g ← gap? known (r.length + 1) r
  let least := (outer.map (· + 1)).getD 0
  let indent := known.getD (max g.deepest (max least 1))
  let (text, joint, g) ← blockLines? folds indent (r.length + 1) false [] g
  match h.chomping with
  | .strip => some (text, g.rest)
  | .clip => some (text ++ joint, g.rest)
  | .keep => some (text ++ joint ++ g.breaks, g.rest)

end VxlanRouting.Yaml
