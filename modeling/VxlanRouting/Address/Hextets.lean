import VxlanRouting.Address.Dotted

/-!
The text of addresses of version 6: eight groups of sixteen bits in hexadecimal, with colons between
them. Two colons stand for a run of zero groups, and a dotted quad may stand for the last two
groups. Writing shortens the first of the longest runs of two or more zero groups.
-/
namespace VxlanRouting

open Text

/-- A group has at most four digits. -/
def hextet? (s : List Char) : Option Nat :=
  if s.length ≤ 4 then natural? 16 s else none

/-- The groups of a run of texts; where a dotted quad is allowed it comes last. -/
def hextetRun? (sp : Spelling) (quad : Bool) : List (List Char) → Option (List Nat)
  | [] => some []
  | p :: ps =>
    if quad ∧ ps = [] ∧ '.' ∈ p then (dotted? sp p).map (groups 16 2)
    else
      match hextet? p, hextetRun? sp quad ps with
      | some g, some gs => some (g :: gs)
      | _, _ => none

/-- What stands beside two colons may be empty. -/
def hextetSide? (sp : Spelling) (quad : Bool) (s : List Char) : Option (List Nat) :=
  if s = [] then some [] else hextetRun? sp quad (pieces ':' s)

/-- What stands before and after the first two neighbouring colons. -/
def cutGap? : List Char → Option (List Char × List Char)
  | [] => none
  | [_] => none
  | c :: d :: s =>
    if c = ':' ∧ d = ':' then some ([], s) else (cutGap? (d :: s)).map fun r => (c :: r.1, r.2)

/-- The number of groups that two colons leave to their sides. -/
def Spelling.gapLimit (sp : Spelling) : Nat := if sp.emptyGap then 8 else 7

def hextets? (sp : Spelling) (s : List Char) : Option (List Nat) :=
  match cutGap? s with
  | none =>
    match hextetRun? sp true (pieces ':' s) with
    | some gs => if gs.length = 8 then some gs else none
    | none => none
  | some (l, r) =>
    match hextetSide? sp false l, hextetSide? sp true r with
    | some hs, some ts =>
      if hs.length < 8 ∧ hs.length + ts.length ≤ sp.gapLimit then
        some (hs ++ List.replicate (8 - (hs.length + ts.length)) 0 ++ ts)
      else none
    | _, _ => none

/-- The length of the run of zeros at the front. -/
def zeroRun : List Nat → Nat
  | [] => 0
  | g :: gs => if g = 0 then zeroRun gs + 1 else 0

/-- Where the first of the longest runs of zeros starts, and its length. -/
def longestZeroRun : List Nat → Nat × Nat
  | [] => (0, 0)
  | g :: gs =>
    let r := longestZeroRun gs
    if r.2 ≤ zeroRun (g :: gs) then (0, zeroRun (g :: gs)) else (r.1 + 1, r.2)

def hextetRunText (gs : List Nat) : List Char := joined ':' (gs.map (numeral 16))

def hextetsText (gs : List Nat) : List Char :=
  let r := longestZeroRun gs
  if 2 ≤ r.2 then
    hextetRunText (gs.take r.1) ++ ':' :: ':' :: hextetRunText (gs.drop (r.1 + r.2))
  else hextetRunText gs

end VxlanRouting
