import VxlanRouting.Path
import VxlanRouting.Prefix.Text

/-!
Routes: a prefix and the paths to it, at most one of a peer, best path first. A new path of a peer
takes the place of the old one, and goes where its preference puts it.
-/
namespace VxlanRouting

structure Route where
  dest : Prefix
  paths : List Path := []
  deriving DecidableEq

namespace Route

/-- The best path. -/
def active? (r : Route) : Option Path := r.paths.head?

def find? (r : Route) (p : Peer) : Option Path := r.paths.find? fun x => x.peer = p

/-- The best path of a peer of a kind. -/
def findKind? (r : Route) (k : PeerKind) : Option Path := r.paths.find? fun x => x.peer.kind = k

/-- Puts a path before the first one that it comes before. -/
def place (x : Path) : List Path → List Path
  | [] => [x]
  | y :: l => if x.Before y then x :: y :: l else y :: place x l

/-- The paths of all other peers. -/
def without (p : Peer) (l : List Path) : List Path := l.filter fun x => decide (x.peer ≠ p)

/-- Adds a path, or changes the one of its peer; the same path again changes nothing. -/
def add (r : Route) (x : Path) : Route :=
  if r.find? x.peer = some x then r else { r with paths := place x (without x.peer r.paths) }

/-- Removes the path of a peer. -/
def remove (r : Route) (p : Peer) : Route := { r with paths := without p r.paths }

/-- The prefix, then a line for each path with the best one marked. -/
instance : ToString Route where
  toString r := "  " ++ toString r.dest ++ "\n" ++
    String.join (r.paths.mapIdx fun n x =>
      "     " ++ (if n = 0 then "* " else "  ") ++ toString x ++ "\n")

@[simp] theorem dest_add (r : Route) (x : Path) : (r.add x).dest = r.dest := by
  unfold add; split <;> rfl

@[simp] theorem dest_remove (r : Route) (p : Peer) : (r.remove p).dest = r.dest := rfl

theorem mem_place {x y : Path} {l : List Path} : y ∈ place x l ↔ y = x ∨ y ∈ l := by
  induction l with
  | nil => simp [place]
  | cons z l ih =>
    unfold place
    split
    · simp
    · simp only [List.mem_cons, ih]
      constructor
      · rintro (h | h | h) <;> simp [h]
      · rintro (h | h | h) <;> simp [h]

end Route

end VxlanRouting
