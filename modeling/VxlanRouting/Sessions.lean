import VxlanRouting.Address.Basic

/-!
Sessions of virtual machines that speak BGP with this host, each known by an interface and an
address. A session is there once or not at all.
-/
namespace VxlanRouting

structure Session where
  interface : String
  address : Address
  deriving DecidableEq, Repr

structure Sessions where
  list : List Session := []
  deriving DecidableEq, Repr

namespace Sessions

def Has (s : Sessions) (x : Session) : Prop := x ∈ s.list

instance (s : Sessions) (x : Session) : Decidable (s.Has x) :=
  inferInstanceAs (Decidable (x ∈ s.list))

def add (s : Sessions) (x : Session) : Sessions := if s.Has x then s else ⟨s.list ++ [x]⟩

def remove (s : Sessions) (x : Session) : Sessions := ⟨s.list.filter (· ≠ x)⟩

def size (s : Sessions) : Nat := s.list.length

end Sessions

end VxlanRouting
