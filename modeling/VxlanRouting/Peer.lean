/-!
Route owners. A path of a route belongs to exactly one peer, known by name and kind. The kinds are
in order of preference: paths of an earlier kind come first in a route.
-/
namespace VxlanRouting

inductive PeerKind where
  /-- Interfaces of virtual machines on this host. -/
  | localVm
  /-- What is exported into routing VRFs. -/
  | localExport
  /-- Other routes of this host. -/
  | localOther
  /-- Routes learnt from a control node. -/
  | bgp
  /-- Routes passed on between the two tables of a routing VRF. -/
  | vxlanBgp
  | fabric
  deriving DecidableEq, Repr

namespace PeerKind

def rank : PeerKind → Nat
  | .localVm => 0
  | .localExport => 1
  | .localOther => 2
  | .bgp => 3
  | .vxlanBgp => 4
  | .fabric => 5

def name : PeerKind → String
  | .localVm => "local-vm-port"
  | .localExport => "local-vm-export"
  | .localOther => "local"
  | .bgp => "bgp"
  | .vxlanBgp => "vxlan-bgp"
  | .fabric => "fabric"

def all : List PeerKind := [.localVm, .localExport, .localOther, .bgp, .vxlanBgp, .fabric]

def ofName? (s : String) : Option PeerKind := all.find? fun k => k.name == s

@[simp] theorem rank_inj {k l : PeerKind} : k.rank = l.rank ↔ k = l := by
  cases k <;> cases l <;> decide

end PeerKind

structure Peer where
  name : String
  kind : PeerKind
  deriving DecidableEq, Repr

namespace Peer

instance : ToString Peer := ⟨fun p => p.name ++ " (" ++ p.kind.name ++ ")"⟩

/-- Peers are in order of name, then of kind. -/
instance : LT Peer where
  lt p q := p.name < q.name ∨ p.name = q.name ∧ p.kind.rank < q.kind.rank

instance : DecidableLT Peer := fun p q =>
  inferInstanceAs (Decidable (p.name < q.name ∨ p.name = q.name ∧ p.kind.rank < q.kind.rank))

/-- The peers in order, repeated ones kept. -/
def sorted (ps : List Peer) : List Peer := ps.mergeSort fun p q => !decide (q < p)

end Peer

end VxlanRouting
