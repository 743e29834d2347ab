import VxlanRouting.Advertisement

/-!
The engine: the state with a queue of requests. Getting the path of a peer to what is wanted puts at
most one request into the queue, and none if the path already is as wanted. A composite whose
members change gets the next ECMP sequence of the router that the VRF serves.
-/
namespace VxlanRouting

structure Engine extends View where
  queue : List Request := []
  deriving DecidableEq

namespace Engine

def push (e : Engine) (q : Request) : Engine := { e with queue := e.queue ++ [q] }

/-- The next ECMP sequence for a VRF; it is zero in a VRF that serves no router. -/
def nextSequence (e : Engine) (vrf : String) : Engine × Nat :=
  match e.routers.servedBy? vrf with
  | none => (e, 0)
  | some id =>
    let (routers, n) := e.routers.nextSequence id
    ({ e with routers }, n)

/-- The ECMP sequence for a composite: that of the installed one while its members stay. -/
def sequenceFor (e : Engine) (vrf : String) (composite : NextHopKey) (found : Option Path) :
    Engine × Nat :=
  match found with
  | none => e.nextSequence vrf
  | some x =>
    if x.hop.key.members? = composite.members? then (e, x.attrs.ecmpSequence)
    else e.nextSequence vrf

/-- The members of a composite that the installed one lacks. -/
def joined (composite : NextHopKey) (found : Option Path) : List MemberKey :=
  let known := (found.bind (·.hop.key.members?)).getD []
  (composite.members?.getD []).filter (· ∉ known)

/-- Puts the request for an advertisement into the queue. -/
def install (e : Engine) (vrf : String) (k : RouteKey) (peer : Peer) (found : Option Path) :
    Advertisement → Engine
  | .single hop attrs => e.push ⟨vrf, k, peer, .installLocal hop attrs⟩
  | .tunnel t attrs => e.push ⟨vrf, k, peer, .installTunnel t attrs⟩
  | .ecmp composite attrs =>
    let (e, n) := e.sequenceFor vrf composite found
    e.push ⟨vrf, k, peer,
      .installEcmp composite { attrs with ecmpSequence := n } (joined composite found)⟩

/-- Gets the path of a peer on a route to what is wanted. -/
def sync (e : Engine) (vrf : String) (k : RouteKey) (peer : Peer) (want : Option Advertisement) :
    Engine :=
  match e.tables.path? vrf k peer, want with
  | none, none => e
  | some _, none => e.push ⟨vrf, k, peer, .withdraw⟩
  | none, some a => e.install vrf k peer none a
  | some x, some a => if a.Matches x then e else e.install vrf k peer (some x) a

end Engine

end VxlanRouting
