import VxlanRouting.NextHop.Resolve
import VxlanRouting.Path
import VxlanRouting.RouteKey

/-!
Requests to change the path of a peer on a route, and the notifications of routes that changed.
-/
namespace VxlanRouting

/-- What is to become of a path. -/
inductive Action where
  | installLocal (hop : NextHopKey) (attrs : Attributes)
  /-- The joined members are those that the installed composite lacks. -/
  | installEcmp (composite : NextHopKey) (attrs : Attributes) (joined : List MemberKey)
  | installTunnel (tunnel : Tunnel) (attrs : Attributes)
  | withdraw
  deriving DecidableEq

structure Request where
  vrf : String
  key : RouteKey
  peer : Peer
  action : Action
  deriving DecidableEq

/-- A route that changed. -/
structure Notification where
  vrf : String
  key : RouteKey
  deriving DecidableEq, Repr

/-- The path that an action installs, if its next-hop resolves; a withdrawal installs none. -/
def Action.path? (t : InterfaceTable) (peer : Peer) : Action → Option Path
  | .installLocal hop attrs => (hop.resolve t).map (⟨peer, ·, attrs⟩)
  | .installEcmp composite attrs _ => (composite.resolve t).map (⟨peer, ·, attrs⟩)
  | .installTunnel tunnel attrs => some ⟨peer, .tunnel tunnel, attrs⟩
  | .withdraw => none

/-- An installed path belongs to the peer that asked for it. -/
theorem Action.peer_of_path? {t : InterfaceTable} {peer : Peer} {a : Action} {x : Path}
    (h : a.path? t peer = some x) : x.peer = peer := by
  cases a <;> simp only [path?, Option.map_eq_some_iff, Option.some.injEq, reduceCtorEq] at h
  · obtain ⟨_, _, rfl⟩ := h; rfl
  · obtain ⟨_, _, rfl⟩ := h; rfl
  · rw [← h]

end VxlanRouting
