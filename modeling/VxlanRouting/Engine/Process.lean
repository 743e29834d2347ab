import VxlanRouting.Engine.Reconcile

/-!
Processing the queue. Requests are applied in their order, and each change is passed to the
direction that it feeds, whose requests join the end of the queue. A round applies the requests that
are in the queue at its start, so the requests of one round are those that the changes of the round
before asked for.
-/
namespace VxlanRouting.Engine

/-- Passes a change to the direction that it feeds. -/
def notify (e : Engine) (n : Notification) : Engine :=
  match e.tables.vrfs.get? n.vrf with
  | none => e
  | some v =>
    if e.routers.IsRouting v then
      match n.key with
      | .inet p => e.leakToEvpn v.name p
      | .evpn k => if k.IsType5 then e.leakToInet v.name k.dest else e
    else if e.routers.IsBridge v then
      match n.key with
      | .inet p => e.exportFrom v.name p
      | .evpn _ => e
    else e

/-- Applies a request and passes the change on; the number counts the changes. -/
def step (s : Engine × Nat) (q : Request) : Engine × Nat :=
  match s.1.tables.apply q with
  | (_, none) => s
  | (tables, some n) => (({ s.1 with tables } : Engine).notify n, s.2 + 1)

/-- Applies the requests that are in the queue. -/
def round (s : Engine × Nat) : Engine × Nat :=
  s.1.queue.foldl step ({ s.1 with queue := [] }, s.2)

/-- Rounds until the queue is empty, at most so many. -/
def rounds : Nat → Engine × Nat → Engine × Nat
  | 0, s => s
  | fuel + 1, s => if s.1.queue = [] then s else rounds fuel (round s)

/-- More rounds than changes take to come to rest. -/
def roundLimit : Nat := 1000

/-- Applies requests until the queue is empty; the number counts the changes. -/
def process (e : Engine) : Engine × Nat := rounds roundLimit (e, 0)

end VxlanRouting.Engine
