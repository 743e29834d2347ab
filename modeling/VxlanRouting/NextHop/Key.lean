import VxlanRouting.Address.Text
import VxlanRouting.Mac
import VxlanRouting.TunnelTypes

/-!
Next-hop keys: what a request names as the next-hop of a path. A composite has labelled members,
which are keys themselves. Keys are resolved against the interfaces when a path is installed.
-/
namespace VxlanRouting

/-- The label of a path that has none. -/
def noLabel : Nat := 0xffffffff

/-- A tunnel is its own key: there is nothing to resolve. -/
structure Tunnel where
  dest : Address
  mac : Mac := Mac.zero
  types : TunnelTypes := .empty
  deriving DecidableEq, Repr

inductive CompositeKind where
  /-- Members are local interfaces only. -/
  | localEcmp
  /-- Members are local interfaces and tunnels. -/
  | ecmp
  deriving DecidableEq, Repr

def CompositeKind.name : CompositeKind → String
  | .localEcmp => "LocalEcmp"
  | .ecmp => "Ecmp"

/-- The kinds of next-hops. -/
inductive HopKind where
  | interface | composite | tunnel | vrf | receive | discard
  deriving DecidableEq, Repr

namespace HopKind

def name : HopKind → String
  | .interface => "Interface"
  | .composite => "Composite"
  | .tunnel => "Tunnel"
  | .vrf => "Vrf"
  | .receive => "Receive"
  | .discard => "Discard"

def all : List HopKind := [.interface, .composite, .tunnel, .vrf, .receive, .discard]

end HopKind

mutual

inductive NextHopKey where
  | interface (name : String) (policy : Bool)
  | composite (kind : CompositeKind) (members : List MemberKey)
  | tunnel (tunnel : Tunnel)
  | vrf (name : String)
  | receive
  | discard

structure MemberKey where
  label : Nat
  key : NextHopKey

end

mutual

/-- Whether two keys are the same, member by member. -/
def NextHopKey.same : NextHopKey → NextHopKey → Bool
  | .interface n p, .interface n' p' => n == n' && p == p'
  | .composite k ms, .composite k' ms' => k == k' && MemberKey.sameAll ms ms'
  | .tunnel t, .tunnel t' => t == t'
  | .vrf n, .vrf n' => n == n'
  | .receive, .receive => true
  | .discard, .discard => true
  | _, _ => false

def MemberKey.same : MemberKey → MemberKey → Bool
  | ⟨l, k⟩, ⟨l', k'⟩ => l == l' && k.same k'

def MemberKey.sameAll : List MemberKey → List MemberKey → Bool
  | [], [] => true
  | m :: ms, m' :: ms' => m.same m' && MemberKey.sameAll ms ms'
  | _, _ => false

end

mutual

theorem NextHopKey.same_refl : ∀ k : NextHopKey, k.same k = true
  | .interface _ _ => by simp [NextHopKey.same]
  | .composite _ ms => by simp [NextHopKey.same, MemberKey.sameAll_refl ms]
  | .tunnel _ => by simp [NextHopKey.same]
  | .vrf _ => by simp [NextHopKey.same]
  | .receive => rfl
  | .discard => rfl

theorem MemberKey.same_refl : ∀ m : MemberKey, m.same m = true
  | ⟨_, k⟩ => by simp [MemberKey.same, NextHopKey.same_refl k]

theorem MemberKey.sameAll_refl : ∀ ms : List MemberKey, MemberKey.sameAll ms ms = true
  | [] => rfl
  | m :: ms => by simp [MemberKey.sameAll, MemberKey.same_refl m, MemberKey.sameAll_refl ms]

end

mutual

theorem NextHopKey.eq_of_same : ∀ k k' : NextHopKey, k.same k' = true → k = k'
  | .interface _ _, k', h => by cases k' <;> simp_all [NextHopKey.same]
  | .composite _ ms, k', h => by
    cases k' with
    | composite _ ms' =>
      simp only [NextHopKey.same, Bool.and_eq_true, beq_iff_eq] at h
      rw [h.1, MemberKey.eq_of_sameAll ms ms' h.2]
    | _ => simp [NextHopKey.same] at h
  | .tunnel _, k', h => by cases k' <;> simp_all [NextHopKey.same]
  | .vrf _, k', h => by cases k' <;> simp_all [NextHopKey.same]
  | .receive, k', h => by cases k' <;> simp_all [NextHopKey.same]
  | .discard, k', h => by cases k' <;> simp_all [NextHopKey.same]

theorem MemberKey.eq_of_same : ∀ m m' : MemberKey, m.same m' = true → m = m'
  | ⟨_, k⟩, ⟨_, k'⟩, h => by
    simp only [MemberKey.same, Bool.and_eq_true, beq_iff_eq] at h
    rw [h.1, NextHopKey.eq_of_same k k' h.2]

theorem MemberKey.eq_of_sameAll : ∀ ms ms' : List MemberKey,
    MemberKey.sameAll ms ms' = true → ms = ms'
  | [], [], _ => rfl
  | [], _ :: _, h => by simp [MemberKey.sameAll] at h
  | _ :: _, [], h => by simp [MemberKey.sameAll] at h
  | m :: ms, m' :: ms', h => by
    simp only [MemberKey.sameAll, Bool.and_eq_true] at h
    rw [MemberKey.eq_of_same m m' h.1, MemberKey.eq_of_sameAll ms ms' h.2]

end

instance : DecidableEq NextHopKey := fun k k' =>
  decidable_of_iff (k.same k' = true) ⟨NextHopKey.eq_of_same k k', fun h => h ▸ k.same_refl⟩

instance : DecidableEq MemberKey := fun m m' =>
  decidable_of_iff (m.same m' = true) ⟨MemberKey.eq_of_same m m', fun h => h ▸ m.same_refl⟩

namespace NextHopKey

def hopKind : NextHopKey → HopKind
  | .interface _ _ => .interface
  | .composite _ _ => .composite
  | .tunnel _ => .tunnel
  | .vrf _ => .vrf
  | .receive => .receive
  | .discard => .discard

/-- The members of a composite; `none` for other keys. -/
def members? : NextHopKey → Option (List MemberKey)
  | .composite _ ms => some ms
  | _ => none

def isInterface (k : NextHopKey) : Bool := k.hopKind == .interface

end NextHopKey

mutual

/-- The key, or a member of it at any depth, is the interface of this name. -/
def NextHopKey.mentions (name : String) : NextHopKey → Bool
  | .interface n _ => n == name
  | .composite _ ms => MemberKey.anyMentions name ms
  | _ => false

def MemberKey.mentions (name : String) : MemberKey → Bool
  | ⟨_, k⟩ => k.mentions name

def MemberKey.anyMentions (name : String) : List MemberKey → Bool
  | [] => false
  | m :: ms => m.mentions name || MemberKey.anyMentions name ms

end

instance : ToString Tunnel where
  toString t := "tunnel to " ++ toString t.dest ++ " dmac " ++ toString t.mac ++
    " (" ++ toString t.types ++ ")"

mutual

def NextHopKey.text : NextHopKey → String
  | .interface name policy => "interface " ++ name ++ if policy then " (policy)" else ""
  | .composite kind ms =>
    kind.name ++ " composite [" ++ ", ".intercalate (MemberKey.texts ms) ++ "]"
  | .tunnel t => toString t
  | .vrf name => "vrf " ++ name
  | .receive => "receive"
  | .discard => "discard"

def MemberKey.text : MemberKey → String
  | ⟨label, key⟩ => key.text ++ " label " ++ toString label

def MemberKey.texts : List MemberKey → List String
  | [] => []
  | m :: ms => m.text :: MemberKey.texts ms

end

instance : ToString NextHopKey := ⟨NextHopKey.text⟩

end VxlanRouting
