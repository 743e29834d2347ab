import VxlanRouting.NextHop.Key

/-!
Next-hops, as installed paths hold them. A composite keeps the keys of its members next to one slot
for each; a slot is a hole while its key does not resolve. The key of a next-hop is what it was
resolved from, holes included.
-/
namespace VxlanRouting

mutual

inductive NextHop where
  | interface (name : String) (label : Nat) (policy : Bool)
  | composite (kind : CompositeKind) (keys : List MemberKey) (slots : List Slot)
  | tunnel (tunnel : Tunnel)
  | vrf (name : String)
  | receive
  | discard

/-- The place of a member in a composite. -/
inductive Slot where
  | hole
  | live (label : Nat) (hop : NextHop)

end

mutual

/-- Whether two next-hops are the same, slot by slot. -/
def NextHop.same : NextHop → NextHop → Bool
  | .interface n l p, .interface n' l' p' => n == n' && l == l' && p == p'
  | .composite k ms ss, .composite k' ms' ss' => k == k' && ms == ms' && Slot.sameAll ss ss'
  | .tunnel t, .tunnel t' => t == t'
  | .vrf n, .vrf n' => n == n'
  | .receive, .receive => true
  | .discard, .discard => true
  | _, _ => false

def Slot.same : Slot → Slot → Bool
  | .hole, .hole => true
  | .live l h, .live l' h' => l == l' && h.same h'
  | _, _ => false

def Slot.sameAll : List Slot → List Slot → Bool
  | [], [] => true
  | s :: ss, s' :: ss' => s.same s' && Slot.sameAll ss ss'
  | _, _ => false

end

mutual

theorem NextHop.same_refl : ∀ h : NextHop, h.same h = true
  | .interface _ _ _ => by simp [NextHop.same]
  | .composite _ _ ss => by simp [NextHop.same, Slot.sameAll_refl ss]
  | .tunnel _ => by simp [NextHop.same]
  | .vrf _ => by simp [NextHop.same]
  | .receive => rfl
  | .discard => rfl

theorem Slot.same_refl : ∀ s : Slot, s.same s = true
  | .hole => rfl
  | .live _ h => by simp [Slot.same, NextHop.same_refl h]

theorem Slot.sameAll_refl : ∀ ss : List Slot, Slot.sameAll ss ss = true
  | [] => rfl
  | s :: ss => by simp [Slot.sameAll, Slot.same_refl s, Slot.sameAll_refl ss]

end

mutual

theorem NextHop.eq_of_same : ∀ h h' : NextHop, h.same h' = true → h = h'
  | .interface _ _ _, h', e => by cases h' <;> simp_all [NextHop.same]
  | .composite _ _ ss, h', e => by
    cases h' with
    | composite _ _ ss' =>
      simp only [NextHop.same, Bool.and_eq_true, beq_iff_eq] at e
      rw [e.1.1, e.1.2, Slot.eq_of_sameAll ss ss' e.2]
    | _ => simp [NextHop.same] at e
  | .tunnel _, h', e => by cases h' <;> simp_all [NextHop.same]
  | .vrf _, h', e => by cases h' <;> simp_all [NextHop.same]
  | .receive, h', e => by cases h' <;> simp_all [NextHop.same]
  | .discard, h', e => by cases h' <;> simp_all [NextHop.same]

theorem Slot.eq_of_same : ∀ s s' : Slot, s.same s' = true → s = s'
  | .hole, s', e => by cases s' <;> simp_all [Slot.same]
  | .live _ h, s', e => by
    cases s' with
    | live _ h' =>
      simp only [Slot.same, Bool.and_eq_true, beq_iff_eq] at e
      rw [e.1, NextHop.eq_of_same h h' e.2]
    | hole => simp [Slot.same] at e

theorem Slot.eq_of_sameAll : ∀ ss ss' : List Slot, Slot.sameAll ss ss' = true → ss = ss'
  | [], [], _ => rfl
  | [], _ :: _, e => by simp [Slot.sameAll] at e
  | _ :: _, [], e => by simp [Slot.sameAll] at e
  | s :: ss, s' :: ss', e => by
    simp only [Slot.sameAll, Bool.and_eq_true] at e
    rw [Slot.eq_of_same s s' e.1, Slot.eq_of_sameAll ss ss' e.2]

end

instance : DecidableEq NextHop := fun h h' =>
  decidable_of_iff (h.same h' = true) ⟨NextHop.eq_of_same h h', fun e => e ▸ h.same_refl⟩

instance : DecidableEq Slot := fun s s' =>
  decidable_of_iff (s.same s' = true) ⟨Slot.eq_of_same s s', fun e => e ▸ s.same_refl⟩

/-- A member of a composite that has resolved. -/
structure LiveMember where
  label : Nat
  hop : NextHop
  deriving DecidableEq

def Slot.member? : Slot → Option LiveMember
  | .hole => none
  | .live label hop => some ⟨label, hop⟩

namespace NextHop

def hopKind : NextHop → HopKind
  | .interface _ _ _ => .interface
  | .composite _ _ _ => .composite
  | .tunnel _ => .tunnel
  | .vrf _ => .vrf
  | .receive => .receive
  | .discard => .discard

/-- What the next-hop was resolved from. -/
def key : NextHop → NextHopKey
  | .interface name _ policy => .interface name policy
  | .composite kind keys _ => .composite kind keys
  | .tunnel t => .tunnel t
  | .vrf name => .vrf name
  | .receive => .receive
  | .discard => .discard

@[simp] theorem hopKind_key (h : NextHop) : h.key.hopKind = h.hopKind := by cases h <;> rfl

/-- The next-hop, or a member of it at any depth, is the interface of this name. -/
def mentions (name : String) : NextHop → Bool
  | .interface n _ _ => n == name
  | .composite _ keys _ => MemberKey.anyMentions name keys
  | _ => false

theorem mentions_key (name : String) (h : NextHop) : h.key.mentions name = h.mentions name := by
  cases h <;> rfl

def isInterface (h : NextHop) : Bool := h.hopKind == .interface

/-- The members of a composite that have resolved; `none` for other next-hops. -/
def live? : NextHop → Option (List LiveMember)
  | .composite _ _ slots => some (slots.filterMap Slot.member?)
  | _ => none

/-- A composite all of whose live members are of a kind. -/
def allLive (h : NextHop) (k : HopKind) : Bool :=
  h.live?.any fun ms => ms.all fun m => m.hop.hopKind == k

/-- A composite with a live member of a kind. -/
def anyLive (h : NextHop) (k : HopKind) : Bool :=
  h.live?.any fun ms => ms.any fun m => m.hop.hopKind == k

end NextHop

/-- A hole is shown by its key. -/
def MemberKey.holeText (m : MemberKey) : String := m.key.text ++ " (unresolved)"

mutual

def NextHop.text : NextHop → String
  | .interface name label _ => "interface " ++ name ++ " label " ++ toString label
  | .composite kind keys slots =>
    kind.name ++ " composite [" ++ ", ".intercalate (Slot.texts keys slots) ++ "]"
  | .tunnel t => toString t
  | .vrf name => "vrf " ++ name
  | .receive => "receive"
  | .discard => "discard"

/-- A slot under its key. -/
def Slot.text (key : MemberKey) : Slot → String
  | .hole => key.holeText
  | .live label hop => hop.text ++ " label " ++ toString label

/-- Keys and slots side by side, as far as both reach. -/
def Slot.texts : List MemberKey → List Slot → List String
  | k :: ks, s :: ss => s.text k :: Slot.texts ks ss
  | _, _ => []

end

instance : ToString NextHop := ⟨NextHop.text⟩

end VxlanRouting
