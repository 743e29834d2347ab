import VxlanRouting.Interface
import VxlanRouting.NextHop.Basic

/-!
Resolving next-hop keys. An interface key resolves if the table has the interface, whose label it
takes. A composite always resolves; its members that do not are holes.
-/
namespace VxlanRouting

mutual

def NextHopKey.resolve (t : InterfaceTable) : NextHopKey → Option NextHop
  | .interface name policy => (t.get? name).map fun i => .interface name i.label policy
  | .composite kind ms => some (.composite kind ms (MemberKey.slots t ms))
  | .tunnel x => some (.tunnel x)
  | .vrf name => some (.vrf name)
  | .receive => some .receive
  | .discard => some .discard

/-- The slot of a member: live if its key resolves. -/
def MemberKey.slot (t : InterfaceTable) : MemberKey → Slot
  | ⟨label, key⟩ =>
    match key.resolve t with
    | some hop => .live label hop
    | none => .hole

def MemberKey.slots (t : InterfaceTable) : List MemberKey → List Slot
  | [] => []
  | m :: ms => m.slot t :: MemberKey.slots t ms

end

theorem MemberKey.slots_eq_map (t : InterfaceTable) (ms : List MemberKey) :
    MemberKey.slots t ms = ms.map (MemberKey.slot t) := by
  induction ms with
  | nil => rfl
  | cons m ms ih => rw [MemberKey.slots, ih]; rfl

/-- A next-hop keeps the key that it was resolved from. -/
theorem NextHopKey.key_of_resolve {t : InterfaceTable} {k : NextHopKey} {h : NextHop}
    (e : k.resolve t = some h) : h.key = k := by
  cases k with
  | interface name policy =>
    obtain ⟨i, _, hi⟩ := Option.map_eq_some_iff.mp e
    rw [← hi]; rfl
  | _ => cases e; rfl

end VxlanRouting
