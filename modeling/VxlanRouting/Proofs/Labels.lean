import Mathlib.Data.List.Forall2
import VxlanRouting.NextHop.Resolve

/-!
What a key takes from the interfaces. It is the labels of the interfaces that the key names, however
deep in composites, and nothing else: tables of interfaces that agree on these labels resolve the
key alike, and tables that do not resolve it differently. What it resolves to has the key at hand,
and a composite has one slot for each of its members, with what the member resolves to.
-/
namespace VxlanRouting

/-- The label of an interface, if it is there. -/
def InterfaceTable.label? (t : InterfaceTable) (name : String) : Option Nat :=
  (t.get? name).map (·.label)

/-! ### The interfaces that are named -/

section

variable (t u : InterfaceTable)

theorem NextHopKey.resolve_interface (name : String) (policy : Bool) :
    (NextHopKey.interface name policy).resolve t =
      (t.label? name).map fun label => .interface name label policy := by
  simp only [resolve, InterfaceTable.label?, Option.map_map]
  rfl

mutual

theorem NextHopKey.resolve_eq_iff : ∀ k : NextHopKey, k.resolve t = k.resolve u ↔
    ∀ name, k.mentions name = true → t.label? name = u.label? name
  | .interface name policy => by
    have hinj : Function.Injective fun label => NextHop.interface name label policy := by
      intro l l' h
      cases h
      rfl
    simp only [NextHopKey.resolve_interface, NextHopKey.mentions, beq_iff_eq, forall_eq']
    exact (Option.map_injective hinj).eq_iff
  | .composite kind ms => by
    simp only [NextHopKey.resolve, NextHopKey.mentions, Option.some.injEq,
      NextHop.composite.injEq, true_and]
    exact MemberKey.slots_eq_iff ms
  | .tunnel _ => by simp [NextHopKey.resolve, NextHopKey.mentions]
  | .vrf _ => by simp [NextHopKey.resolve, NextHopKey.mentions]
  | .receive => by simp [NextHopKey.resolve, NextHopKey.mentions]
  | .discard => by simp [NextHopKey.resolve, NextHopKey.mentions]

theorem MemberKey.slot_eq_iff : ∀ m : MemberKey, m.slot t = m.slot u ↔
    ∀ name, m.mentions name = true → t.label? name = u.label? name
  | ⟨label, k⟩ => by
    simp only [MemberKey.mentions]
    rw [← NextHopKey.resolve_eq_iff k]
    simp only [MemberKey.slot]
    constructor
    · intro h
      cases ht : k.resolve t <;> cases hu : k.resolve u <;> rw [ht, hu] at h
      · cases h
      · cases h
      · cases h
        rfl
    · intro h
      rw [h]

theorem MemberKey.slots_eq_iff : ∀ ms : List MemberKey,
    MemberKey.slots t ms = MemberKey.slots u ms ↔
      ∀ name, MemberKey.anyMentions name ms = true → t.label? name = u.label? name
  | [] => by simp [MemberKey.slots, MemberKey.anyMentions]
  | m :: ms => by
    simp only [MemberKey.slots, List.cons.injEq, MemberKey.anyMentions, Bool.or_eq_true]
    rw [MemberKey.slot_eq_iff m, MemberKey.slots_eq_iff ms]
    exact ⟨fun h name hn => hn.elim (h.1 name) (h.2 name),
      fun h => ⟨fun name hn => h name (.inl hn), fun name hn => h name (.inr hn)⟩⟩

end

variable {t u}

/-- A key resolves alike if the interfaces that it names are the same. -/
theorem NextHopKey.resolve_eq_of_agree {k : NextHopKey}
    (h : ∀ name, k.mentions name = true → t.get? name = u.get? name) :
    k.resolve t = k.resolve u := by
  refine (k.resolve_eq_iff t u).mpr fun name hn => ?_
  simp only [InterfaceTable.label?]
  rw [h name hn]

end

/-! ### The members of a composite -/

/-- The slot of a member: what the key of the member resolves to, under the label of the member, or
a hole if it does not resolve. -/
inductive MemberKey.Fills (t : InterfaceTable) (m : MemberKey) : Slot → Prop
  | live {h : NextHop} (resolved : m.key.resolve t = some h) : Fills t m (.live m.label h)
  | hole (unresolved : m.key.resolve t = none) : Fills t m .hole

theorem MemberKey.fills_slot (t : InterfaceTable) (m : MemberKey) : m.Fills t (m.slot t) := by
  obtain ⟨label, k⟩ := m
  simp only [slot]
  cases hr : k.resolve t with
  | some h => exact .live hr
  | none => exact .hole hr

/-- The slots of a composite are those of its members, one by one. -/
theorem NextHopKey.fills_of_resolve {t : InterfaceTable} {k : NextHopKey} {kind : CompositeKind}
    {ms : List MemberKey} {ss : List Slot} (h : k.resolve t = some (.composite kind ms ss)) :
    List.Forall₂ (MemberKey.Fills t) ms ss := by
  have hk : k = .composite kind ms := (key_of_resolve h).symm
  subst hk
  cases h
  rw [MemberKey.slots_eq_map]
  exact List.forall₂_map_right_iff.mpr (List.forall₂_same.mpr fun m _ => m.fills_slot t)

/-- A live member of a next-hop, at any depth, next to the key that its slot belongs to. -/
inductive NextHop.HasMember : NextHop → MemberKey → LiveMember → Prop
  | direct {kind : CompositeKind} {ms : List MemberKey} {ss : List Slot} {m : MemberKey}
      {label : Nat} {h : NextHop} (beside : (m, .live label h) ∈ ms.zip ss) :
      HasMember (.composite kind ms ss) m ⟨label, h⟩
  | inner {h : NextHop} {m m' : MemberKey} {x x' : LiveMember} (outer : HasMember h m x)
      (inside : HasMember x.hop m' x') : HasMember h m' x'

theorem NextHop.HasMember.resolved {t : InterfaceTable} {h : NextHop} {m : MemberKey}
    {x : LiveMember} (hm : h.HasMember m x) {k : NextHopKey} (hr : k.resolve t = some h) :
    x.label = m.label ∧ m.key.resolve t = some x.hop := by
  induction hm generalizing k with
  | direct beside =>
    have hfills := (List.forall₂_iff_zip.mp (NextHopKey.fills_of_resolve hr)).2 beside
    cases hfills with
    | live hm => exact ⟨rfl, hm⟩
  | inner _ _ ih ih' => exact ih' (ih hr).2

namespace NextHopKey

/-- Resolving a key depends on the interfaces that it names and on no other. What it resolves to has
this key and names the same interfaces; a composite has one slot for each member, and each live
member, at any depth, has the label of its key and is what this key resolves to. -/
theorem resolve_local (k : NextHopKey) :
    (∀ t u : InterfaceTable, (∀ name, k.mentions name = true → t.get? name = u.get? name) →
      k.resolve t = k.resolve u) ∧
    ∀ (t : InterfaceTable) (h : NextHop), k.resolve t = some h →
      h.key = k ∧ (∀ name, h.mentions name = k.mentions name) ∧
      (∀ kind ms ss, h = .composite kind ms ss → List.Forall₂ (MemberKey.Fills t) ms ss) ∧
      ∀ m x, h.HasMember m x → x.label = m.label ∧ m.key.resolve t = some x.hop := by
  refine ⟨fun t u => resolve_eq_of_agree, fun t h hr => ?_⟩
  have hk : h.key = k := key_of_resolve hr
  refine ⟨hk, fun name => ?_, fun kind ms ss hc => ?_, fun m x hm => hm.resolved hr⟩
  · rw [← hk, NextHop.mentions_key]
  · rw [hc] at hr
    exact fills_of_resolve hr

end NextHopKey

namespace Sample

/-- The one interface that is there. -/
def labelled : InterfaceTable := ⟨[("tap", ⟨"tap", .vm {}, 3⟩)]⟩

def innerMember : MemberKey :=
  ⟨8, .composite .localEcmp [⟨1, .interface "tap2" false⟩, ⟨2, .interface "tap" true⟩]⟩

/-- A composite in a composite; one member of each names an interface that is not there. -/
def nestedKey : NextHopKey := .composite .ecmp [⟨9, .interface "tap2" false⟩, innerMember]

end Sample

namespace NextHopKey

/-- An interface that is not named does not matter, and the one that is there gives its label. -/
theorem resolve_local_nested :
    Sample.nestedKey.resolve (Sample.labelled.put ⟨"tap3", .vm {}, 5⟩) =
        Sample.nestedKey.resolve Sample.labelled ∧
      ∃ h, Sample.nestedKey.resolve Sample.labelled = some h ∧ h.key = Sample.nestedKey ∧
        h.HasMember ⟨2, .interface "tap" true⟩ ⟨2, .interface "tap" 3 true⟩ ∧
        resolve Sample.labelled (.interface "tap" true) = some (.interface "tap" 3 true) := by
  have hagree : ∀ name, Sample.nestedKey.mentions name = true →
      (Sample.labelled.put ⟨"tap3", .vm {}, 5⟩).get? name = Sample.labelled.get? name := by
    intro name hn
    refine OrderedMap.get?_insert_of_ne _ _ ?_
    rintro rfl
    cases hn
  obtain ⟨hkey, _, _, hmembers⟩ := Sample.nestedKey.resolve_local.2 Sample.labelled _ rfl
  refine ⟨Sample.nestedKey.resolve_local.1 _ _ hagree, _, rfl, hkey, ?live, (hmembers _ _ ?live).2⟩
  exact .inner (.direct (.tail _ (.head _))) (.direct (.tail _ (.head _)))

end NextHopKey

end VxlanRouting
