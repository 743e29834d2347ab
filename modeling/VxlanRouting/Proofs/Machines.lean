import VxlanRouting.Proofs.Leak

/-!
Exports are made of machines. What is exported of a local next-hop are the interfaces of machines
behind it, and what leaks of an exported path are those interfaces again, as far as they still are
of machines. A next-hop is current if it is what its key resolves to now; then the interfaces of
machines behind it can be read off its key.
-/
namespace VxlanRouting

/-- The next-hop is what its key resolves to now, if it does. -/
def NextHop.Current (t : InterfaceTable) (h : NextHop) : Prop := ∀ hop ∈ h.key.resolve t, hop = h

instance (t : InterfaceTable) (h : NextHop) : Decidable (h.Current t) :=
  inferInstanceAs (Decidable (∀ hop ∈ h.key.resolve t, hop = h))

theorem NextHop.current_of_resolve {t : InterfaceTable} {h : NextHop}
    (hr : h.key.resolve t = some h) : h.Current t := by
  intro hop hh
  rw [hr] at hh
  exact (Option.some.inj hh).symm

theorem NextHop.Current.slots_eq {t : InterfaceTable} {kind : CompositeKind}
    {keys : List MemberKey} {slots : List Slot} (h : (composite kind keys slots).Current t) :
    slots = MemberKey.slots t keys := by
  have he := h _ rfl
  simp only [composite.injEq] at he
  exact he.2.2.symm

theorem NextHopKey.not_isInterface_tunnel (t : Tunnel) : ¬ (NextHopKey.tunnel t).isInterface := by
  simp [isInterface, hopKind]

/-- The members of a composite, or the one interface. -/
def NextHopKey.parts : NextHopKey → List MemberKey
  | .interface name policy => [⟨noLabel, .interface name policy⟩]
  | .composite _ ms => ms
  | _ => []

/-- The keys of the members that an advertisement names. -/
def Advertisement.keys : Advertisement → List NextHopKey
  | .single hop _ => [hop]
  | .ecmp composite _ => (composite.members?.getD []).map (·.key)
  | .tunnel t _ => [.tunnel t]

namespace View

/-- The member is the interface of a machine. -/
def IsMachine (v : View) (m : MemberKey) : Prop :=
  match m.key with
  | .interface name _ => v.tables.IsVm name
  | _ => False

instance (v : View) (m : MemberKey) : Decidable (v.IsMachine m) := by
  unfold IsMachine
  split <;> infer_instance

/-- The interfaces of machines behind a next-hop. -/
def machines (v : View) (h : NextHop) : List MemberKey :=
  match h with
  | .interface name _ policy =>
    if v.tables.IsVm name then [⟨noLabel, .interface name policy⟩] else []
  | .composite _ _ slots => v.usableMembers false slots
  | _ => []

theorem isMachine_of_mem_usableMembers {v : View} {slots : List Slot} {m : MemberKey}
    (h : m ∈ v.usableMembers false slots) : v.IsMachine m := by
  obtain ⟨l, hl, rfl⟩ := List.mem_map.mp h
  have hu : v.IsUsable false l.hop := by simpa using (List.mem_filter.mp hl).2
  simp only [IsUsable] at hu
  simp only [IsMachine, LiveMember.toKey]
  split at hu
  · next name label policy he =>
    rw [he]
    exact hu
  · cases hu
  · exact hu.elim

theorem isMachine_of_mem_machines {v : View} {h : NextHop} {m : MemberKey}
    (hm : m ∈ v.machines h) : v.IsMachine m := by
  simp only [machines] at hm
  split at hm
  · split at hm
    · next hvm =>
      rw [List.mem_singleton] at hm
      rw [hm]
      exact hvm
    · cases hm
  · exact isMachine_of_mem_usableMembers hm
  · cases hm

theorem localAdvertisement_eq (v : View) (h : NextHop) (attrs : Attributes) :
    v.localAdvertisement h attrs = v.ofMembers (v.machines h) attrs := by
  cases h with
  | interface name label policy =>
    unfold localAdvertisement machines
    dsimp only
    split
    · rfl
    · rfl
  | _ => rfl

theorem usableMembers_hole (v : View) (tunnels : Bool) (slots : List Slot) :
    v.usableMembers tunnels (.hole :: slots) = v.usableMembers tunnels slots := rfl

theorem usableMembers_live (v : View) (tunnels : Bool) (label : Nat) (h : NextHop)
    (slots : List Slot) : v.usableMembers tunnels (.live label h :: slots) =
      if v.IsUsable tunnels h then ⟨label, h.key⟩ :: v.usableMembers tunnels slots
      else v.usableMembers tunnels slots := by
  simp only [usableMembers]
  by_cases hu : v.IsUsable tunnels h
  · simp [Slot.member?, hu, LiveMember.toKey]
  · simp [Slot.member?, hu]

/-- Of members that have just resolved, the machines are of use, and tunnels where they are
wanted. -/
theorem usableMembers_slot (v : View) {tunnels : Bool} {m : MemberKey}
    (h : tunnels = false ∨ m.key.isInterface) (slots : List Slot) :
    v.usableMembers tunnels (m.slot v.tables.interfaces :: slots) =
      if v.IsMachine m then m :: v.usableMembers tunnels slots
      else v.usableMembers tunnels slots := by
  have hskip : ∀ hop, m.slot v.tables.interfaces = .live m.label hop →
      ¬ v.IsUsable tunnels hop → ¬ v.IsMachine m → v.usableMembers tunnels
        (m.slot v.tables.interfaces :: slots) = if v.IsMachine m then
          m :: v.usableMembers tunnels slots else v.usableMembers tunnels slots := by
    intro hop hs hu hn
    rw [hs, usableMembers_live, if_neg hu, if_neg hn]
  obtain ⟨label, key⟩ := m
  cases key with
  | interface name policy =>
    cases hi : v.tables.interfaces.get? name with
    | none =>
      have hs : MemberKey.slot v.tables.interfaces ⟨label, .interface name policy⟩ = .hole := by
        simp [MemberKey.slot, NextHopKey.resolve, hi]
      have hn : ¬ v.IsMachine ⟨label, .interface name policy⟩ := by
        rintro ⟨i, hi', _⟩
        rw [hi] at hi'
        cases hi'
      rw [hs, usableMembers_hole, if_neg hn]
    | some i =>
      have hs : MemberKey.slot v.tables.interfaces ⟨label, .interface name policy⟩ =
          .live label (.interface name i.label policy) := by
        simp [MemberKey.slot, NextHopKey.resolve, hi]
      by_cases hvm : v.tables.IsVm name
      · have hu : v.IsUsable tunnels (.interface name i.label policy) := hvm
        have hy : v.IsMachine ⟨label, .interface name policy⟩ := hvm
        rw [hs, usableMembers_live, if_pos hu, if_pos hy]
        rfl
      · exact hskip _ hs hvm hvm
  | tunnel t =>
    have ht : tunnels = false := h.resolve_right (NextHopKey.not_isInterface_tunnel t)
    subst ht
    exact hskip _ rfl Bool.false_ne_true id
  | composite kind ms' => exact hskip _ rfl id id
  | vrf name => exact hskip _ rfl id id
  | receive => exact hskip _ rfl id id
  | discard => exact hskip _ rfl id id

theorem usableMembers_slots (v : View) (tunnels : Bool) {ms : List MemberKey}
    (h : tunnels = false ∨ ∀ m ∈ ms, m.key.isInterface) :
    v.usableMembers tunnels (MemberKey.slots v.tables.interfaces ms) = ms.filter v.IsMachine := by
  induction ms with
  | nil => rfl
  | cons m ms ih =>
    have ih := ih (h.imp id fun h m hm => h m (List.mem_cons_of_mem _ hm))
    rw [MemberKey.slots, v.usableMembers_slot (h.imp id fun h => h m List.mem_cons_self), ih]
    by_cases hm : v.IsMachine m
    · simp [hm]
    · simp [hm]

/-- The machines behind a current next-hop are those of its key. -/
theorem machines_of_current {v : View} {h : NextHop} (hc : h.Current v.tables.interfaces) :
    v.machines h = h.key.parts.filter v.IsMachine := by
  cases h with
  | interface name label policy =>
    unfold machines NextHop.key NextHopKey.parts
    dsimp only
    split
    · next hvm => simp [IsMachine, hvm]
    · next hvm => simp [IsMachine, hvm]
  | composite kind keys slots =>
    rw [hc.slots_eq]
    exact v.usableMembers_slots false (.inl rfl)
  | _ => rfl

/-- Members that are interfaces advertise alike in all views. -/
theorem ofMembers_of_isInterface (v w : View) {ms : List MemberKey}
    (h : ∀ m ∈ ms, m.key.isInterface) (attrs : Attributes) :
    v.ofMembers ms attrs = w.ofMembers ms attrs := by
  simp only [ofMembers]
  split
  · rfl
  · exact absurd (h _ List.mem_cons_self) (NextHopKey.not_isInterface_tunnel _)
  · rfl
  · rfl

theorem isInterface_of_isMachine {v : View} {m : MemberKey} (h : v.IsMachine m) :
    m.key.isInterface := by
  simp only [IsMachine] at h
  split at h
  · next name policy he =>
    rw [he]
    rfl
  · exact h.elim

theorem ofMembers_advertised (v : View) (ms : List MemberKey) (attrs : Attributes)
    (t : TunnelTypes) : v.ofMembers ms (attrs.advertised t) = v.ofMembers ms attrs := rfl

/-- What leaks of a path that was exported for some interfaces are those of machines. -/
theorem mirror_of_matches {u v : View} {ms : List MemberKey} (hms : ∀ m ∈ ms, m.key.isInterface)
    {attrs : Attributes} {a : Advertisement} (ha : u.ofMembers ms attrs = some a) {x : Path}
    (hx : a.Matches x) (hc : x.hop.Current v.tables.interfaces) :
    v.mirror x = v.ofMembers (ms.filter v.IsMachine) attrs := by
  simp only [ofMembers] at ha
  split at ha
  · cases ha
  · exact absurd (hms _ List.mem_cons_self) (NextHopKey.not_isInterface_tunnel _)
  · next label hop _ =>
    cases ha
    obtain ⟨hk, hattrs⟩ := hx
    have hif : hop.isInterface := hms ⟨label, hop⟩ List.mem_cons_self
    cases hh : x.hop with
    | interface name l policy =>
      rw [hh] at hk
      subst hk
      simp only [mirror, localAdvertisement, NextHop.key]
      rw [hh, hattrs]
      dsimp only
      by_cases hvm : v.tables.IsVm name
      · have hy : v.IsMachine ⟨label, .interface name policy⟩ := hvm
        rw [if_pos hvm, List.filter_cons_of_pos (by simp [hy])]
        rfl
      · have hn : ¬ v.IsMachine ⟨label, .interface name policy⟩ := hvm
        rw [if_neg hvm, List.filter_cons_of_neg (by simp [hn])]
        rfl
    | _ =>
      rw [hh] at hk
      subst hk
      cases hif
  · cases ha
    obtain ⟨hk, hattrs⟩ := hx
    cases hh : x.hop with
    | composite kind keys slots =>
      rw [hh] at hk hc
      cases hk
      simp only [mirror]
      rw [hh]
      dsimp only
      rw [hc.slots_eq, v.usableMembers_slots true (.inr hms), v.ofMembers_agrees _ hattrs,
        ofMembers_advertised]
    | _ =>
      rw [hh] at hk
      cases hk

theorem ofMembers_eq_none_iff (v : View) (ms : List MemberKey) (attrs : Attributes) :
    v.ofMembers ms attrs = none ↔ ms = [] := by
  simp only [ofMembers]
  split
  · simp
  · simp
  · simp
  · next hn _ _ => simpa using hn

theorem preference_of_matches {v : View} {ms : List MemberKey} {attrs : Attributes}
    {a : Advertisement} (ha : v.ofMembers ms attrs = some a) {x : Path} (hx : a.Matches x) :
    x.attrs.preference = attrs.preference := by
  simp only [ofMembers] at ha
  split at ha
  · cases ha
  · cases ha
    exact congrArg (·.preference) hx.2
  · cases ha
    exact congrArg (·.preference) hx.2
  · cases ha
    have hp : x.attrs = { attrs.advertised .vxlan with ecmpSequence := x.attrs.ecmpSequence } :=
      hx.2
    rw [hp]
    rfl

theorem eq_nil_of_accords {v : View} {ms : List MemberKey} {attrs : Attributes}
    (h : Accords none (v.ofMembers ms attrs)) : ms = [] := by
  rw [← v.ofMembers_eq_none_iff ms attrs]
  cases ha : v.ofMembers ms attrs with
  | none => rfl
  | some a =>
    rw [ha] at h
    exact h.elim

/-- What a path that is there for some interfaces says of them. -/
theorem exports_of_accords {u : View} {ms : List MemberKey} (hms : ∀ m ∈ ms, m.key.isInterface)
    {attrs : Attributes} {x : Path} (h : Accords (some x) (u.ofMembers ms attrs)) :
    ms ≠ [] ∧ x.attrs.preference = attrs.preference ∧ ∀ v : View,
      x.hop.Current v.tables.interfaces →
        v.mirror x = v.ofMembers (ms.filter v.IsMachine) attrs := by
  cases ha : u.ofMembers ms attrs with
  | none =>
    rw [ha] at h
    exact h.elim
  | some a =>
    rw [ha] at h
    refine ⟨fun hn => ?_, preference_of_matches ha h, fun v => mirror_of_matches hms ha h⟩
    rw [hn] at ha
    cases ha

theorem keys_of_ofMembers {v : View} {ms : List MemberKey} (hms : ∀ m ∈ ms, m.key.isInterface)
    {attrs : Attributes} {a : Advertisement} (ha : v.ofMembers ms attrs = some a) :
    a.keys = ms.map (·.key) := by
  simp only [ofMembers] at ha
  split at ha
  · cases ha
  · exact absurd (hms _ List.mem_cons_self) (NextHopKey.not_isInterface_tunnel _)
  · cases ha
    rfl
  · cases ha
    rfl

theorem isVm_of_ofMembers {v : View} {ms : List MemberKey} (hms : ∀ m ∈ ms, v.Offers m)
    {attrs : Attributes} {a : Advertisement} (ha : v.ofMembers ms attrs = some a) {name : String}
    {policy : Bool} (hk : .interface name policy ∈ a.keys) : v.tables.IsVm name := by
  have hoffer : ∀ m ∈ ms, m.key = .interface name policy → v.tables.IsVm name := by
    intro m hm hmk
    rcases hms m hm with ⟨name', policy', hk', hvm⟩ | ⟨t, hk'⟩
    · rw [hmk] at hk'
      cases hk'
      exact hvm
    · rw [hmk] at hk'
      cases hk'
  simp only [ofMembers] at ha
  split at ha
  · cases ha
  · cases ha
    simp [tunnelAdvertisement, Advertisement.keys] at hk
  · cases ha
    exact hoffer _ List.mem_cons_self (List.mem_singleton.mp hk).symm
  · cases ha
    obtain ⟨m, hm, hmk⟩ := List.mem_map.mp hk
    exact hoffer m hm hmk

/-- Only interfaces of machines leak, whatever the path. -/
theorem isVm_of_mirror {v : View} {x : Path} {a : Advertisement} (ha : v.mirror x = some a)
    {name : String} {policy : Bool} (hk : .interface name policy ∈ a.keys) :
    v.tables.IsVm name := by
  simp only [mirror] at ha
  split at ha
  · cases ha
    simp [Advertisement.keys] at hk
  · exact isVm_of_ofMembers (fun m hm => offers_of_mem_usableMembers hm) ha hk
  · rw [localAdvertisement_eq] at ha
    refine isVm_of_ofMembers (fun m hm => .inl ?_) ha hk
    have hm := isMachine_of_mem_machines hm
    simp only [IsMachine] at hm
    split at hm
    · next name policy he => exact ⟨name, policy, he, hm⟩
    · exact hm.elim

/-- What leaks of a path is not what is exported for interfaces that are of no machines here. -/
theorem mirror_ne_ofMembers {u v : View} {ms : List MemberKey} (hne : ms ≠ [])
    (hms : ∀ m ∈ ms, m.key.isInterface ∧ ¬ v.IsMachine m) (attrs : Attributes) (x : Path) :
    v.mirror x ≠ u.ofMembers ms attrs := by
  intro h
  obtain ⟨a, ha⟩ := Option.ne_none_iff_exists'.mp (mt (u.ofMembers_eq_none_iff ms attrs).mp hne)
  obtain ⟨m, hm⟩ := List.exists_mem_of_ne_nil ms hne
  obtain ⟨hif, hn⟩ := hms m hm
  obtain ⟨name, policy, hk⟩ : ∃ name policy, m.key = .interface name policy := by
    simp only [NextHopKey.isInterface] at hif
    cases hk : m.key with
    | interface name policy => exact ⟨name, policy, rfl⟩
    | _ =>
      rw [hk] at hif
      cases hif
  have hmem : .interface name policy ∈ a.keys := by
    rw [keys_of_ofMembers (fun m hm => (hms m hm).1) ha, ← hk]
    exact List.mem_map.mpr ⟨m, hm, rfl⟩
  apply hn
  simp only [IsMachine]
  rw [hk]
  exact isVm_of_mirror (h.trans ha) hmem

theorem leakWith_none_ne_ofMembers {u v : View} {ms : List MemberKey} (hne : ms ≠ [])
    (hms : ∀ m ∈ ms, m.key.isInterface ∧ ¬ v.IsMachine m) (attrs : Attributes) (vrf : String)
    (p : Prefix) : v.leakWith vrf p none ≠ u.ofMembers ms attrs := by
  intro h
  simp only [leakWith, Route.better] at h
  cases hr : v.rival vrf p with
  | none =>
    rw [hr] at h
    exact hne ((u.ofMembers_eq_none_iff ms attrs).mp h.symm)
  | some x =>
    rw [hr] at h
    exact mirror_ne_ofMembers hne hms attrs x h

theorem mirror_of_fresh {v : View} {hop : NextHop} {attrs : Attributes} {peer : Peer} {x : Path}
    (h : Fresh v.tables.interfaces peer (v.localAdvertisement hop attrs) (some x)) :
    v.mirror x = v.localAdvertisement hop attrs := by
  have hms : ∀ m ∈ v.machines hop, v.IsMachine m := fun m hm => isMachine_of_mem_machines hm
  cases ha : v.localAdvertisement hop attrs with
  | none =>
    rw [ha] at h
    exact h.accords.elim
  | some a =>
    rw [ha] at h
    rw [localAdvertisement_eq] at ha
    rw [mirror_of_matches (fun m hm => isInterface_of_isMachine (hms m hm)) ha h.accords
      (NextHop.current_of_resolve (h.resolved x rfl)),
      List.filter_eq_self.mpr (by simpa using hms), ha]

/-- A fresh export leaks as what it is exported for. -/
theorem mirror_of_exported {v : View} (ht : v.tables.Proper) {vrf : String} {p : Prefix}
    {peer : Peer} {x : Path}
    (h : Fresh v.tables.interfaces peer (v.exported vrf p) (some x)) :
    v.mirror x = v.exported vrf p := by
  cases he : v.exported vrf p with
  | none =>
    rw [he] at h
    exact h.accords.elim
  | some a =>
    have hl := he
    rw [exported_eq ht] at hl
    obtain ⟨s, _, hl⟩ := Option.bind_eq_some_iff.mp hl
    obtain ⟨r, _, hl⟩ := Option.bind_eq_some_iff.mp hl
    rw [he, ← hl] at h
    rw [mirror_of_fresh h, hl]

/-- Where nothing leaks although there is a fresh export or none, nothing leaks without it. -/
theorem leakWith_none_of_fresh {v : View} (ht : v.tables.Proper) {vrf : String} {p : Prefix}
    {peer : Peer} {found : Option Path}
    (hf : Fresh v.tables.interfaces peer (v.exported vrf p) found)
    (h : v.leakWith vrf p found = none) : v.leakWith vrf p none = none := by
  cases found with
  | none => exact h
  | some y =>
    have hy : v.mirror y ≠ none := by
      rw [mirror_of_exported ht hf]
      intro hn
      rw [hn] at hf
      exact hf.accords.elim
    by_cases hw : v.Wins vrf p y
    · rw [leakWith_of_wins hw] at h
      exact absurd h hy
    · rw [leakWith_of_not_wins hw] at h
      exact h

end View

end VxlanRouting
