import VxlanRouting.Proofs.Change
import VxlanRouting.Proofs.Registry
import VxlanRouting.Proofs.Rewiring

/-!
What the configuration of a VN does to the map of routers. It puts the VN where it says, and
nowhere else; all other VNs stay where they are, but for the routing VN that the new one replaces.
As a bridge the VN comes last, and the other bridges keep their order. Every router that this
changes is told, and told once.
-/
namespace VxlanRouting

namespace LogicalRouter

/-- The router has the VN in a role, with a VRF. -/
def HasAs (r : LogicalRouter) (vn : String) (routing : Bool) (vrf : String) : Prop :=
  if routing then r.routingVn = some vn ∧ r.routingVrf = some vrf
  else r.bridges.get? vn = some vrf

theorem HasAs.lists {r : LogicalRouter} {vn vrf : String} {routing : Bool}
    (h : r.HasAs vn routing vrf) : r.Lists vn := by
  cases routing with
  | true => exact .inl h.1
  | false =>
    have hb : r.bridges.get? vn = some vrf := h
    exact .inr (by rw [ArrivalMap.contains, hb]; rfl)

theorem hasAs_congr {r r' : LogicalRouter} (h : r.bare = r'.bare) (vn : String) (routing : Bool)
    (vrf : String) : r.HasAs vn routing vrf ↔ r'.HasAs vn routing vrf := by
  show r.bare.HasAs vn routing vrf ↔ r'.bare.HasAs vn routing vrf
  rw [h]

/-- A VN that is listed has a role and a VRF. -/
theorem Sound.exists_hasAs {r : LogicalRouter} (h : r.Sound) {vn : String} (hl : r.Lists vn) :
    ∃ routing vrf, r.HasAs vn routing vrf := by
  rcases hl with hr | hb
  · obtain ⟨vrf, hvrf⟩ := Option.ne_none_iff_exists'.mp fun hn => by
      rw [h.paired.mp hn] at hr
      cases hr
    exact ⟨true, vrf, hr, hvrf⟩
  · obtain ⟨vrf, hvrf⟩ := Option.isSome_iff_exists.mp hb
    exact ⟨false, vrf, hvrf⟩

/-- Not more than one, each. -/
theorem Sound.hasAs_unique {r : LogicalRouter} (h : r.Sound) {vn vrf vrf' : String}
    {routing routing' : Bool} (hv : r.HasAs vn routing vrf) (hv' : r.HasAs vn routing' vrf') :
    routing = routing' ∧ vrf = vrf' := by
  have hbridge : ∀ {vrf vrf'}, r.HasAs vn true vrf → ¬ r.HasAs vn false vrf' := by
    intro vrf vrf' hr hb
    have hb : r.bridges.get? vn = some vrf' := hb
    rw [h.single vn hr.1] at hb
    cases hb
  cases routing <;> cases routing'
  · exact ⟨rfl, Option.some.inj (hv.symm.trans hv')⟩
  · exact absurd hv (hbridge hv')
  · exact absurd hv' (hbridge hv)
  · exact ⟨rfl, Option.some.inj (hv.2.symm.trans hv'.2)⟩

theorem hasAs_without {r : LogicalRouter} {vn vn' vrf : String} {routing : Bool} :
    (r.without vn).HasAs vn' routing vrf ↔ vn' ≠ vn ∧ r.HasAs vn' routing vrf := by
  by_cases he : vn' = vn
  · subst he
    exact iff_of_false (fun h => not_lists_without r vn' h.lists) fun h => h.1 rfl
  · rw [and_iff_right he]
    cases routing with
    | true =>
      show (r.without vn).routingVn = some vn' ∧ (r.without vn).routingVrf = some vrf ↔
        r.routingVn = some vn' ∧ r.routingVrf = some vrf
      rw [routingVn_without, routingVrf_without]
      split
      · next hr => simp [hr, Ne.symm he]
      · rfl
    | false =>
      show (r.without vn).bridges.get? vn' = some vrf ↔ r.bridges.get? vn' = some vrf
      rw [bridges_without, ArrivalMap.get?_erase_of_ne _ he]

/-- A VN that joins a router is there as configured; the others stay, but for a routing VN if it is
replaced. -/
theorem hasAs_join {r : LogicalRouter} {c : VnConfig} (hc : ¬ r.Lists c.name) {vn vrf : String}
    {routing : Bool} : (r.join c).HasAs vn routing vrf ↔
      (vn = c.name ∧ routing = c.routing ∧ vrf = c.vrf) ∨
        (vn ≠ c.name ∧ r.HasAs vn routing vrf ∧ ¬ (c.routing = true ∧ routing = true)) := by
  obtain ⟨name, f, router, role⟩ := c
  have hr : r.routingVn ≠ some name := fun h => hc (.inl h)
  have hb : r.bridges.get? name = none := by
    have hn : ¬ r.bridges.contains name = true := fun h => hc (.inr h)
    simpa [ArrivalMap.contains] using hn
  -- a role that the VN does not join in is asked of the router before, where the VN is in none
  cases role <;> cases routing
  · show (r.bridges.insert name f).get? vn = some vrf ↔ _ ∨ _ ∧ r.bridges.get? vn = some vrf ∧ _
    by_cases he : vn = name
    · subst he
      simp [eq_comm]
    · simp [ArrivalMap.get?_insert_of_ne _ _ he, he]
  · show r.routingVn = some vn ∧ r.routingVrf = some vrf ↔
      _ ∨ _ ∧ (r.routingVn = some vn ∧ r.routingVrf = some vrf) ∧ _
    by_cases he : vn = name
    · subst he
      simp [hr]
    · simp [he]
  · show r.bridges.get? vn = some vrf ↔ _ ∨ _ ∧ r.bridges.get? vn = some vrf ∧ _
    by_cases he : vn = name
    · subst he
      simp [hb]
    · simp [he]
  · show some name = some vn ∧ some f = some vrf ↔ _
    simp [eq_comm]

/-- A router that does not list a VN is the same without it. -/
theorem without_of_not_lists {r : LogicalRouter} {vn : String} (h : ¬ r.Lists vn) :
    r.without vn = r := by
  have hb : r.bridges.erase vn = r.bridges := by
    simp only [ArrivalMap.erase, Entries.erase]
    rw [List.filter_eq_self.mpr]
    intro b hb
    exact decide_eq_true fun he => RouterMap.not_mem_keys_of_not_lists h
      (he ▸ List.mem_map_of_mem hb)
  unfold without
  dsimp only
  rw [if_neg fun hr => h (.inl hr), hb]

/-- What is left of a router when a VN leaves; one without VNs is forgotten, with its counter. -/
def leave (r : LogicalRouter) (vn : String) : LogicalRouter :=
  if (r.without vn).isEmpty then {} else r.without vn

theorem not_lists_leave (r : LogicalRouter) (vn : String) : ¬ (r.leave vn).Lists vn := by
  unfold leave
  split
  · exact not_lists_of_isEmpty rfl vn
  · exact not_lists_without r vn

namespace Sound

variable {r : LogicalRouter} (h : r.Sound)

include h

theorem bare_leave (vn : String) : (r.leave vn).bare = (r.without vn).bare := by
  unfold leave
  split
  · next he =>
    have hpaired := (h.without vn).paired
    obtain ⟨hr, hb⟩ : (r.without vn).routingVn = none ∧ (r.without vn).bridges.entries = [] := by
      simpa [isEmpty, ArrivalMap.isEmpty] using he
    generalize r.without vn = r' at *
    obtain ⟨_, _, ⟨_⟩, _⟩ := r'
    cases hr
    cases hb
    cases hpaired.mpr rfl
    rfl
  · rfl

theorem hasAs_leave {vn vn' vrf : String} {routing : Bool} :
    (r.leave vn).HasAs vn' routing vrf ↔ vn' ≠ vn ∧ r.HasAs vn' routing vrf := by
  rw [hasAs_congr (h.bare_leave vn), hasAs_without]

theorem bridges_leave (vn : String) : (r.leave vn).bridges = r.bridges.erase vn := by
  have hb : (r.leave vn).bridges = (r.without vn).bridges :=
    congrArg (·.bridges) (h.bare_leave vn)
  rw [hb, bridges_without]

end Sound

/-- A bridge that joins a router comes last. -/
theorem entries_bridges_join {r : LogicalRouter} {c : VnConfig} (hc : ¬ r.Lists c.name) :
    (r.join c).bridges.entries =
      r.bridges.entries ++ if c.routing = false then [(c.name, c.vrf)] else [] := by
  unfold join
  split
  · next h => rw [if_neg (by simp [h]), List.append_nil]
  · next h =>
    rw [if_pos (by simpa using h)]
    exact ArrivalMap.entries_insert_of_not_mem _ _ (RouterMap.not_mem_keys_of_not_lists hc)

end LogicalRouter

namespace RouterMap

/-- A router has the VN in a role, with a VRF. -/
def Holds (m : RouterMap) (id : LogicalRouterId) (vn : String) (routing : Bool) (vrf : String) :
    Prop :=
  ∃ r, m.router? id = some r ∧ r.HasAs vn routing vrf

theorem holds_iff_known {m : RouterMap} {id : LogicalRouterId} {vn vrf : String}
    {routing : Bool} : m.Holds id vn routing vrf ↔ (m.known id).HasAs vn routing vrf := by
  simp only [Holds, known]
  cases m.router? id with
  | none =>
    refine iff_of_false (fun h => ?_) fun h => ?_
    · obtain ⟨r, hr, _⟩ := h
      cases hr
    · cases routing <;> simp [LogicalRouter.HasAs] at h
  | some r => simp

theorem snd_detach (m : RouterMap) (vn : String) : (m.detach vn).2 = m.ownerOf? vn := by
  simp only [detach]
  split
  · next h => exact h.symm
  · next h => exact h.symm

theorem known_eq {m : RouterMap} {id : LogicalRouterId} {r : LogicalRouter}
    (hr : m.router? id = some r) : m.known id = r := by
  rw [known, hr]
  rfl

theorem known_attach (m : RouterMap) (c : VnConfig) (id id' : LogicalRouterId) :
    (m.attach c id).known id' = if id' = id then (m.known id).join c else m.known id' := by
  simp only [known]
  rw [router?_attach]
  split <;> rfl

/-- The VN already is in the router that it is configured for, as configured. -/
def InPlace (m : RouterMap) (c : VnConfig) : Prop := ∃ id, c.router = some id ∧ m.Settled c id

theorem configure_of_inPlace {m : RouterMap} {c : VnConfig} (hs : m.InPlace c) :
    (m.configure c).1 = m := by
  obtain ⟨id, hc, hs⟩ := hs
  simp only [configure]
  rw [hc]
  dsimp only
  rw [if_pos hs]

/-- The VN is where its configuration says, and nowhere else. -/
def Placed (m : RouterMap) (c : VnConfig) : Prop :=
  ∀ id routing vrf, m.Holds id c.name routing vrf ↔
    c.router = some id ∧ routing = c.routing ∧ vrf = c.vrf

namespace Coherent

variable {m : RouterMap} (h : m.Coherent)

include h

/-- The index knows where the VNs are. -/
theorem ownerOf?_iff_holds {vn : String} {id : LogicalRouterId} :
    m.ownerOf? vn = some id ↔ ∃ routing vrf, m.Holds id vn routing vrf := by
  rw [h.owns_known]
  simp only [holds_iff_known]
  exact ⟨(h.sound_known id).exists_hasAs, fun ⟨_, _, hv⟩ => hv.lists⟩

/-- A VN is in one place only. -/
theorem holds_unique {vn vrf vrf' : String} {id id' : LogicalRouterId} {routing routing' : Bool}
    (hv : m.Holds id vn routing vrf) (hv' : m.Holds id' vn routing' vrf') :
    id = id' ∧ routing = routing' ∧ vrf = vrf' := by
  have ho : m.ownerOf? vn = some id := h.ownerOf?_iff_holds.mpr ⟨routing, vrf, hv⟩
  have ho' : m.ownerOf? vn = some id' := h.ownerOf?_iff_holds.mpr ⟨routing', vrf', hv'⟩
  obtain rfl : id = id' := Option.some.inj (ho.symm.trans ho')
  rw [holds_iff_known] at hv hv'
  exact ⟨rfl, (h.sound_known id).hasAs_unique hv hv'⟩

theorem settled_iff_holds {c : VnConfig} {id : LogicalRouterId} :
    m.Settled c id ↔ m.Holds id c.name c.routing c.vrf :=
  ⟨And.right, fun hv => ⟨h.ownerOf?_iff_holds.mpr ⟨c.routing, c.vrf, hv⟩, hv⟩⟩

/-- A VN that is in the place it is configured for is in no other. -/
theorem placed_of_inPlace {c : VnConfig} (hs : m.InPlace c) : m.Placed c := by
  obtain ⟨id, hc, _, hs⟩ := hs
  have hs : m.Holds id c.name c.routing c.vrf := hs
  intro id' routing vrf
  constructor
  · intro hv
    obtain ⟨rfl, rfl, rfl⟩ := h.holds_unique hv hs
    exact ⟨hc, rfl, rfl⟩
  · rintro ⟨hid, rfl, rfl⟩
    rw [hc] at hid
    cases hid
    exact hs

end Coherent

namespace Indexed

variable {m : RouterMap} (h : m.Indexed)

include h

/-- A VN that a router does not have takes nothing from it. -/
theorem leave_of_not_lists {id : LogicalRouterId} {vn : String} (hn : ¬ (m.known id).Lists vn) :
    (m.known id).leave vn = m.known id := by
  unfold LogicalRouter.leave
  rw [LogicalRouter.without_of_not_lists hn]
  split
  · next he =>
    simp only [known] at he ⊢
    cases hr : m.router? id with
    | none => rfl
    | some r =>
      rw [hr] at he
      obtain ⟨vn', hl⟩ := h.listed id r hr
      exact absurd hl (LogicalRouter.not_lists_of_isEmpty he vn')
  · rfl

/-- What is left of the routers when a VN has gone. -/
theorem known_detach (vn : String) (id : LogicalRouterId) :
    (m.detach vn).1.known id = (m.known id).leave vn := by
  by_cases ho : m.ownerOf? vn = some id
  · obtain ⟨r, hr, _, hd⟩ := h.detach_eq ho
    rw [known_eq hr, hd]
    show ((store m.routers id (r.without vn)).get? id).getD {} = _
    rw [router?_store, if_pos rfl]
    unfold LogicalRouter.leave
    split <;> rfl
  · have hsame : (m.detach vn).1.router? id = m.router? id :=
      (h.router?_detach vn).1 (by rw [snd_detach, Option.mem_toList]; exact ho)
    rw [h.leave_of_not_lists fun hl => ho ((h.owns_known vn id).mpr hl), known, hsame]
    rfl

section

variable {c : VnConfig} (hs : ¬ m.InPlace c)

include hs

/-- What a configuration makes of the routers if it does anything: the VN leaves, wherever it is,
and joins the router that it is configured for. -/
theorem known_configure (id : LogicalRouterId) : (m.configure c).1.known id =
    if c.router = some id then ((m.known id).leave c.name).join c
    else (m.known id).leave c.name := by
  rcases configure_cases m c with ⟨hc, he⟩ | ⟨id', hc, hset, _⟩ | ⟨id', hc, _, he⟩
  · rw [he, h.known_detach, hc]
    rfl
  · exact absurd ⟨id', hc, hset⟩ hs
  · rw [he, known_attach, hc]
    by_cases hid : id = id'
    · rw [if_pos hid, if_pos (congrArg some hid.symm), hid, h.known_detach]
    · rw [if_neg hid, if_neg fun hx => hid (Option.some.inj hx).symm, h.known_detach]

/-- Where the VNs are after a configuration that does anything. -/
theorem holds_configure {id : LogicalRouterId} {vn vrf : String} {routing : Bool} :
    (m.configure c).1.Holds id vn routing vrf ↔
      (vn = c.name ∧ c.router = some id ∧ routing = c.routing ∧ vrf = c.vrf) ∨
        (vn ≠ c.name ∧ m.Holds id vn routing vrf ∧
          ¬ (c.router = some id ∧ c.routing = true ∧ routing = true)) := by
  have hleave : ((m.known id).leave c.name).HasAs vn routing vrf ↔
      vn ≠ c.name ∧ m.Holds id vn routing vrf := by
    rw [(h.sound_known id).hasAs_leave, holds_iff_known]
  rw [holds_iff_known, h.known_configure hs]
  by_cases hc : c.router = some id
  · rw [if_pos hc, LogicalRouter.hasAs_join (LogicalRouter.not_lists_leave _ _), hleave]
    simp only [hc, true_and, and_assoc, and_self_left]
  · rw [if_neg hc, hleave]
    simp only [hc, false_and, and_false, not_false_eq_true, and_true, false_or]

/-- The bridges of the routers after a configuration that does anything. -/
theorem bridges_configure (id : LogicalRouterId) :
    ((m.configure c).1.known id).bridges.entries =
      (m.known id).bridges.entries.filter (fun b => decide (b.1 ≠ c.name)) ++
        if c.router = some id ∧ c.routing = false then [(c.name, c.vrf)] else [] := by
  have hleave : ((m.known id).leave c.name).bridges.entries =
      (m.known id).bridges.entries.filter fun b => decide (b.1 ≠ c.name) := by
    rw [(h.sound_known id).bridges_leave]
    rfl
  rw [h.known_configure hs]
  by_cases hc : c.router = some id
  · rw [if_pos hc, LogicalRouter.entries_bridges_join (LogicalRouter.not_lists_leave _ _), hleave]
    simp only [hc, true_and]
  · rw [if_neg hc, hleave, if_neg fun hx => hc hx.1, List.append_nil]

end

end Indexed

/-- The routers that a configuration affects: the one that the VN was in, and the one that it is
configured for. -/
theorem snd_configure (m : RouterMap) (c : VnConfig) : (m.configure c).2 =
    if m.ownerOf? c.name = c.router then c.router.toList
    else (m.ownerOf? c.name).toList ++ c.router.toList := by
  simp only [configure]
  cases hc : c.router with
  | none =>
    dsimp only
    rw [snd_detach]
    split
    · next he => rw [he]
    · exact (List.append_nil _).symm
  | some id =>
    dsimp only
    by_cases hs : m.Settled c id
    · rw [if_pos hs, if_pos hs.1]
      rfl
    · rw [if_neg hs]
      dsimp only
      rw [snd_detach]
      rfl

theorem mem_snd_configure {m : RouterMap} {c : VnConfig} {id : LogicalRouterId} :
    id ∈ (m.configure c).2 ↔ m.ownerOf? c.name = some id ∨ c.router = some id := by
  rw [snd_configure]
  split
  · next he => rw [he, Option.mem_toList, or_self]
  · simp

theorem nodup_snd_configure (m : RouterMap) (c : VnConfig) : (m.configure c).2.Nodup := by
  rw [snd_configure]
  split
  · cases c.router <;> simp
  · next hne =>
    cases ho : m.ownerOf? c.name <;> cases hc : c.router <;> simp_all

/-- From one map to another a VN has come to its place, and nothing else has happened; these routers
have been affected. -/
structure Places (m : RouterMap) (c : VnConfig) (m' : RouterMap)
    (affected : List LogicalRouterId) : Prop where
  /-- The index knows where the VNs are. -/
  owners : ∀ vn id, m'.ownerOf? vn = some id ↔ ∃ routing vrf, m'.Holds id vn routing vrf
  placed : m'.Placed c
  /-- A VN that is in its place already, be it in no router, stays. -/
  settled : ∀ id, c.router = some id → m.Holds id c.name c.routing c.vrf → m' = m
  absent : c.router = none → m.ownerOf? c.name = none → m' = m
  /-- The other VNs stay, but for the routing VN that the VN replaces. -/
  others : ∀ id vn routing vrf, vn ≠ c.name → (m'.Holds id vn routing vrf ↔
    m.Holds id vn routing vrf ∧ ¬ (c.router = some id ∧ c.routing = true ∧ routing = true))
  replaced : ∀ id vn vrf, c.router = some id → c.routing = true → vn ≠ c.name →
    m.Holds id vn true vrf → m'.ownerOf? vn = none
  /-- A bridge that is not in its place already comes last, and the others keep their order. -/
  order : (∀ id, c.router = some id → ¬ m.Holds id c.name c.routing c.vrf) →
    ∀ id, (m'.known id).bridges.entries =
      (m.known id).bridges.entries.filter (fun b => decide (b.1 ≠ c.name)) ++
        if c.router = some id ∧ c.routing = false then [(c.name, c.vrf)] else []
  nodup : affected.Nodup
  changed : ∀ id, m'.router? id ≠ m.router? id → id ∈ affected
  only : ∀ id ∈ affected, m.ownerOf? c.name = some id ∨ c.router = some id
  leftFirst : ∀ old new, m.ownerOf? c.name = some old → c.router = some new → old ≠ new →
    affected = [old, new]

namespace Indexed

variable {m : RouterMap} (h : m.Indexed) (c : VnConfig)

include h

theorem placed_configure : (m.configure c).1.Placed c := by
  by_cases hs : m.InPlace c
  · rw [configure_of_inPlace hs]
    exact h.placed_of_inPlace hs
  · intro id routing vrf
    rw [h.holds_configure hs]
    simp

/-- The other VNs stay where they are, but for the routing VN that the VN replaces. -/
theorem holds_configure_of_ne (id : LogicalRouterId) (vn : String) (routing : Bool) (vrf : String)
    (hvn : vn ≠ c.name) : (m.configure c).1.Holds id vn routing vrf ↔
      m.Holds id vn routing vrf ∧ ¬ (c.router = some id ∧ c.routing = true ∧ routing = true) := by
  by_cases hs : m.InPlace c
  · rw [configure_of_inPlace hs]
    refine ⟨fun hv => ⟨hv, ?_⟩, And.left⟩
    rintro ⟨hid, hr, rfl⟩
    -- the router has one routing VN, and that is the configured one
    have hown : m.Holds id c.name true c.vrf :=
      (h.placed_of_inPlace hs id true c.vrf).mpr ⟨hid, hr.symm, rfl⟩
    rw [holds_iff_known] at hv hown
    exact hvn (Option.some.inj (hv.1.symm.trans hown.1))
  · rw [h.holds_configure hs]
    simp [hvn]

/-- A routing VN that is replaced belongs to no router. -/
theorem ownerOf?_replaced {id : LogicalRouterId} {vn vrf : String} (hc : c.router = some id)
    (hr : c.routing = true) (hvn : vn ≠ c.name) (hv : m.Holds id vn true vrf) :
    (m.configure c).1.ownerOf? vn = none := by
  rw [Option.eq_none_iff_forall_ne_some]
  intro id' ho
  obtain ⟨routing, vrf', hv'⟩ := (h.toCoherent.configure c).ownerOf?_iff_holds.mp ho
  obtain ⟨hv', hkept⟩ := (h.holds_configure_of_ne c id' vn routing vrf' hvn).mp hv'
  obtain ⟨rfl, rfl, _⟩ := h.holds_unique hv hv'
  exact hkept ⟨hc, hr, rfl⟩

theorem places : m.Places c (m.configure c).1 (m.configure c).2 where
  owners _ _ := (h.toCoherent.configure c).ownerOf?_iff_holds
  placed := h.placed_configure c
  settled id hc hv := configure_of_inPlace ⟨id, hc, h.settled_iff_holds.mpr hv⟩
  absent hc ho := by
    simp only [RouterMap.configure]
    rw [hc]
    dsimp only
    rw [detach_of_unowned ho]
  others := h.holds_configure_of_ne c
  replaced _ _ _ := h.ownerOf?_replaced c
  order hs := h.bridges_configure fun ⟨id, hc, hset⟩ => hs id hc (h.settled_iff_holds.mp hset)
  nodup := nodup_snd_configure m c
  changed id hid := Classical.byContradiction fun hn => hid ((h.rewires_configure c).kept id hn)
  only _ := mem_snd_configure.mp
  leftFirst old new ho hc hne := by
    rw [snd_configure, ho, hc, if_neg fun he => hne (Option.some.inj he)]
    rfl

end Indexed

/-- A VN that is configured comes to its place and nothing else happens, whatever has been done to
the routers before. -/
theorem places_configure (l : List Change) (c : VnConfig) :
    (changes {} l).Places c ((changes {} l).configure c).1 ((changes {} l).configure c).2 :=
  (indexed_empty.changes l).places c

/-- A bridge becomes the routing VN of another router. -/
example : (Sample.routers.configure ⟨"bridge-vn", "bridge", some ⟨2, by decide⟩, true⟩).2 =
    [Sample.router, ⟨2, by decide⟩] := by
  decide +kernel

end RouterMap

end VxlanRouting
