import VxlanRouting.Proofs.Calls
import VxlanRouting.Proofs.Frames

/-!
The role of a VRF, told in two ways. Changes are passed on by the VN that a VRF has, and walks go by
the VRF that a router has. A VRF has the VN that it was given last, unless this VN has gone
elsewhere; a router keeps the VRF of its routing VN, whatever VN that VRF is given later. So the two
agree on a VRF unless it has been usurped: it serves a router, but was last given a VN that is not
the routing VN of a router that it serves.
-/
namespace VxlanRouting

namespace LogicalRouter

/-- The router has the VN with this VRF, in either role. -/
def Has (r : LogicalRouter) (vn vrf : String) : Prop :=
  r.routingVn = some vn ∧ r.routingVrf = some vrf ∨ r.bridges.get? vn = some vrf

theorem Has.lists {r : LogicalRouter} {vn vrf : String} (h : r.Has vn vrf) : r.Lists vn := by
  rcases h with ⟨hvn, _⟩ | hb
  · exact .inl hvn
  · exact .inr (by rw [ArrivalMap.contains, hb]; rfl)

theorem Has.of_without {r : LogicalRouter} {vn vn' vrf : String}
    (h : (r.without vn).Has vn' vrf) : r.Has vn' vrf := by
  have hne : vn' ≠ vn := (lists_without.mp h.lists).1
  simp only [Has] at h ⊢
  rw [routingVn_without, routingVrf_without, bridges_without,
    ArrivalMap.get?_erase_of_ne _ hne] at h
  refine h.imp (fun h => ?_) id
  split at h
  · cases h.1
  · exact h

theorem Has.of_join {r : LogicalRouter} {c : VnConfig} {vn vrf : String}
    (h : (r.join c).Has vn vrf) : (vn = c.name ∧ vrf = c.vrf) ∨ r.Has vn vrf := by
  simp only [join] at h
  split at h
  · rcases h with ⟨hvn, hvrf⟩ | hb
    · exact .inl ⟨(Option.some.inj hvn).symm, (Option.some.inj hvrf).symm⟩
    · exact .inr (.inr hb)
  · rcases h with hr | hb
    · exact .inr (.inl hr)
    · by_cases he : vn = c.name
      · subst he
        rw [ArrivalMap.get?_insert_self] at hb
        exact .inl ⟨rfl, (Option.some.inj hb).symm⟩
      · rw [ArrivalMap.get?_insert_of_ne _ _ he] at hb
        exact .inr (.inr hb)

end LogicalRouter

namespace RouterMap

variable {m : RouterMap}

theorem attached_of_known {id : LogicalRouterId} {vn vrf : String}
    (h : (m.known id).Has vn vrf) : m.Attached vn vrf := by
  simp only [known] at h
  cases hr : m.router? id with
  | none =>
    rw [hr] at h
    rcases h with ⟨hvn, _⟩ | hb
    · cases hvn
    · cases hb
  | some r =>
    rw [hr] at h
    exact ⟨id, r, hr, h⟩

/-- A VN that is attached after another has joined a router is this one or was attached before. -/
theorem attached_of_attach {c : VnConfig} {id : LogicalRouterId} {vn vrf : String}
    (h : (m.attach c id).Attached vn vrf) : (vn = c.name ∧ vrf = c.vrf) ∨ m.Attached vn vrf := by
  obtain ⟨id', r, hr, hl⟩ := h
  rw [router?_attach] at hr
  split at hr
  · cases hr
    exact (LogicalRouter.Has.of_join hl).imp_right attached_of_known
  · exact .inr ⟨id', r, hr, hl⟩

namespace Coherent

variable (h : m.Coherent)

include h

theorem ownerOf?_of_has {id : LogicalRouterId} {r : LogicalRouter} (hr : m.router? id = some r)
    {vn vrf : String} (ha : r.Has vn vrf) : m.ownerOf? vn = some id :=
  (h.owns vn id).mpr ⟨r, hr, ha.lists⟩

/-- A VN that is attached after another has left was attached before, and is not this one. -/
theorem attached_of_detach {vn vn' vrf : String} (ha : (m.detach vn).1.Attached vn' vrf) :
    vn' ≠ vn ∧ m.Attached vn' vrf := by
  refine ⟨?_, ?_⟩
  · rintro rfl
    obtain ⟨id, r, hr, hl⟩ := ha
    have ho := (h.detach vn').ownerOf?_of_has hr hl
    rw [ownerOf?_detach_self] at ho
    cases ho
  · cases ho : m.ownerOf? vn with
    | none =>
      rw [detach_of_unowned ho] at ha
      exact ha
    | some id =>
      obtain ⟨r, hr, _, hd⟩ := h.detach_eq ho
      rw [hd] at ha
      obtain ⟨id', r', hr', hl⟩ := ha
      have hget : (RouterMap.store m.routers id (r.without vn)).get? id' = some r' := hr'
      rw [router?_store] at hget
      split at hget
      · split at hget
        · cases hget
        · cases hget
          exact ⟨id, r, hr, LogicalRouter.Has.of_without hl⟩
      · exact ⟨id', r', hget, hl⟩

/-- A router has a VN with one VRF only. -/
theorem vrf_of_settled {c : VnConfig} {id : LogicalRouterId} (hs : m.Settled c id) {vrf : String}
    (ha : m.Attached c.name vrf) : vrf = c.vrf := by
  obtain ⟨ho, r, hr, hrole⟩ := hs
  obtain ⟨id', r', hr', hl⟩ := ha
  have hid : id' = id := Option.some.inj ((h.ownerOf?_of_has hr' hl).symm.trans ho)
  subst hid
  rw [hr] at hr'
  cases hr'
  have hsingle := (h.sound id' r hr).single c.name
  split at hrole
  · rcases hl with ⟨_, hvrf⟩ | hb
    · exact Option.some.inj (hvrf.symm.trans hrole.2)
    · rw [hsingle hrole.1] at hb
      cases hb
  · rcases hl with ⟨hvn, _⟩ | hb
    · rw [hsingle hvn] at hrole
      cases hrole
    · exact Option.some.inj (hb.symm.trans hrole)

/-- A configured VN is attached with the VRF of its configuration, if at all; the others that are
attached were so before. -/
theorem attached_of_configure {c : VnConfig} {vn vrf : String}
    (ha : (m.configure c).1.Attached vn vrf) :
    (vn = c.name ∧ vrf = c.vrf) ∨ (vn ≠ c.name ∧ m.Attached vn vrf) := by
  -- without a router the VN leaves; a VN that is settled stays; any other one leaves and joins
  rcases configure_cases m c with ⟨_, he⟩ | ⟨id, _, hs, he⟩ | ⟨id, _, _, he⟩
  · rw [he] at ha
    exact .inr (h.attached_of_detach ha)
  · rw [he] at ha
    by_cases hvn : vn = c.name
    · subst hvn
      exact .inl ⟨rfl, h.vrf_of_settled hs ha⟩
    · exact .inr ⟨hvn, ha⟩
  · rw [he] at ha
    exact (attached_of_attach ha).imp_right h.attached_of_detach

end Coherent

end RouterMap

/-- The VN that an event gives to a VRF. -/
def Event.gives? (vrf : String) : Event → Option String
  | .updateVn c => if c.vrf = vrf then some c.name else none
  | .deleteVn _ | .updateInterface _ | .deleteInterface _ => none

/-- The VNs that events give to a VRF, in their order. -/
def Event.givenTo (vrf : String) (l : List Event) : List String := l.filterMap (gives? vrf)

theorem Event.givenTo_concat (vrf : String) (l : List Event) (event : Event) :
    givenTo vrf (l ++ [event]) = givenTo vrf l ++ (event.gives? vrf).toList := by
  simp only [givenTo]
  rw [List.filterMap_append]
  cases hg : event.gives? vrf with
  | none => rw [List.filterMap_cons_none hg]; rfl
  | some vn => rw [List.filterMap_cons_some hg]; rfl

/-- The VNs of a VRF are as it has been told: it has no VN but the one that it was given last, and
it has that one if it is attached with the VRF. -/
structure Vrf.Told (b : Vrf) (m : RouterMap) (given : List String) : Prop where
  last : ∀ vn, b.vn = some vn → given.getLast? = some vn
  kept : ∀ vn, m.Attached vn b.name → given.getLast? = some vn → b.vn = some vn

/-- A VRF that another VN may have been taken from is as it has been told. -/
theorem Vrf.Told.clear {b b' : Vrf} {m m' : RouterMap} {given : List String}
    (h : b.Told m given) {vn : String} (hn : b'.name = b.name)
    (hvn : b'.vn = if b.vn = some vn then none else b.vn)
    (hm : ∀ vn', m'.Attached vn' b.name → vn' ≠ vn ∧ m.Attached vn' b.name) :
    b'.Told m' given := by
  refine ⟨fun vn' hvn' => ?_, fun vn' ha hl => ?_⟩
  · rw [hvn] at hvn'
    split at hvn'
    · cases hvn'
    · exact h.last vn' hvn'
  · rw [hn] at ha
    obtain ⟨hne, ha⟩ := hm vn' ha
    have hb := h.kept vn' ha hl
    rw [hvn, hb, if_neg fun he => hne (Option.some.inj he)]

/-- What the VRFs and the routers know of the VNs after events. -/
structure View.Told (v : View) (l : List Event) : Prop where
  coherent : v.routers.Coherent
  named : ∀ name b, v.tables.vrfs.get? name = some b → b.name = name
  vrf : ∀ name b, v.tables.vrfs.get? name = some b → b.Told v.routers (Event.givenTo name l)
  given : ∀ vn vrf, v.routers.Attached vn vrf → vn ∈ Event.givenTo vrf l

/-- Routes and counters have no part in this. -/
theorem View.Told.of_bare {v w : View} {l : List Event} (h : v.Told l)
    (hb : ∀ name, w.tables.bare? name = v.tables.bare? name)
    (hm : w.routers.bare = v.routers.bare) : w.Told l := by
  have hvrf : ∀ name b, w.tables.vrfs.get? name = some b →
      ∃ b₀, v.tables.vrfs.get? name = some b₀ ∧ b.name = b₀.name ∧ b.vn = b₀.vn := by
    intro name b hget
    have hbare := hb name
    rw [Tables.bare?_of_get? hget] at hbare
    obtain ⟨b₀, hb₀, he⟩ := Option.map_eq_some_iff.mp hbare.symm
    exact ⟨b₀, hb₀, congrArg (·.name) he.symm, congrArg (·.vn) he.symm⟩
  have hat := RouterMap.attached_congr hm
  refine ⟨h.coherent.of_bare_eq hm, fun name b hget => ?_, fun name b hget => ?_,
    fun vn vrf ha => h.given vn vrf ((hat vn vrf).mp ha)⟩
  · obtain ⟨b₀, hb₀, hn, _⟩ := hvrf name b hget
    rw [hn, h.named name b₀ hb₀]
  · obtain ⟨b₀, hb₀, hn, hvn⟩ := hvrf name b hget
    refine ⟨fun vn hx => ?_, fun vn ha hl => ?_⟩
    · exact (h.vrf name b₀ hb₀).last vn (hvn ▸ hx)
    · rw [hn, hat] at ha
      rw [hvn, (h.vrf name b₀ hb₀).kept vn ha hl]

/-- What is told to a VRF that is not there concerns nobody. -/
theorem View.Told.concat {v : View} {l : List Event} (h : v.Told l) {event : Event}
    (hm : ∀ vrf vn, event.gives? vrf = some vn → v.tables.vrfs.get? vrf = none) :
    v.Told (l ++ [event]) := by
  refine ⟨h.coherent, h.named, fun name b hb => ?_, fun vn vrf ha => ?_⟩
  · rw [Event.givenTo_concat]
    cases hg : event.gives? name with
    | none =>
      rw [Option.toList_none, List.append_nil]
      exact h.vrf name b hb
    | some vn =>
      rw [hm name vn hg] at hb
      cases hb
  · rw [Event.givenTo_concat]
    exact List.mem_append_left _ (h.given vn vrf ha)

/-- Nothing is told to any VRF by an event that gives no VN. -/
theorem View.Told.of_silent {v : View} {l : List Event} (h : v.Told l) {event : Event}
    (hn : ∀ vrf, event.gives? vrf = none) : v.Told (l ++ [event]) := by
  refine h.concat fun vrf vn hg => ?_
  rw [hn] at hg
  cases hg

/-- No VN is attached, and every VRF stands under its name and has no VN. -/
structure View.Untold (v : View) : Prop where
  routers : v.routers = {}
  named : ∀ name b, v.tables.vrfs.get? name = some b → b.name = name
  free : ∀ name b, v.tables.vrfs.get? name = some b → b.vn = none

theorem View.Untold.told {v : View} (h : v.Untold) : v.Told [] := by
  have hnone : ∀ vn vrf, ¬ v.routers.Attached vn vrf := by
    rintro vn vrf ⟨id, r, hr, _⟩
    rw [h.routers] at hr
    cases hr
  refine ⟨h.routers ▸ RouterMap.coherent_empty, h.named, fun name b hb => ⟨fun vn hvn => ?_,
    fun vn ha _ => absurd ha (hnone vn _)⟩, fun vn vrf ha => absurd ha (hnone vn vrf)⟩
  rw [h.free name b hb] at hvn
  cases hvn

namespace Engine

theorem get?_clearVn (e : Engine) (vn : String) (keep : Option String) (name : String) :
    (e.clearVn vn keep).tables.vrfs.get? name = (e.tables.vrfs.get? name).map fun b =>
      if b.vn = some vn ∧ some b.name ≠ keep then { b with vn := none } else b :=
  OrderedMap.get?_mapValues _ _ _

theorem get?_moveVn_self (e : Engine) (vn vrf : String) :
    (e.moveVn vn vrf).tables.vrfs.get? vrf =
      (e.tables.vrfs.get? vrf).map fun b => { b with vn := some vn } := by
  simp only [moveVn]
  rw [VrfTable.get?_modify_self, get?_clearVn, Option.map_map]
  congr 1
  funext b
  show { (if b.vn = some vn ∧ some b.name ≠ some vrf then { b with vn := none } else b) with
    vn := some vn } = _
  split <;> rfl

theorem get?_moveVn_of_ne (e : Engine) (vn : String) {vrf name : String} (h : name ≠ vrf) :
    (e.moveVn vn vrf).tables.vrfs.get? name =
      (e.clearVn vn (some vrf)).tables.vrfs.get? name :=
  VrfTable.get?_modify_of_ne _ _ h

section

variable {e : Engine} {l : List Event} (h : e.Told l)

include h

/-- A VRF that keeps its VN, unless it is the one to be taken from it, is as it has been told. -/
theorem told_clearVn {vn name : String} {keep : Option String} (hk : some name ≠ keep)
    {m : RouterMap} (hm : ∀ vn', m.Attached vn' name → vn' ≠ vn ∧ e.routers.Attached vn' name)
    {b : Vrf} (hb : (e.clearVn vn keep).tables.vrfs.get? name = some b) :
    b.name = name ∧ b.Told m (Event.givenTo name l) := by
  rw [get?_clearVn] at hb
  obtain ⟨b₀, hb₀, rfl⟩ := Option.map_eq_some_iff.mp hb
  have hname : b₀.name = name := h.named name b₀ hb₀
  have hclear : (if b₀.vn = some vn ∧ some b₀.name ≠ keep then { b₀ with vn := none } else b₀) =
      { b₀ with vn := if b₀.vn = some vn then none else b₀.vn } := by
    by_cases hvn : b₀.vn = some vn
    · rw [if_pos ⟨hvn, hname ▸ hk⟩, if_pos hvn]
    · rw [if_neg fun hx => hvn hx.1, if_neg hvn]
  rw [hclear]
  exact ⟨hname, (h.vrf name b₀ hb₀).clear rfl rfl (hname ▸ hm)⟩

theorem told_updateVn (c : VnConfig) :
    View.Told ⟨e.params, (e.moveVn c.name c.vrf).tables, (e.routers.configure c).1⟩
      (l ++ [.updateVn c]) := by
  have hm : ∀ vn vrf, (e.routers.configure c).1.Attached vn vrf →
      (vn = c.name ∧ vrf = c.vrf) ∨ (vn ≠ c.name ∧ e.routers.Attached vn vrf) :=
    fun _ _ => h.coherent.attached_of_configure
  have hgiven : ∀ vrf, Event.givenTo vrf (l ++ [.updateVn c]) =
      Event.givenTo vrf l ++ (if c.vrf = vrf then some c.name else none).toList :=
    fun vrf => Event.givenTo_concat vrf l _
  have hvrf : ∀ name b, (e.moveVn c.name c.vrf).tables.vrfs.get? name = some b →
      b.name = name ∧
        b.Told (e.routers.configure c).1 (Event.givenTo name (l ++ [.updateVn c])) := by
    intro name b hb
    rw [hgiven]
    -- the VRF of the configuration hears of its new VN; the others may lose it and hear nothing
    by_cases hn : name = c.vrf
    · subst hn
      rw [get?_moveVn_self] at hb
      obtain ⟨b₀, hb₀, rfl⟩ := Option.map_eq_some_iff.mp hb
      rw [if_pos rfl, Option.toList_some]
      refine ⟨h.named _ b₀ hb₀, fun vn hvn => ?_, fun vn _ hl => ?_⟩
      · rw [List.getLast?_concat]
        exact hvn
      · rw [List.getLast?_concat] at hl
        exact hl
    · rw [get?_moveVn_of_ne e c.name hn] at hb
      rw [if_neg fun he => hn he.symm, Option.toList_none, List.append_nil]
      refine told_clearVn h (fun he => hn (Option.some.inj he)) (fun vn' ha => ?_) hb
      exact (hm vn' name ha).resolve_left fun hx => hn hx.2
  refine ⟨h.coherent.configure c, fun name b hb => (hvrf name b hb).1,
    fun name b hb => (hvrf name b hb).2, fun vn vrf ha => ?_⟩
  rw [hgiven]
  rcases hm vn vrf ha with ⟨rfl, rfl⟩ | ⟨_, ha⟩
  · rw [if_pos rfl]
    exact List.mem_append_right _ List.mem_cons_self
  · exact List.mem_append_left _ (h.given vn vrf ha)

theorem told_deleteVn (vn : String) :
    View.Told ⟨e.params, (e.clearVn vn none).tables, (e.routers.detach vn).1⟩ l := by
  have hm : ∀ vn' vrf, (e.routers.detach vn).1.Attached vn' vrf →
      vn' ≠ vn ∧ e.routers.Attached vn' vrf := fun _ _ => h.coherent.attached_of_detach
  have hvrf : ∀ name b, (e.clearVn vn none).tables.vrfs.get? name = some b →
      b.name = name ∧ b.Told (e.routers.detach vn).1 (Event.givenTo name l) :=
    fun name _ => told_clearVn h (Option.some_ne_none name) fun vn' => hm vn' name
  exact ⟨h.coherent.detach vn, fun name b hb => (hvrf name b hb).1,
    fun name b hb => (hvrf name b hb).2, fun vn' vrf ha => h.given vn' vrf (hm vn' vrf ha).2⟩

end

/-- The engine after an event; one that fails changes nothing. -/
def tell (e : Engine) (event : Event) : Engine :=
  match e.handle event with
  | .ok e' => e'
  | .error _ => e

/-- The engine after events. -/
def tellAll (e : Engine) (l : List Event) : Engine := l.foldl tell e

theorem keeps_told (l : List Event) : Keeps (·.Told l) := by
  intro e vrf k peer want h
  have hl := level_sync h.coherent.sorted vrf k peer want
  exact h.of_bare (fun name => by rw [hl.tables]) hl.routers

/-- Each event is told to the VRFs and to the routers alike. -/
theorem told_tell {e : Engine} {l : List Event} (h : e.Told l) (event : Event) :
    (e.tell event).Told (l ++ [event]) := by
  have hrefresh : ∀ (t : InterfaceTable) (name : String),
      ((e.setInterfaces t).notifyInterface name).Told l := by
    intro t name
    refine (keeps_told l).notifyInterface (h.of_bare (fun vrf => ?_) rfl)
    exact Tables.bare?_refresh (e.setInterfaces t).tables name vrf
  cases event with
  | updateVn c =>
    cases hv : e.tables.vrfs.get? c.vrf with
    | none =>
      -- the event fails, and the VRF that it gives a VN to is none whose VN could differ from it
      have he : e.tell (.updateVn c) = e := by
        simp only [tell, handle, updateVn]
        rw [hv]
      rw [he]
      refine h.concat fun vrf vn hg => ?_
      obtain ⟨rfl, _⟩ : c.vrf = vrf ∧ c.name = vn := by simpa [Event.gives?] using hg
      exact hv
    | some v =>
      have hok : e.updateVn c = .ok (e.tell (.updateVn c)) := by
        simp only [tell, handle, updateVn]
        rw [hv]
      exact (keeps_told _).updateVn hok (told_updateVn h c)
  | deleteVn vn =>
    have hd : (e.deleteVn vn).Told l := (keeps_told l).deleteVn (told_deleteVn h vn)
    exact hd.of_silent fun _ => rfl
  | updateInterface i => exact (hrefresh _ _).of_silent fun _ => rfl
  | deleteInterface name =>
    have hd : (e.deleteInterface name).Told l := by
      simp only [deleteInterface]
      split
      · exact hrefresh _ _
      · exact h
    exact hd.of_silent fun _ => rfl

theorem told_tellAll {e : Engine} {l : List Event} (h : e.Told l) (l' : List Event) :
    (e.tellAll l').Told (l ++ l') := by
  induction l' generalizing e l with
  | nil =>
    rw [List.append_nil]
    exact h
  | cons event l' ih =>
    have hcons := ih (told_tell h event)
    rw [List.append_assoc] at hcons
    exact hcons

end Engine

namespace RouterMap

/-- The VRF serves routers, and the VN that it was given last is the routing VN of none of them. -/
def Usurped (m : RouterMap) (l : List Event) (vrf : String) : Prop :=
  m.Serves vrf ∧ ∀ id r, m.router? id = some r → r.routingVrf = some vrf →
    r.routingVn ≠ (Event.givenTo vrf l).getLast?

/-- A VRF plays the role of a routing VRF if it serves a router whose routing VN it was given
last. -/
theorem isRouting_iff {v : View} {l : List Event} (h : v.Told l) {name : String} {b : Vrf}
    (hb : v.tables.vrfs.get? name = some b) :
    v.routers.IsRouting b ↔ v.routers.Serves name ∧ ¬ v.routers.Usurped l name := by
  have hname : b.name = name := h.named name b hb
  have hold : b.Told v.routers (Event.givenTo name l) := h.vrf name b hb
  constructor
  · rintro ⟨vn, hvn, id, ho, r, hr, hrouting, hvrf⟩
    rw [hname] at hvrf
    refine ⟨⟨id, r, hr, hvrf⟩, fun hu => hu.2 id r hr hvrf ?_⟩
    rw [hrouting, hold.last vn hvn]
  · rintro ⟨hs, hu⟩
    obtain ⟨id, r, hr, hvrf, hlast⟩ : ∃ id r, v.routers.router? id = some r ∧
        r.routingVrf = some name ∧ r.routingVn = (Event.givenTo name l).getLast? :=
      Classical.byContradiction fun hn =>
        hu ⟨hs, fun id r hr hvrf hlast => hn ⟨id, r, hr, hvrf, hlast⟩⟩
    obtain ⟨vn, hrouting, hat, ho⟩ := h.coherent.attached_routing hr hvrf
    rw [hrouting] at hlast
    have hvn : b.vn = some vn := hold.kept vn (hname.symm ▸ hat) hlast.symm
    exact ⟨vn, hvn, id, ho, r, hr, hrouting, hname.symm ▸ hvrf⟩

/-- A VRF that is given one VN only is not usurped. -/
theorem not_usurped {v : View} {l : List Event} (h : v.Told l) {name : String}
    (hone : ∀ vn ∈ Event.givenTo name l, ∀ vn' ∈ Event.givenTo name l, vn = vn') :
    ¬ v.routers.Usurped l name := by
  rintro ⟨⟨id, r, hr, hvrf⟩, hu⟩
  obtain ⟨vn, hrouting, hat, _⟩ := h.coherent.attached_routing hr hvrf
  have hmem : vn ∈ Event.givenTo name l := h.given vn name hat
  have hlast := List.getLast?_eq_some_getLast (List.ne_nil_of_mem hmem)
  refine hu id r hr hvrf ?_
  rw [hrouting, hlast]
  exact congrArg some (hone vn hmem _ (List.getLast_mem _))

end RouterMap

namespace Engine

/-- Whatever the engine is told, a VRF that plays the role of a routing VRF when changes are passed
on is the routing VRF of some router. The converse holds unless the VRF has been usurped, and so
for every VRF that is given one VN only. -/
theorem roles_agree_iff (e : Engine) (h : e.Untold) (l : List Event) (name : String) (b : Vrf)
    (hb : (e.tellAll l).tables.vrfs.get? name = some b) :
    ((e.tellAll l).routers.IsRouting b → (e.tellAll l).routers.Serves name) ∧
      (((e.tellAll l).routers.IsRouting b ↔ (e.tellAll l).routers.Serves name) ↔
        ¬ (e.tellAll l).routers.Usurped l name) ∧
      ((∀ vn ∈ Event.givenTo name l, ∀ vn' ∈ Event.givenTo name l, vn = vn') →
        ((e.tellAll l).routers.IsRouting b ↔ (e.tellAll l).routers.Serves name)) := by
  have htold : (e.tellAll l).Told l := told_tellAll h.told l
  have hiff := RouterMap.isRouting_iff htold hb
  refine ⟨fun hr => (hiff.mp hr).1, ⟨fun hagree hu => ?_, fun hu => ?_⟩, fun hone => ?_⟩
  · exact (hiff.mp (hagree.mpr hu.1)).2 hu
  · exact ⟨fun hr => (hiff.mp hr).1, fun hs => hiff.mpr ⟨hs, hu⟩⟩
  · have hu := RouterMap.not_usurped htold hone
    exact ⟨fun hr => (hiff.mp hr).1, fun hs => hiff.mpr ⟨hs, hu⟩⟩

end Engine

namespace Sample

theorem untold_start : start.Untold where
  routers := rfl
  named := initial.filled.proper.named
  free name b hb := by
    have hfree : ∀ b ∈ start.tables.vrfs.vrfs, b.vn = none := by decide +kernel
    exact hfree b (List.mem_map.mpr ⟨(name, b), Entries.mem_of_get? hb, rfl⟩)

/-- The two VNs are attached. -/
def attached : List Event := [.updateVn routingVn, .updateVn bridgeVn]

/-- The routing VRF once the two VNs are attached. -/
def routingVrf : Vrf := { name := "routing", vn := some "routing-vn", vni := Vni.ofNat? 7 }

/-- A VN of no router, with the VRF of the routing VN. -/
def usurper : VnConfig := ⟨"other-vn", "routing", none, false⟩

end Sample

namespace Engine

/-- The routing VRF plays its role once its VN has been attached. -/
theorem routing_when_attached :
    (Sample.start.tellAll Sample.attached).tables.vrfs.get? "routing" = some Sample.routingVrf ∧
      (Sample.start.tellAll Sample.attached).routers.IsRouting Sample.routingVrf := by
  have hb : (Sample.start.tellAll Sample.attached).tables.vrfs.get? "routing" =
      some Sample.routingVrf := by decide +kernel
  have hs : (Sample.start.tellAll Sample.attached).routers.Serves "routing" :=
    RouterMap.serves_of_router? Sample.router (by decide +kernel)
  have hagree := (roles_agree_iff Sample.start Sample.untold_start Sample.attached "routing"
    Sample.routingVrf hb).2.2 (by decide +kernel)
  exact ⟨hb, hagree.mpr hs⟩

/-- The two do not always agree: when another VN is given the VRF of the routing VN, changes in that
VRF are passed on to nobody any more, while its router keeps it as its routing VRF. -/
theorem not_all_roles_agree :
    ¬ ∀ (e : Engine) (l : List Event), e.Untold → (∀ event ∈ l, ¬ event.OfInterface) →
      ∀ (name : String) (b : Vrf), (e.tellAll l).tables.vrfs.get? name = some b →
        ((e.tellAll l).routers.IsRouting b ↔ (e.tellAll l).routers.Serves name) := by
  intro h
  let l := Sample.attached ++ [.updateVn Sample.usurper]
  have hvn : ∀ event ∈ l, ¬ event.OfInterface := by
    intro event hevent
    simp only [l, Sample.attached, List.cons_append, List.nil_append, List.mem_cons,
      List.not_mem_nil, or_false] at hevent
    rcases hevent with rfl | rfl | rfl <;> exact id
  have hb : (Sample.start.tellAll l).tables.vrfs.get? "routing" =
      some { Sample.routingVrf with vn := some "other-vn" } := by decide +kernel
  have hs : (Sample.start.tellAll l).routers.Serves "routing" :=
    RouterMap.serves_of_router? Sample.router (by decide +kernel)
  have hrouting := (h Sample.start l Sample.untold_start hvn "routing" _ hb).mpr hs
  revert hrouting
  decide +kernel

end Engine

end VxlanRouting
