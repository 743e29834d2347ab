import VxlanRouting.LogicalRouter.Role
import VxlanRouting.Proofs.MapOrder

/-!
The map of routers as configuration leaves it. The index knows exactly the VNs that the routers
list, no VN has both roles in a router, and a router has a routing VRF exactly if it has a routing
VN. Giving out an ECMP sequence changes none of the questions about roles: they hang on the map
without its counters.
-/
namespace VxlanRouting

namespace LogicalRouter

/-- A router without its counter. -/
def bare (r : LogicalRouter) : LogicalRouter := { r with ecmpSequence := 0 }

theorem not_lists_of_isEmpty {r : LogicalRouter} (h : r.isEmpty = true) (vn : String) :
    ¬ r.Lists vn := by
  obtain ⟨hr, hb⟩ : r.routingVn = none ∧ r.bridges.entries = [] := by
    simpa [isEmpty, ArrivalMap.isEmpty] using h
  simp [Lists, hr, ArrivalMap.contains, ArrivalMap.get?, hb]

theorem bridges_without (r : LogicalRouter) (vn : String) :
    (r.without vn).bridges = r.bridges.erase vn := by
  unfold without
  dsimp only
  split <;> rfl

theorem routingVn_without (r : LogicalRouter) (vn : String) :
    (r.without vn).routingVn = if r.routingVn = some vn then none else r.routingVn := by
  unfold without
  dsimp only
  split <;> rfl

theorem routingVrf_without (r : LogicalRouter) (vn : String) :
    (r.without vn).routingVrf = if r.routingVn = some vn then none else r.routingVrf := by
  unfold without
  dsimp only
  split <;> rfl

theorem lists_without {r : LogicalRouter} {vn vn' : String} :
    (r.without vn).Lists vn' ↔ vn' ≠ vn ∧ r.Lists vn' := by
  by_cases h : vn' = vn
  · subst h
    simp [not_lists_without]
  · simp only [Lists, ArrivalMap.contains]
    rw [bridges_without, routingVn_without, ArrivalMap.get?_erase_of_ne _ h]
    split
    · next he => simp [he, h, Ne.symm h]
    · simp [h]

/-- No VN has both roles, a routing VRF comes with a routing VN only, and no bridge VN is there
twice. -/
structure Sound (r : LogicalRouter) : Prop where
  single : ∀ vn, r.routingVn = some vn → r.bridges.get? vn = none
  paired : r.routingVrf = none ↔ r.routingVn = none
  distinct : r.bridges.keys.Nodup

theorem Sound.without {r : LogicalRouter} (h : r.Sound) (vn : String) : (r.without vn).Sound := by
  refine ⟨fun vn' hvn' => ?_, ?_, ?_⟩
  · have hr : r.routingVn = some vn' := by
      rw [routingVn_without] at hvn'
      split at hvn'
      · cases hvn'
      · exact hvn'
    rw [bridges_without]
    by_cases he : vn' = vn
    · rw [he, ArrivalMap.get?_erase_self]
    · rw [ArrivalMap.get?_erase_of_ne _ he, h.single vn' hr]
  · rw [routingVrf_without, routingVn_without]
    split
    · simp
    · exact h.paired
  · rw [bridges_without]
    exact ArrivalMap.nodup_keys_erase h.distinct vn

theorem lists_congr {r r' : LogicalRouter} (h : r.bare = r'.bare) (vn : String) :
    r.Lists vn ↔ r'.Lists vn := by
  have hr : r.routingVn = r'.routingVn := congrArg (·.routingVn) h
  have hb : r.bridges = r'.bridges := congrArg (·.bridges) h
  simp only [Lists]
  rw [hr, hb]

theorem Sound.congr {r r' : LogicalRouter} (h : r.Sound) (he : r.bare = r'.bare) : r'.Sound := by
  have hr : r'.routingVn = r.routingVn := congrArg (·.routingVn) he.symm
  have hv : r'.routingVrf = r.routingVrf := congrArg (·.routingVrf) he.symm
  have hb : r'.bridges = r.bridges := congrArg (·.bridges) he.symm
  refine ⟨fun vn hvn => ?_, ?_, ?_⟩
  · rw [hb]
    exact h.single vn (hr ▸ hvn)
  · rw [hv, hr]
    exact h.paired
  · rw [hb]
    exact h.distinct

/-- The router after a VN has joined it. -/
def join (r : LogicalRouter) (c : VnConfig) : LogicalRouter :=
  if c.routing then { r with routingVn := some c.name, routingVrf := some c.vrf }
  else { r with bridges := r.bridges.insert c.name c.vrf }

/-- A router lists the VN that has joined it and those before, but for a replaced routing VN. -/
theorem Sound.lists_join {r : LogicalRouter} (h : r.Sound) (c : VnConfig) (vn : String) :
    (r.join c).Lists vn ↔
      vn = c.name ∨ (r.Lists vn ∧ ¬ (c.routing = true ∧ r.routingVn = some vn)) := by
  simp only [join]
  by_cases hr : c.routing = true
  · rw [if_pos hr]
    simp only [Lists]
    constructor
    · rintro (hvn | hb)
      · cases hvn
        exact .inl rfl
      · refine .inr ⟨.inr hb, fun hrv => ?_⟩
        have hb' : (r.bridges.get? vn).isSome = true := hb
        rw [h.single vn hrv.2] at hb'
        cases hb'
    · rintro (rfl | ⟨hrv | hb, hn⟩)
      · exact .inl rfl
      · exact absurd ⟨hr, hrv⟩ hn
      · exact .inr hb
  · rw [if_neg hr]
    simp only [Lists, ArrivalMap.contains]
    by_cases he : vn = c.name
    · subst he
      simp
    · rw [ArrivalMap.get?_insert_of_ne _ _ he]
      simp [he, hr]

theorem Sound.join {r : LogicalRouter} (h : r.Sound) {c : VnConfig} (hc : ¬ r.Lists c.name) :
    (r.join c).Sound := by
  simp only [LogicalRouter.join]
  split
  · refine ⟨fun vn hvn => ?_, by simp, h.distinct⟩
    cases hvn
    have hb : ¬ r.bridges.contains c.name = true := fun hb => hc (.inr hb)
    simpa [ArrivalMap.contains] using hb
  · refine ⟨fun vn hvn => ?_, h.paired, ArrivalMap.nodup_keys_insert h.distinct _ _⟩
    have hne : vn ≠ c.name := by
      rintro rfl
      exact hc (.inl hvn)
    rw [ArrivalMap.get?_insert_of_ne _ _ hne]
    exact h.single vn hvn

end LogicalRouter

namespace RouterMap

/-- The map without the counters of its routers. -/
def bare (m : RouterMap) : RouterMap :=
  { m with routers := m.routers.mapValues fun _ r => r.bare }

theorem ownerOf?_bare (m : RouterMap) (vn : String) : m.bare.ownerOf? vn = m.ownerOf? vn := rfl

theorem router?_bare (m : RouterMap) (id : LogicalRouterId) :
    m.bare.router? id = (m.router? id).map LogicalRouter.bare :=
  OrderedMap.get?_mapValues _ _ _

theorem isRouting_bare (m : RouterMap) (v : Vrf) : m.bare.IsRouting v ↔ m.IsRouting v := by
  simp only [IsRouting]
  simp only [ownerOf?_bare, router?_bare, Option.mem_def, Option.map_eq_some_iff]
  constructor
  · rintro ⟨vn, hvn, id, hid, _, ⟨r, hr, rfl⟩, hrouting⟩
    exact ⟨vn, hvn, id, hid, r, hr, hrouting⟩
  · rintro ⟨vn, hvn, id, hid, r, hr, hrouting⟩
    exact ⟨vn, hvn, id, hid, _, ⟨r, hr, rfl⟩, hrouting⟩

theorem isBridge_bare (m : RouterMap) (v : Vrf) : m.bare.IsBridge v ↔ m.IsBridge v := by
  simp only [IsBridge]
  rw [isRouting_bare]

theorem servedBy?_bare (m : RouterMap) (vrf : String) : m.bare.servedBy? vrf = m.servedBy? vrf := by
  simp only [servedBy?, bare, OrderedMap.mapValues, Entries.mapValues]
  rw [List.find?_map, Option.map_map]
  rfl

theorem routingVrfOf?_bare (m : RouterMap) (v : Vrf) :
    m.bare.routingVrfOf? v = m.routingVrfOf? v := by
  simp only [routingVrfOf?]
  cases v.vn with
  | none => rfl
  | some vn =>
    simp only [ownerOf?_bare, router?_bare, Option.bind_eq_bind, Option.bind_some]
    cases m.ownerOf? vn with
    | none => rfl
    | some id =>
      simp only [Option.bind_some]
      cases m.router? id <;> rfl

theorem bridgesOf_bare (m : RouterMap) (vrf : String) : m.bare.bridgesOf vrf = m.bridgesOf vrf := by
  simp only [bridgesOf]
  rw [servedBy?_bare]
  cases m.servedBy? vrf with
  | none => rfl
  | some id =>
    simp only [Option.bind_some, router?_bare]
    cases m.router? id <;> rfl

theorem bridgesOf_congr {m m' : RouterMap} (h : m'.bare = m.bare) (vrf : String) :
    m'.bridgesOf vrf = m.bridgesOf vrf := by
  rw [← bridgesOf_bare m', h, bridgesOf_bare]

/-- Giving out a sequence is not seen without the counters. -/
theorem bare_nextSequence {m : RouterMap} (hm : m.routers.Sorted) (id : LogicalRouterId) :
    (m.nextSequence id).1.bare = m.bare := by
  simp only [nextSequence]
  split
  · rfl
  · next r hr =>
    unfold bare
    dsimp only
    rw [OrderedMap.mapValues_insert_of_get? LogicalRouter.bare hm hr]
    rfl

theorem sorted_of_bare_eq {m m' : RouterMap} (h : m'.bare = m.bare) (hm : m.routers.Sorted) :
    m'.routers.Sorted := by
  have hk : ∀ x : RouterMap, x.bare.routers.keys = x.routers.keys := by
    intro x
    exact Entries.map_fst_mapValues (fun _ r => r.bare) x.routers.entries
  simp only [OrderedMap.Sorted]
  rw [← hk, h, hk]
  exact hm

/-- Maps that configuration leads to, with sequences given out between. -/
inductive Configured : RouterMap → Prop
  | empty : Configured {}
  | configure {m : RouterMap} (c : VnConfig) : Configured m → Configured (m.configure c).1
  | detach {m : RouterMap} (vn : String) : Configured m → Configured (m.detach vn).1
  | nextSequence {m : RouterMap} (id : LogicalRouterId) :
      Configured m → Configured (m.nextSequence id).1

/-- The index and the routers tell the same, and every router is sound. -/
structure Coherent (m : RouterMap) : Prop where
  sorted : m.routers.Sorted
  owns : ∀ vn id, m.ownerOf? vn = some id ↔ ∃ r, m.router? id = some r ∧ r.Lists vn
  sound : ∀ id r, m.router? id = some r → r.Sound

theorem coherent_empty : Coherent {} := by
  refine ⟨OrderedMap.sorted_empty, fun vn id => ?_, fun id r h => ?_⟩
  · constructor
    · intro h
      cases h
    · rintro ⟨r, h, _⟩
      cases h
  · cases h

theorem router?_store {m : OrderedMap LogicalRouterId LogicalRouter} {id id' : LogicalRouterId}
    {r : LogicalRouter} : (store m id r).get? id' =
      if id' = id then if r.isEmpty then none else some r else m.get? id' := by
  simp only [store]
  by_cases hid : id' = id
  · subst hid
    rw [if_pos rfl]
    split
    · exact OrderedMap.get?_erase_self _ _
    · exact OrderedMap.get?_insert_self _ _ _
  · rw [if_neg hid]
    split
    · exact OrderedMap.get?_erase_of_ne _ hid
    · exact OrderedMap.get?_insert_of_ne _ _ hid

/-- A router may be replaced by a sound one that lists no VN of another router, if the index
follows. -/
theorem Coherent.store {m : RouterMap} (h : m.Coherent) {id : LogicalRouterId}
    {r : LogicalRouter} (hr : r.Sound) {owners : OrderedMap String LogicalRouterId}
    (hl : ∀ vn, r.Lists vn → ∀ id', m.ownerOf? vn = some id' → id' = id)
    (ho : ∀ vn, owners.get? vn =
      if r.Lists vn then some id else if m.ownerOf? vn = some id then none else m.ownerOf? vn) :
    Coherent ⟨RouterMap.store m.routers id r, owners⟩ := by
  refine ⟨?_, fun vn id' => ?_, fun id' r' h' => ?_⟩
  · show (RouterMap.store m.routers id r).Sorted
    simp only [RouterMap.store]
    split
    · exact OrderedMap.sorted_erase h.sorted _
    · exact OrderedMap.sorted_insert h.sorted _ _
  · show owners.get? vn = some id' ↔
      ∃ r', (RouterMap.store m.routers id r).get? id' = some r' ∧ r'.Lists vn
    rw [ho, router?_store]
    by_cases hvn : r.Lists vn
    · have hfull : ¬ r.isEmpty = true := fun he => LogicalRouter.not_lists_of_isEmpty he vn hvn
      rw [if_pos hvn, if_neg hfull]
      constructor
      · rintro ⟨⟩
        exact ⟨r, if_pos rfl, hvn⟩
      · rintro ⟨r', hr', hvn'⟩
        by_cases hid : id' = id
        · rw [hid]
        · rw [if_neg hid] at hr'
          exact congrArg some (hl vn hvn id' ((h.owns vn id').mpr ⟨r', hr', hvn'⟩)).symm
    · rw [if_neg hvn]
      constructor
      · intro h'
        split at h'
        · cases h'
        · next hne =>
          have hid : id' ≠ id := by
            rintro rfl
            exact hne h'
          obtain ⟨r', hr', hvn'⟩ := (h.owns vn id').mp h'
          exact ⟨r', by rw [if_neg hid]; exact hr', hvn'⟩
      · rintro ⟨r', hr', hvn'⟩
        by_cases hid : id' = id
        · rw [if_pos hid] at hr'
          split at hr'
          · cases hr'
          · cases hr'
            exact absurd hvn' hvn
        · rw [if_neg hid] at hr'
          have ho' : m.ownerOf? vn = some id' := (h.owns vn id').mpr ⟨r', hr', hvn'⟩
          rw [ho', if_neg fun he => hid (Option.some.inj he)]
  · have hg : (RouterMap.store m.routers id r).get? id' = some r' := h'
    rw [router?_store] at hg
    split at hg
    · split at hg <;> cases hg
      exact hr
    · exact h.sound id' r' hg

/-- What has become of the routers when a VN is taken from the one that lists it. -/
theorem Coherent.detach_eq {m : RouterMap} (h : m.Coherent) {vn : String} {id : LogicalRouterId}
    (ho : m.ownerOf? vn = some id) : ∃ r, m.router? id = some r ∧ r.Lists vn ∧
      m.detach vn =
        (⟨RouterMap.store m.routers id (r.without vn), m.owners.erase vn⟩, some id) := by
  obtain ⟨r, hr, hl⟩ := (h.owns vn id).mp ho
  refine ⟨r, hr, hl, ?_⟩
  simp only [RouterMap.detach]
  rw [ho]
  dsimp only
  rw [hr]

theorem detach_of_unowned {m : RouterMap} {vn : String} (ho : m.ownerOf? vn = none) :
    m.detach vn = (m, none) := by
  simp only [detach]
  rw [ho]

theorem ownerOf?_detach_self (m : RouterMap) (vn : String) :
    (m.detach vn).1.ownerOf? vn = none := by
  cases ho : m.ownerOf? vn with
  | none => rw [detach_of_unowned ho, ho]
  | some id =>
    simp only [detach, ownerOf?] at *
    rw [ho]
    exact OrderedMap.get?_erase_self _ _

theorem Coherent.detach {m : RouterMap} (h : m.Coherent) (vn : String) :
    (m.detach vn).1.Coherent := by
  cases ho : m.ownerOf? vn with
  | none =>
    rw [detach_of_unowned ho]
    exact h
  | some id =>
    obtain ⟨r, hr, hl, hd⟩ := h.detach_eq ho
    have hlists : ∀ vn', m.ownerOf? vn' = some id ↔ r.Lists vn' := by
      intro vn'
      rw [h.owns]
      constructor
      · rintro ⟨r', hr', hl'⟩
        rw [hr] at hr'
        cases hr'
        exact hl'
      · exact fun hl' => ⟨r, hr, hl'⟩
    rw [hd]
    refine h.store ((h.sound id r hr).without vn) (fun vn' hvn' id' ho' => ?_) fun vn' => ?_
    · have hid := (hlists vn').mpr (LogicalRouter.lists_without.mp hvn').2
      exact Option.some.inj (ho'.symm.trans hid)
    · by_cases he : vn' = vn
      · subst he
        rw [OrderedMap.get?_erase_self, if_neg (LogicalRouter.not_lists_without r vn'), if_pos ho]
      · rw [OrderedMap.get?_erase_of_ne _ he]
        by_cases hw : r.Lists vn'
        · rw [if_pos (LogicalRouter.lists_without.mpr ⟨he, hw⟩)]
          exact (hlists vn').mpr hw
        · rw [if_neg fun hw' => hw (LogicalRouter.lists_without.mp hw').2,
            if_neg fun ho' => hw ((hlists vn').mp ho')]
          rfl

/-- The router of an identifier; one that is not known has no VNs. -/
def known (m : RouterMap) (id : LogicalRouterId) : LogicalRouter := (m.router? id).getD {}

theorem Coherent.owns_known {m : RouterMap} (h : m.Coherent) (vn : String)
    (id : LogicalRouterId) : m.ownerOf? vn = some id ↔ (m.known id).Lists vn := by
  rw [h.owns]
  simp only [known]
  cases hr : m.router? id with
  | none => simp [LogicalRouter.Lists, ArrivalMap.contains]
  | some r => simp

theorem Coherent.sound_known {m : RouterMap} (h : m.Coherent) (id : LogicalRouterId) :
    (m.known id).Sound := by
  simp only [known]
  cases hr : m.router? id with
  | none => exact ⟨fun _ _ => rfl, Iff.rfl, List.Pairwise.nil⟩
  | some r => exact h.sound id r hr

theorem routers_attach (m : RouterMap) (c : VnConfig) (id : LogicalRouterId) :
    (m.attach c id).routers = m.routers.insert id ((m.known id).join c) := by
  unfold attach LogicalRouter.join known
  dsimp only
  split <;> rfl

theorem router?_attach (m : RouterMap) (c : VnConfig) (id id' : LogicalRouterId) :
    (m.attach c id).router? id' =
      if id' = id then some ((m.known id).join c) else m.router? id' := by
  simp only [router?]
  rw [routers_attach]
  by_cases he : id' = id
  · rw [if_pos he, he, OrderedMap.get?_insert_self]
  · rw [if_neg he, OrderedMap.get?_insert_of_ne _ _ he]

theorem ownerOf?_attach (m : RouterMap) (c : VnConfig) (id : LogicalRouterId) (vn : String) :
    (m.attach c id).ownerOf? vn = if vn = c.name then some id
      else if c.routing = true ∧ (m.known id).routingVn = some vn then none
      else m.ownerOf? vn := by
  unfold attach ownerOf? known
  dsimp only
  by_cases he : vn = c.name
  · subst he
    split <;> rw [OrderedMap.get?_insert_self, if_pos rfl]
  · rw [if_neg he]
    by_cases hr : c.routing = true
    · rw [if_pos hr, OrderedMap.get?_insert_of_ne _ _ he]
      cases hv : ((m.router? id).getD {}).routingVn with
      | none => simp
      | some vn₀ =>
        dsimp only
        by_cases h₀ : vn = vn₀
        · subst h₀
          rw [OrderedMap.get?_erase_self, if_pos ⟨hr, rfl⟩]
        · rw [OrderedMap.get?_erase_of_ne _ h₀, if_neg fun hx => h₀ (Option.some.inj hx.2).symm]
    · rw [if_neg hr, if_neg fun hx => hr hx.1]
      exact OrderedMap.get?_insert_of_ne _ _ he

/-- A VN that belongs to no router may join one. -/
theorem Coherent.attach {m : RouterMap} (h : m.Coherent) {c : VnConfig}
    (hc : m.ownerOf? c.name = none) (id : LogicalRouterId) : (m.attach c id).Coherent := by
  have hsound : (m.known id).Sound := h.sound_known id
  have hnew : ¬ (m.known id).Lists c.name := by
    rw [← h.owns_known, hc]
    intro he
    cases he
  have hlists := hsound.lists_join c
  have hfull : ((m.known id).join c).isEmpty = false := by
    cases hemp : ((m.known id).join c).isEmpty with
    | false => rfl
    | true =>
      exact absurd ((hlists c.name).mpr (.inl rfl)) (LogicalRouter.not_lists_of_isEmpty hemp _)
  have hstore : m.attach c id =
      ⟨RouterMap.store m.routers id ((m.known id).join c), (m.attach c id).owners⟩ := by
    simp only [RouterMap.store]
    rw [hfull, if_neg Bool.false_ne_true, ← routers_attach]
  rw [hstore]
  refine h.store (hsound.join hnew) (fun vn hvn id' ho => ?_) fun vn => ?_
  · rcases (hlists vn).mp hvn with rfl | ⟨hl, _⟩
    · rw [hc] at ho
      cases ho
    · exact Option.some.inj (ho.symm.trans ((h.owns_known vn id).mpr hl))
  · show (m.attach c id).ownerOf? vn = _
    rw [ownerOf?_attach]
    by_cases he : vn = c.name
    · rw [if_pos he, if_pos ((hlists vn).mpr (.inl he))]
    · rw [if_neg he]
      by_cases hx : c.routing = true ∧ (m.known id).routingVn = some vn
      · have hl : ¬ ((m.known id).join c).Lists vn := by
          rw [hlists]
          exact fun h' => h'.elim he fun h'' => h''.2 hx
        rw [if_pos hx, if_neg hl, if_pos ((h.owns_known vn id).mpr (.inl hx.2))]
      · rw [if_neg hx]
        by_cases hl : (m.known id).Lists vn
        · rw [if_pos ((hlists vn).mpr (.inr ⟨hl, hx⟩)), (h.owns_known vn id).mpr hl]
        · have hl' : ¬ ((m.known id).join c).Lists vn := by
            rw [hlists]
            exact fun h' => h'.elim he fun h'' => hl h''.1
          rw [if_neg hl', if_neg fun ho => hl ((h.owns_known vn id).mp ho)]

/-- What configuring a VN does if it does anything. -/
theorem configure_cases (m : RouterMap) (c : VnConfig) :
    (c.router = none ∧ (m.configure c).1 = (m.detach c.name).1) ∨
      (∃ id, c.router = some id ∧ m.Settled c id ∧ m.configure c = (m, [id])) ∨
      ∃ id, c.router = some id ∧ ¬ m.Settled c id ∧
        (m.configure c).1 = (m.detach c.name).1.attach c id := by
  simp only [configure]
  cases hr : c.router with
  | none => exact .inl ⟨rfl, rfl⟩
  | some id =>
    dsimp only
    by_cases hs : m.Settled c id
    · exact .inr (.inl ⟨id, rfl, hs, if_pos hs⟩)
    · rw [if_neg hs]
      exact .inr (.inr ⟨id, rfl, hs, rfl⟩)

theorem Coherent.configure {m : RouterMap} (h : m.Coherent) (c : VnConfig) :
    (m.configure c).1.Coherent := by
  rcases configure_cases m c with ⟨_, he⟩ | ⟨id, _, _, he⟩ | ⟨id, _, _, he⟩
  · rw [he]
    exact h.detach c.name
  · rw [he]
    exact h
  · rw [he]
    exact (h.detach c.name).attach (ownerOf?_detach_self m c.name) id

theorem router?_of_bare_eq {m m' : RouterMap} (h : m'.bare = m.bare) {id : LogicalRouterId}
    {r : LogicalRouter} (hr : m.router? id = some r) :
    ∃ r', m'.router? id = some r' ∧ r'.bare = r.bare := by
  have hx : (m'.router? id).map LogicalRouter.bare = some r.bare := by
    rw [← router?_bare, h, router?_bare, hr]
    rfl
  exact Option.map_eq_some_iff.mp hx

/-- Coherence hangs on the map without its counters. -/
theorem Coherent.of_bare_eq {m m' : RouterMap} (h : m.Coherent) (hb : m'.bare = m.bare) :
    m'.Coherent := by
  have howner : ∀ vn, m'.ownerOf? vn = m.ownerOf? vn := by
    intro vn
    rw [← ownerOf?_bare m', hb, ownerOf?_bare]
  refine ⟨sorted_of_bare_eq hb h.sorted, fun vn id => ?_, fun id r' hr' => ?_⟩
  · rw [howner, h.owns]
    constructor
    · rintro ⟨r, hr, hl⟩
      obtain ⟨r', hr', he⟩ := router?_of_bare_eq hb hr
      exact ⟨r', hr', (LogicalRouter.lists_congr he vn).mpr hl⟩
    · rintro ⟨r', hr', hl⟩
      obtain ⟨r, hr, he⟩ := router?_of_bare_eq hb.symm hr'
      exact ⟨r, hr, (LogicalRouter.lists_congr he vn).mpr hl⟩
  · obtain ⟨r, hr, he⟩ := router?_of_bare_eq hb.symm hr'
    exact (h.sound id r hr).congr he

theorem Configured.coherent {m : RouterMap} (h : m.Configured) : m.Coherent := by
  induction h with
  | empty => exact coherent_empty
  | configure c _ ih => exact ih.configure c
  | detach vn _ ih => exact ih.detach vn
  | nextSequence id _ ih => exact ih.of_bare_eq (bare_nextSequence ih.sorted id)

end RouterMap

end VxlanRouting
