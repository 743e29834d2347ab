import VxlanRouting.Proofs.Machines
import VxlanRouting.Proofs.Snapshot

/-!
Configuration. A VN that changes its place leaves all routers as they are but those it leaves and
joins, and a bridge that it makes of a VRF comes after all others of its router. So whatever a VRF
that ceases to be a routing VRF has to give up is given up without being noticed, and the affected
routers, which are walked, take care of all the rest.
-/
namespace VxlanRouting

namespace Tables

/-- The VRFs have changed their VNs at most. -/
structure Relabels (db db' : Tables) : Prop where
  filled : db.Filled → db'.Filled
  proper : db.Proper → db'.Proper
  interfaces : db'.interfaces = db.interfaces
  paths : ∀ vrf k, db'.paths vrf k = db.paths vrf k
  vni : ∀ vrf, (db'.bare? vrf).map (·.vni) = (db.bare? vrf).map (·.vni)

theorem Relabels.trans {db db' db'' : Tables} (h : db.Relabels db') (h' : db'.Relabels db'') :
    db.Relabels db'' where
  filled := h'.filled ∘ h.filled
  proper := h'.proper ∘ h.proper
  interfaces := h'.interfaces.trans h.interfaces
  paths vrf k := (h'.paths vrf k).trans (h.paths vrf k)
  vni vrf := (h'.vni vrf).trans (h.vni vrf)

theorem Relabels.path? {db db' : Tables} (h : db.Relabels db') (vrf : String) (k : RouteKey)
    (p : Peer) : db'.path? vrf k p = db.path? vrf k p := by
  rw [path?_eq_find?, path?_eq_find?, h.paths]

theorem Relabels.sameHost {db db' : Tables} (h : db.Relabels db') (ht : db.Proper)
    (p : Parameters) (m m' : RouterMap) : View.SameHost ⟨p, db, m⟩ ⟨p, db', m'⟩ := by
  refine ⟨fun name => ?_, fun a => ?_⟩
  · show db.IsVm name ↔ db'.IsVm name
    simp only [IsVm]
    rw [h.interfaces]
  · rw [View.routerMac?_eq ht, View.routerMac?_eq (h.proper ht), h.paths]

theorem relabels_assignVns (db : Tables) (f : String → Vrf → Option String) :
    db.Relabels (db.assignVns f) := by
  refine ⟨.assignVns f, fun h => h.assignVns f, rfl, fun vrf k => ?_, fun vrf => ?_⟩
  · simp only [paths]
    rw [get?_assignVns, Option.map_map]
    cases db.vrfs.get? vrf with
    | none => rfl
    | some v => cases k <;> rfl
  · simp only [bare?]
    rw [get?_assignVns]
    cases db.vrfs.get? vrf <;> rfl

end Tables

namespace Engine

theorem relabels_clearVn (e : Engine) (vn : String) (keep : Option String) :
    e.tables.Relabels (e.clearVn vn keep).tables := by
  have h : (e.clearVn vn keep).tables = e.tables.assignVns fun _ v =>
      if v.vn = some vn ∧ some v.name ≠ keep then none else v.vn := by
    unfold clearVn Tables.assignVns
    dsimp only
    congr 2
    refine congrArg (OrderedMap.mapValues · _) (funext fun _ => funext fun v => ?_)
    split <;> rfl
  rw [h]
  exact e.tables.relabels_assignVns _

theorem relabels_moveVn (e : Engine) (vn vrf : String) :
    e.tables.Relabels (e.moveVn vn vrf).tables := by
  let e' := e.clearVn vn (some vrf)
  have h : (e.moveVn vn vrf).tables = e'.tables.assignVns fun name v =>
      if name = vrf then some vn else v.vn := by
    unfold moveVn Tables.assignVns VrfTable.modify OrderedMap.modify
    dsimp only
    congr 2
    refine congrArg (OrderedMap.mapValues · _) (funext fun name => funext fun v => ?_)
    split <;> rfl
  rw [h]
  exact (e.relabels_clearVn vn (some vrf)).trans (e'.tables.relabels_assignVns _)

end Engine

namespace RouterMap

/-- All routers but the affected ones are as they were, and new bridges stand last. -/
structure Rewires (m m' : RouterMap) (affected : List LogicalRouterId) : Prop where
  coherent : m'.Coherent
  kept : ∀ id, id ∉ affected → m'.router? id = m.router? id
  bridges : ∀ id r', m'.router? id = some r' → ∀ b ∈ r'.bridges.entries.dropLast,
    ∃ r, m.router? id = some r ∧ r.bridges.get? b.1 = some b.2

theorem Coherent.bridges_get? {m : RouterMap} (h : m.Coherent) {id : LogicalRouterId}
    {r : LogicalRouter} (hr : m.router? id = some r) {b : String × String}
    (hb : b ∈ r.bridges.entries) : r.bridges.get? b.1 = some b.2 :=
  ArrivalMap.get?_of_mem (h.sound id r hr).distinct hb

theorem Rewires.refl {m : RouterMap} (h : m.Coherent) (affected : List LogicalRouterId) :
    m.Rewires m affected :=
  ⟨h, fun _ _ => rfl, fun _ r hr _ hb => ⟨r, hr, h.bridges_get? hr (List.dropLast_subset _ hb)⟩⟩

/-- Without a VN the routers have no bridges that they did not have with it. -/
theorem Coherent.router?_detach {m : RouterMap} (h : m.Coherent) (vn : String)
    {id : LogicalRouterId} : (id ∉ (m.detach vn).2.toList →
        (m.detach vn).1.router? id = m.router? id) ∧
      ∀ r', (m.detach vn).1.router? id = some r' → ∀ b ∈ r'.bridges.entries,
        ∃ r, m.router? id = some r ∧ r.bridges.get? b.1 = some b.2 := by
  cases ho : m.ownerOf? vn with
  | none =>
    rw [detach_of_unowned ho]
    exact ⟨fun _ => rfl, fun r hr b hb => ⟨r, hr, h.bridges_get? hr hb⟩⟩
  | some id' =>
    obtain ⟨r, hr, _, hd⟩ := h.detach_eq ho
    rw [hd]
    have hget : ∀ id, router? ⟨RouterMap.store m.routers id' (r.without vn), m.owners.erase vn⟩ id =
        if id = id' then if (r.without vn).isEmpty then none else some (r.without vn)
        else m.router? id := fun id => router?_store
    refine ⟨fun hid => ?_, fun r' hr' b hb => ?_⟩
    · rw [hget, if_neg (by simpa using hid)]
    · rw [hget] at hr'
      split at hr'
      · next he =>
        subst he
        split at hr'
        · cases hr'
        · cases hr'
          refine ⟨r, hr, h.bridges_get? hr ?_⟩
          rw [LogicalRouter.bridges_without] at hb
          exact (List.mem_filter.mp hb).1
      · exact ⟨r', hr', h.bridges_get? hr' hb⟩

theorem Coherent.rewires_detach {m : RouterMap} (h : m.Coherent) (vn : String) :
    m.Rewires (m.detach vn).1 (m.detach vn).2.toList :=
  ⟨h.detach vn, fun _ => (h.router?_detach vn).1, fun _ r' hr' b hb =>
    (h.router?_detach vn).2 r' hr' b (List.dropLast_subset _ hb)⟩

/-- A VN that a router does not list is not one of its bridges. -/
theorem not_mem_keys_of_not_lists {r : LogicalRouter} {vn : String} (h : ¬ r.Lists vn) :
    vn ∉ r.bridges.keys := by
  rw [ArrivalMap.mem_keys_iff]
  exact fun hn => h (.inr (Option.isSome_iff_ne_none.mpr hn))

/-- The bridges of a router that a VN joins were there before, but for the last one. -/
theorem dropLast_bridges_join {r : LogicalRouter} {c : VnConfig}
    (hc : ¬ r.Lists c.name) {b : String × String}
    (hb : b ∈ (r.join c).bridges.entries.dropLast) : b ∈ r.bridges.entries := by
  simp only [LogicalRouter.join] at hb
  split at hb
  · exact List.dropLast_subset _ hb
  · rw [ArrivalMap.entries_insert_of_not_mem _ _ (not_mem_keys_of_not_lists hc),
      List.dropLast_concat] at hb
    exact hb

theorem Coherent.rewires_configure {m : RouterMap} (h : m.Coherent) (c : VnConfig) :
    m.Rewires (m.configure c).1 (m.configure c).2 := by
  simp only [RouterMap.configure]
  cases hr : c.router with
  | none => exact h.rewires_detach c.name
  | some id =>
    dsimp only
    by_cases hs : m.Settled c id
    · rw [if_pos hs]
      exact .refl h [id]
    · rw [if_neg hs]
      dsimp only
      have hd : (m.detach c.name).1.Coherent := h.detach c.name
      have ho := ownerOf?_detach_self m c.name
      refine ⟨hd.attach ho id, fun id' hid => ?_, fun id' r' hr' b hb => ?_⟩
      · have hne : id' ≠ id ∧ id' ∉ (m.detach c.name).2.toList := by
          split at hid
          · next hl =>
            rw [hl]
            simpa using hid
          · simpa [and_comm] using hid
        rw [router?_attach, if_neg hne.1]
        exact (h.router?_detach c.name).1 hne.2
      · rw [router?_attach] at hr'
        split at hr'
        · next he =>
          cases hr'
          subst he
          have hnew : ¬ ((m.detach c.name).1.known id').Lists c.name := by
            rw [← hd.owns_known, ho]
            exact (Option.some_ne_none id').symm
          have hb := dropLast_bridges_join hnew hb
          simp only [known] at hb
          cases hk : (m.detach c.name).1.router? id' with
          | none =>
            rw [hk] at hb
            cases hb
          | some r =>
            rw [hk] at hb
            exact (h.router?_detach c.name).2 r hk b hb
        · exact (h.router?_detach c.name).2 r' hr' b (List.dropLast_subset _ hb)

/-- The routing VRFs that are none in other routers. -/
def lost (m m' : RouterMap) : List String := m.routingVrfs.filter (· ∉ m'.routingVrfs)

theorem mem_lost {m m' : RouterMap} (hm : m.routers.Sorted) (hm' : m'.routers.Sorted)
    {vrf : String} : vrf ∈ m.lost m' ↔ m.Serves vrf ∧ ¬ m'.Serves vrf := by
  rw [← mem_routingVrfs hm, ← mem_routingVrfs hm']
  simp [lost]

/-- A routing VRF that is one no more has not become a bridge that others come after. -/
theorem Rewires.dropLast_ne {m m' : RouterMap} {affected : List LogicalRouterId}
    (h : m.Rewires m' affected) (hm : m.Coherent) (ha : m.Apart) (ha' : m'.Apart) {lost : String}
    (hs : m.Serves lost) {R : String} (hR : m'.Serves R) :
    ∀ b ∈ (m'.bridgesOf R).dropLast, b.2 ≠ lost := by
  rintro ⟨vn, b⟩ hb rfl
  obtain ⟨id, r', hr', hv⟩ := hR
  rw [h.coherent.bridgesOf_eq ha' hr' hv] at hb
  obtain ⟨r, hr, hget⟩ := h.bridges id r' hr' _ hb
  exact hm.not_serves_bridge ha hr hget hs

end RouterMap

namespace Engine

/-- These are withdrawals of all that the engine has in some VRFs. -/
structure Withdrawals (v : View) (lost : List String) (w : List Request) : Prop where
  own : ∀ q ∈ w, q.action = .withdraw ∧ q.vrf ∈ lost ∧ v.params.Owns q.peer
  all : ∀ vrf ∈ lost, ∀ k p, v.params.Owns p → v.tables.path? vrf k p = none ∨
    ∃ q ∈ w, (vrf, k, p) = (q.vrf, q.key, q.peer)

theorem Withdrawals.nil (v : View) : Withdrawals v [] [] :=
  ⟨List.forall_mem_nil _, List.forall_mem_nil _⟩

/-- The engine has withdrawn all its paths in some VRFs, and has done nothing else. -/
structure Withdraws (e e' : Engine) (lost : List String) : Prop where
  view : e'.toView = e.toView
  queue : ∃ w, e'.queue = e.queue ++ w ∧ Withdrawals e.toView lost w

theorem mem_withdrawals {e : Engine} {vrf : String} {k : RouteKey} {r : Route} {q : Request} :
    q ∈ e.withdrawals vrf k r ↔
      ∃ p, e.params.Owns p ∧ (r.find? p).isSome ∧ q = ⟨vrf, k, p, .withdraw⟩ := by
  simp only [withdrawals, Parameters.Owns]
  simp only [List.mem_map, List.mem_filter, List.mem_cons, List.not_mem_nil, or_false]
  constructor
  · rintro ⟨p, ⟨hp, hf⟩, rfl⟩
    exact ⟨p, hp, hf, rfl⟩
  · rintro ⟨p, hp, hf, rfl⟩
    exact ⟨p, ⟨hp, hf⟩, rfl⟩

theorem withdrawAll_withdraws (e : Engine) (vrf : String) :
    e.Withdraws (e.withdrawAll vrf) [vrf] := by
  simp only [withdrawAll]
  cases hv : e.tables.vrfs.get? vrf with
  | none =>
    refine ⟨rfl, [], (List.append_nil _).symm, List.forall_mem_nil _,
      fun vrf' hvrf k p _ => .inl ?_⟩
    rw [List.mem_singleton] at hvrf
    rw [Tables.path?, Tables.route?, hvrf, hv]
    rfl
  | some v =>
    refine ⟨rfl, _, rfl, fun q hq => ?_, fun vrf' hvrf k p hp => ?_⟩
    · obtain ⟨r, _, hq⟩ := List.mem_flatMap.mp hq
      obtain ⟨p, hp, _, rfl⟩ := mem_withdrawals.mp hq
      exact ⟨rfl, List.mem_cons_self, hp⟩
    · rw [List.mem_singleton] at hvrf
      subst hvrf
      cases hr : v.route? k with
      | none =>
        left
        rw [Tables.path?, Tables.route?, hv, Option.bind_some, hr]
        rfl
      | some r =>
        cases hf : r.find? p with
        | none =>
          left
          rw [Tables.path?, Tables.route?, hv, Option.bind_some, hr, Option.bind_some, hf]
        | some x =>
          refine .inr ⟨⟨vrf', k, p, .withdraw⟩, ?_, rfl⟩
          refine List.mem_flatMap.mpr ⟨(k, r), Vrf.mem_routes hr, ?_⟩
          exact mem_withdrawals.mpr ⟨p, hp, by rw [hf]; rfl, rfl⟩

theorem foldl_withdraws (lost : List String) (e : Engine) :
    e.Withdraws (lost.foldl withdrawAll e) lost := by
  induction lost generalizing e with
  | nil => exact ⟨rfl, [], (List.append_nil _).symm, .nil _⟩
  | cons vrf lost ih =>
    obtain ⟨hv₁, w₁, hw₁, own₁, all₁⟩ := e.withdrawAll_withdraws vrf
    obtain ⟨hv₂, w₂, hw₂, own₂, all₂⟩ := ih (e.withdrawAll vrf)
    rw [hv₁] at own₂ all₂
    refine ⟨hv₂.trans hv₁, w₁ ++ w₂, ?_, fun q hq => ?_, fun vrf' hvrf k p hp => ?_⟩
    · rw [List.foldl_cons, hw₂, hw₁, List.append_assoc]
    · rcases List.mem_append.mp hq with hq | hq
      · obtain ⟨hact, hl, ho⟩ := own₁ q hq
        exact ⟨hact, by rw [List.mem_singleton.mp hl]; exact List.mem_cons_self, ho⟩
      · obtain ⟨hact, hl, ho⟩ := own₂ q hq
        exact ⟨hact, List.mem_cons_of_mem _ hl, ho⟩
    · rcases List.mem_cons.mp hvrf with rfl | hvrf
      · refine (all₁ vrf' (List.mem_singleton.mpr rfl) k p hp).imp id fun ⟨q, hq, hk⟩ => ?_
        exact ⟨q, List.mem_append_left _ hq, hk⟩
      · refine (all₂ vrf' hvrf k p hp).imp id fun ⟨q, hq, hk⟩ => ?_
        exact ⟨q, List.mem_append_right _ hq, hk⟩

theorem setRouters_withdraws (e : Engine) (m : RouterMap) :
    Withdraws { e with routers := m } (e.setRouters m) (e.routers.lost m) :=
  foldl_withdraws _ _

section

variable {e : Engine} (he : e.Sound) (hw : e.Wired) {db : Tables} (hdb : e.tables.Relabels db)
  {m : RouterMap}

include he hdb

/-- The duties of a router that stays as it is stay idle. -/
theorem idle_of_kept (hcoherent : m.Coherent) (hold : e.routers.Apart) (hapart : m.Apart)
    (hm : e.routers.Coherent) {id : LogicalRouterId} {r : LogicalRouter}
    (hr : e.routers.router? id = some r) (hr' : m.router? id = some r) {σ : Duty}
    (hv : r.routingVrf = some σ.vrf) (hi : σ.Idle e.toView) : σ.Idle ⟨e.params, db, m⟩ := by
  have hwant : σ.want ⟨e.params, db, m⟩ = σ.want e.toView := by
    refine Duty.want_congr (v := e.toView) (w := ⟨e.params, db, m⟩) he.proper
      (hdb.proper he.proper) rfl (hdb.sameHost he.proper e.params e.routers m) σ ?_
      (hdb.vni σ.vrf) fun vrf k _ => hdb.paths vrf k
    rw [hm.bridgesOf_eq hold hr hv]
    exact hcoherent.bridgesOf_eq hapart hr' hv
  have hfound : Duty.found ⟨e.params, db, m⟩ σ = Duty.found e.toView σ := hdb.path? σ.vrf _ _
  simp only [Duty.Idle]
  rw [hwant, hfound]
  exact hi

/-- What leaks where it leaked before does not change. Where nothing leaked, the engine has no paths
yet; so nothing accords with a leak. -/
theorem guarded_of_rewiring (hs : e.Settled) : View.Guarded ⟨e.params, db, m⟩ := by
  obtain ⟨hidle, hclear⟩ := (settled_iff he.sorted).mp hs
  have ht : db.Proper := hdb.proper he.proper
  have hfound : ∀ σ, Duty.found ⟨e.params, db, m⟩ σ = Duty.found e.toView σ := fun σ =>
    hdb.path? σ.vrf _ _
  intro vrf p hσ found hf hacc
  simp only [Duty.Idle]
  rw [hfound] at hacc ⊢
  by_cases hserved : e.routers.Serves vrf
  · have hsame : Duty.want ⟨e.params, db, m⟩ ⟨.toInet, vrf, p⟩ =
        Duty.want e.toView ⟨.toInet, vrf, p⟩ := by
      refine View.leakedInet_congr he.proper ht
        (hdb.sameHost he.proper e.params e.routers m) ?_
      rw [hdb.paths]
    rw [hsame]
    exact hidle _ ⟨hserved, hσ.2⟩
  · have hnone : ∀ d, Duty.found e.toView ⟨d, vrf, p⟩ = none := fun d =>
      hclear vrf hserved _ _ (Duty.owns_peer e.params _)
    rw [hnone] at hacc ⊢
    rw [View.want_toInet_eq (v := ⟨e.params, db, m⟩) he.config ht vrf hσ.2, hfound, hnone]
    cases hx : View.leakWith ⟨e.params, db, m⟩ vrf p found with
    | none =>
      rw [View.leakWith_none_of_fresh ht hf hx]
      trivial
    | some a =>
      rw [hx] at hacc
      exact hacc.elim

include hw

/-- An engine whose routers have been rewired is poised, if it was settled before. -/
theorem poised_of_rewiring (hs : e.Settled) (hq : e.queue = [])
    {affected : List LogicalRouterId} (hm : e.routers.Rewires m affected) {e' : Engine}
    (he' : e' = (({ e with tables := db } : Engine).setRouters m).walkAll affected)
    (ha : e'.routers.Apart) (hc : e'.Carries) : e'.Poised ∧ e'.tables = db := by
  obtain ⟨hidle, hclear⟩ := (settled_iff he.sorted).mp hs
  let v : View := ⟨e.params, db, m⟩
  let e₁ : Engine := ({ e with tables := db } : Engine).setRouters m
  obtain ⟨hview, w, hw₁, hlost⟩ := setRouters_withdraws { e with tables := db } m
  have hmem : ∀ vrf, vrf ∈ e.routers.lost m ↔ e.routers.Serves vrf ∧ ¬ m.Serves vrf := fun vrf =>
    RouterMap.mem_lost he.sorted hm.coherent.sorted
  have hl₁ : v.Level e₁.toView := hview.symm ▸ .refl v
  have ht : v.tables.Proper := hdb.proper he.proper
  obtain ⟨hg, hcov⟩ := walkAll_grows (v := v) hm.coherent ht hl₁ affected
  have hg : Grows v e₁ e' := he' ▸ hg
  have hl : v.Level e'.toView := hl₁.trans hg.toLevel
  have hapart : m.Apart := (RouterMap.apart_congr hl.routers).mp ha
  have hsnap : Snapshot v e' := {
    level := hl
    sound := .of_level (v := v) he.config ht hm.coherent.sorted hl
    wired := ⟨hm.coherent.of_bare_eq hl.routers, ha, hc⟩
    queue := by
      intro q hq'
      rcases hg.mem_queue.2 hq' with hq' | hd
      · rw [hw₁, hq, List.nil_append] at hq'
        obtain ⟨hact, hvrf, hown⟩ := hlost.own q hq'
        obtain ⟨hserved, hunserved⟩ := (hmem q.vrf).mp hvrf
        exact .inl ⟨hact, hunserved, hown, fun R hR =>
          hm.dropLast_ne hw.coherent hw.apart hapart hserved hR⟩
      · exact .inr hd
    covers := by
      rintro σ ⟨⟨id, r, hr, hv⟩, hp⟩
      by_cases hid : id ∈ affected
      · exact he' ▸ hcov hapart id hid σ (by rw [hr]; exact hv) hp
      · have hr₀ : e.routers.router? id = some r := (hm.kept id hid).symm.trans hr
        have hi : σ.Idle v := idle_of_kept he hdb hm.coherent hw.apart hapart hw.coherent hr₀ hr hv
          (hidle σ ⟨⟨id, r, hr₀, hv⟩, hp⟩)
        exact Covers.mono (.inl ((hl₁.idle_iff ht σ).mpr hi)) (hl₁.tables ▸ ht) hg
    cleans := by
      intro vrf hv k p hp
      by_cases hserved : e.routers.Serves vrf
      · refine (hlost.all vrf ((hmem vrf).mpr ⟨hserved, hv⟩) k p hp).imp id ?_
        rintro ⟨q, hq', hk⟩
        refine ⟨q, hg.mem_queue.1 ?_, hk⟩
        rw [hw₁]
        exact List.mem_append_right _ hq'
      · exact .inl ((hdb.path? vrf k p).trans (hclear vrf hserved k p hp))
    guarded := guarded_of_rewiring he hdb hs }
  exact ⟨hsnap.poised, hl.tables⟩

end

end Engine

end VxlanRouting
