import VxlanRouting.Proofs.Labels
import VxlanRouting.Proofs.Machines
import VxlanRouting.Proofs.Snapshot

/-!
Interfaces that come and go. The paths that use one are resolved anew under their old keys, so that
they stay current and accord with what they accorded with before. One interface makes the machines
on this host more or fewer, and an exported composite loses the members that are gone at once, but
gains those that have come only when it is exported anew. So what leaks of the old export is what
leaked before, or what will leak of the new one.
-/
namespace VxlanRouting

/-- A key resolves alike if no interface that it mentions has changed. -/
theorem NextHopKey.resolve_congr {t t' : InterfaceTable} {name : String}
    (h : ∀ n, n ≠ name → t'.get? n = t.get? n) (k : NextHopKey) (hk : k.mentions name = false) :
    k.resolve t' = k.resolve t := by
  refine resolve_eq_of_agree fun n hn => h n ?_
  rintro rfl
  rw [hk] at hn
  cases hn

namespace Path

variable {t t' : InterfaceTable} {name : String}

theorem key_refresh (t : InterfaceTable) (name : String) (x : Path) :
    (x.refresh t name).hop.key = x.hop.key := by
  simp only [refresh]
  split
  · split
    · next hr => exact NextHopKey.key_of_resolve hr
    · rfl
  · rfl

theorem refresh_of_tunnel {x : Path} {tunnel : Tunnel} (hx : x.hop = .tunnel tunnel) :
    x.refresh t name = x := by
  simp only [refresh]
  rw [hx, if_neg]
  exact Bool.false_ne_true

/-- A path carries what it carried before it was resolved anew. -/
theorem matches_refresh (a : Advertisement) (x : Path) :
    a.Matches (x.refresh t name) ↔ a.Matches x := by
  cases a with
  | single hop attrs =>
    simp only [Advertisement.Matches]
    rw [key_refresh, attrs_refresh]
  | ecmp composite attrs =>
    simp only [Advertisement.Matches]
    rw [key_refresh, attrs_refresh]
  | tunnel tunnel attrs =>
    simp only [Advertisement.Matches]
    rw [attrs_refresh]
    refine and_congr_left' ⟨fun hx => ?_, fun hx => by rw [refresh_of_tunnel hx, hx]⟩
    have hk : x.hop.key = .tunnel tunnel := by
      rw [← key_refresh t name, hx]
      rfl
    cases hh : x.hop with
    | tunnel tunnel' =>
      rw [hh] at hk
      cases hk
      rfl
    | _ =>
      rw [hh] at hk
      cases hk

/-- A search that looks at what stays finds the same path, resolved anew. -/
theorem find?_refresh {f : Path → Bool} (hf : ∀ x : Path, f (x.refresh t name) = f x)
    (l : List Path) :
    (l.map (·.refresh t name)).find? f = (l.find? f).map (·.refresh t name) := by
  rw [List.find?_map]
  congr 2
  exact funext hf

/-- Resolving paths anew after an interface has changed keeps all of them current. -/
theorem current_refresh (h : ∀ n, n ≠ name → t'.get? n = t.get? n) {x : Path}
    (hx : x.hop.Current t) : (x.refresh t' name).hop.Current t' := by
  intro hop hr
  rw [key_refresh, Option.mem_def] at hr
  simp only [refresh]
  split
  · rw [hr]
  · next hm =>
    have hk : x.hop.key.mentions name = false := by
      rw [NextHop.mentions_key]
      simpa using hm
    rw [NextHopKey.resolve_congr h _ hk] at hr
    exact hx hop hr

end Path

theorem accords_refresh {t : InterfaceTable} {name : String} (found : Option Path)
    {want : Option Advertisement} :
    Accords (found.map (·.refresh t name)) want ↔ Accords found want := by
  cases found with
  | none => rfl
  | some x =>
    cases want with
    | none => rfl
    | some a => exact Path.matches_refresh a x

namespace Tables

/-- Every installed path is current. -/
def Current (db : Tables) : Prop :=
  ∀ vrf k, ∀ x ∈ db.paths vrf k, x.hop.Current db.interfaces

theorem current_of_routes {db : Tables} (h : ∀ v ∈ db.vrfs.vrfs, ∀ r ∈ v.routes,
    ∀ x ∈ r.2.paths, x.hop.Current db.interfaces) : db.Current := by
  intro vrf k x hx
  obtain ⟨v, r, _, hv, hr, hx⟩ := exists_route_of_mem_paths hx
  exact h v hv (k, r) (Vrf.mem_routes hr) x hx

/-- What a request installs is current. -/
theorem Current.apply {db : Tables} (h : db.Current) (q : Request) : (db.apply q).1.Current := by
  intro vrf k x hx
  rw [interfaces_apply]
  rcases mem_paths_apply hx with hx | hx
  · exact h vrf k x hx
  · exact NextHop.current_of_resolve (Action.resolved_of_path? hx)

end Tables

namespace View

/-- The view after an interface has changed and its paths have been resolved anew. -/
structure Refreshes (v w : View) (name : String) : Prop where
  params : w.params = v.params
  routers : w.routers = v.routers
  bare : ∀ vrf, w.tables.bare? vrf = v.tables.bare? vrf
  paths : ∀ vrf k, w.tables.paths vrf k =
    (v.tables.paths vrf k).map (·.refresh w.tables.interfaces name)
  interfaces : ∀ n, n ≠ name → w.tables.interfaces.get? n = v.tables.interfaces.get? n

variable {v w : View} {name : String}

theorem Refreshes.current (h : v.Refreshes w name) (hv : v.tables.Current) : w.tables.Current := by
  intro vrf k x hx
  rw [h.paths] at hx
  obtain ⟨y, hy, rfl⟩ := List.mem_map.mp hx
  exact Path.current_refresh h.interfaces (hv vrf k y hy)

theorem Refreshes.path? (h : v.Refreshes w name) (vrf : String) (k : RouteKey) (p : Peer) :
    w.tables.path? vrf k p =
      (v.tables.path? vrf k p).map (·.refresh w.tables.interfaces name) := by
  rw [Tables.path?_eq_find?, Tables.path?_eq_find?, h.paths]
  exact Path.find?_refresh (fun x => by rw [Path.peer_refresh]) _

theorem Refreshes.found (h : v.Refreshes w name) (σ : Duty) :
    σ.found w = (σ.found v).map (·.refresh w.tables.interfaces name) := by
  simp only [Duty.found]
  rw [h.params, h.path?]

theorem Refreshes.rival (h : v.Refreshes w name) (vrf : String) (p : Prefix) :
    w.rival vrf p = (v.rival vrf p).map (·.refresh w.tables.interfaces name) := by
  simp only [View.rival]
  rw [h.paths, h.params]
  exact Path.find?_refresh (fun x => by rw [Path.peer_refresh]) _

theorem Refreshes.source? (h : v.Refreshes w name) (vrf : String) (p : Prefix) :
    w.source? vrf p =
      (v.source? vrf p).map fun s => (s.1, s.2.refresh w.tables.interfaces name) := by
  simp only [View.source?]
  rw [h.routers]
  induction v.routers.bridgesOf vrf with
  | nil => rfl
  | cons b l ih =>
    rw [Tables.source?_cons, Tables.source?_cons, ih, h.paths]
    simp only [List.map_eq_nil_iff]
    split
    · rfl
    · rw [Path.find?_refresh (fun x => by rw [Path.peer_refresh]), Option.map_map, Option.map_map]
      rfl

/-- Machines on this host have become more or fewer. -/
theorem Refreshes.machines_subset (h : v.Refreshes w name) :
    (∀ m, v.IsMachine m → w.IsMachine m) ∨ ∀ m, w.IsMachine m → v.IsMachine m := by
  have hvm : ∀ n, n ≠ name → (w.tables.IsVm n ↔ v.tables.IsVm n) := by
    intro n hn
    simp only [Tables.IsVm]
    rw [h.interfaces n hn]
  have hlift : ∀ {u u' : View}, (∀ n, u.tables.IsVm n → u'.tables.IsVm n) →
      ∀ m, u.IsMachine m → u'.IsMachine m := by
    intro u u' hsub m hm
    simp only [IsMachine] at hm ⊢
    split at hm
    · next n policy hk => exact hsub n hm
    · exact hm.elim
  by_cases hw : w.tables.IsVm name
  · refine .inl (hlift fun n hn => ?_)
    by_cases he : n = name
    · exact he ▸ hw
    · exact (hvm n he).mpr hn
  · refine .inr (hlift fun n hn => ?_)
    by_cases he : n = name
    · exact absurd (he ▸ hn) hw
    · exact (hvm n he).mp hn

/-- Before and after, a prefix is exported for those of some interfaces that are of machines. -/
theorem Refreshes.exported_eq (h : v.Refreshes w name) (hv : v.tables.Proper)
    (hw : w.tables.Proper) (hc : v.tables.Current) (vrf : String) (p : Prefix) :
    ∃ (ms : List MemberKey) (attrs : Attributes),
      v.exported vrf p = v.ofMembers (ms.filter v.IsMachine) attrs ∧
        w.exported vrf p = w.ofMembers (ms.filter w.IsMachine) attrs := by
  rw [View.exported_eq hv, View.exported_eq hw, h.source?, h.bare]
  cases hs : v.source? vrf p with
  | none => exact ⟨[], {}, rfl, rfl⟩
  | some s =>
    cases hb : v.tables.bare? vrf with
    | none => exact ⟨[], {}, rfl, rfl⟩
    | some b =>
      have hmem : ∃ b, s.2 ∈ v.tables.paths b (.inet p.canonical) := by
        simp only [View.source?, Tables.source?] at hs
        obtain ⟨b, _, hs⟩ := Option.bind_eq_some_iff.mp hs
        obtain ⟨x, hx, rfl⟩ := Option.map_eq_some_iff.mp hs
        exact ⟨b.2, List.mem_of_find?_eq_some hx⟩
      obtain ⟨br, hmem⟩ := hmem
      have hcur := hc br _ _ hmem
      refine ⟨s.2.hop.key.parts, { s.2.attrs with destVns := [s.1], vni := b.vni }, ?_, ?_⟩
      · show v.localAdvertisement s.2.hop _ = _
        rw [localAdvertisement_eq, machines_of_current hcur]
      · show w.localAdvertisement (s.2.refresh w.tables.interfaces name).hop
          { (s.2.refresh w.tables.interfaces name).attrs with destVns := [s.1], vni := b.vni } = _
        rw [localAdvertisement_eq, machines_of_current (Path.current_refresh h.interfaces hcur),
          Path.key_refresh, Path.attrs_refresh]

/-- The place of an export among the EVPN paths is the same before and after. -/
theorem Refreshes.wins_iff (h : v.Refreshes w name) {x y : Path} (hpeer : y.peer = x.peer)
    (hpref : y.attrs.preference = x.attrs.preference) (vrf : String) (p : Prefix) :
    w.Wins vrf p y ↔ v.Wins vrf p x := by
  have hb : ∀ z : Path, y.Before (z.refresh w.tables.interfaces name) ↔ x.Before z := fun z =>
    Path.before_congr hpeer hpref (Path.peer_refresh _ _ z) (by rw [Path.attrs_refresh])
  simp only [Wins]
  rw [h.rival]
  constructor
  · exact fun hw z hz => (hb z).mp (hw _ (Option.mem_map_of_mem _ hz))
  · intro hw z hz
    obtain ⟨z', hz', rfl⟩ := Option.map_eq_some_iff.mp hz
    exact (hb z').mpr (hw z' hz')

theorem Refreshes.wins_refresh_iff (h : v.Refreshes w name) (vrf : String) (p : Prefix)
    (x : Path) : w.Wins vrf p (x.refresh w.tables.interfaces name) ↔ v.Wins vrf p x :=
  h.wins_iff (Path.peer_refresh _ _ x) (by rw [Path.attrs_refresh]) vrf p

section

variable {ms : List MemberKey}

theorem mem_machines {m : MemberKey} : m ∈ ms.filter v.IsMachine ↔ m ∈ ms ∧ v.IsMachine m := by
  simp [List.mem_filter]

theorem isInterface_of_mem {m : MemberKey} (hm : m ∈ ms.filter v.IsMachine) :
    m.key.isInterface :=
  isInterface_of_isMachine (mem_machines.mp hm).2

/-- Where none of them is of a machine, nothing leaks like an export of those that are elsewhere. -/
theorem leakWith_none_ne_of_filter {u u' : View} (hne : ms.filter u.IsMachine ≠ [])
    (hnil : ms.filter u'.IsMachine = []) (attrs : Attributes) (vrf : String) (p : Prefix) :
    u'.leakWith vrf p none ≠ u.ofMembers (ms.filter u.IsMachine) attrs := by
  refine leakWith_none_ne_ofMembers hne (fun m hm => ⟨isInterface_of_mem hm, fun hm' => ?_⟩) attrs
    vrf p
  have hmem : m ∈ ms.filter u'.IsMachine := mem_machines.mpr ⟨(mem_machines.mp hm).1, hm'⟩
  rw [hnil] at hmem
  cases hmem

variable (h : v.Refreshes w name) {attrs : Attributes} {vrf : String} {p : Prefix} {peer : Peer}
  {old new : Option Path} (hold : Accords old (v.ofMembers (ms.filter v.IsMachine) attrs))
  (hpeer : ∀ x ∈ old, x.peer = peer) (hcur : ∀ x ∈ old, x.hop.Current v.tables.interfaces)
  (hnew : Fresh w.tables.interfaces peer (w.ofMembers (ms.filter w.IsMachine) attrs) new)
  (hleak : w.leakWith vrf p new = v.leakWith vrf p old)

include h hold hpeer hnew

/-- Both exports win, or none does. -/
theorem Refreshes.wins_iff_of_exports {x y : Path} (hx : old = some x) (hy : new = some y)
    (vrf : String) (p : Prefix) :
    w.Wins vrf p y ↔ v.Wins vrf p x := by
  subst hx hy
  have hpref := (exports_of_accords (fun _ hm => isInterface_of_mem hm) hold).2.1
  have hpref' := (exports_of_accords (fun _ hm => isInterface_of_mem hm) hnew.accords).2.1
  exact h.wins_iff ((hnew.peer y rfl).trans (hpeer x rfl).symm) (hpref'.trans hpref.symm) vrf p

omit hpeer hnew in
include hcur in
/-- What leaks of the old export before and after. -/
theorem Refreshes.mirror_eq {x : Path} (hx : old = some x) :
    v.mirror x = v.ofMembers (ms.filter v.IsMachine) attrs ∧
      w.mirror (x.refresh w.tables.interfaces name) =
        w.ofMembers ((ms.filter v.IsMachine).filter w.IsMachine) attrs := by
  subst hx
  have hold' : Accords (some (x.refresh w.tables.interfaces name))
      (v.ofMembers (ms.filter v.IsMachine) attrs) :=
    (accords_refresh (some x)).mpr hold
  obtain ⟨_, _, hv⟩ := exports_of_accords (fun _ hm => isInterface_of_mem hm) hold
  obtain ⟨_, _, hw⟩ := exports_of_accords (fun _ hm => isInterface_of_mem hm) hold'
  refine ⟨?_, hw w (Path.current_refresh h.interfaces (hcur x rfl))⟩
  rw [hv v (hcur x rfl), List.filter_filter]
  simp

include hcur hleak

/-- With more machines the old export leaks what it leaked before. -/
theorem Refreshes.leakWith_of_more (hsub : ∀ m, v.IsMachine m → w.IsMachine m) :
    w.leakWith vrf p (old.map (·.refresh w.tables.interfaces name)) = w.leakWith vrf p new ∨
      w.leakWith vrf p (old.map (·.refresh w.tables.interfaces name)) = v.leakWith vrf p old := by
  cases old with
  | none =>
    cases new with
    | none => exact .inl rfl
    | some y =>
      obtain ⟨hne, _, hmirror⟩ :=
        exports_of_accords (fun _ hm => isInterface_of_mem hm) hnew.accords
      have hnil : ms.filter v.IsMachine = [] := eq_nil_of_accords hold
      refine .inl (leakWith_of_not_wins fun hw => ?_).symm
      rw [leakWith_of_wins hw, hmirror w (NextHop.current_of_resolve (hnew.resolved y rfl)),
        List.filter_filter] at hleak
      exact leakWith_none_ne_of_filter hne hnil attrs vrf p (by simpa using hleak.symm)
  | some x =>
    obtain ⟨hne, _, _⟩ := exports_of_accords (fun _ hm => isInterface_of_mem hm) hold
    cases new with
    | none =>
      obtain ⟨m, hm⟩ := List.exists_mem_of_ne_nil _ hne
      have hmem := mem_machines.mpr ⟨(mem_machines.mp hm).1, hsub m (mem_machines.mp hm).2⟩
      rw [eq_nil_of_accords hnew.accords] at hmem
      cases hmem
    | some y =>
      have hy := h.wins_iff_of_exports hold hpeer hnew rfl rfl vrf p
      have hx := h.wins_refresh_iff vrf p x
      obtain ⟨hmv, hmw⟩ := h.mirror_eq hold hcur rfl
      have hall : (ms.filter v.IsMachine).filter w.IsMachine = ms.filter v.IsMachine :=
        List.filter_eq_self.mpr fun m hm => by simpa using hsub m (mem_machines.mp hm).2
      rw [Option.map_some]
      by_cases hw : v.Wins vrf p x
      · right
        rw [leakWith_of_wins (hx.mpr hw), leakWith_of_wins hw, hmv, hmw, hall]
        exact ofMembers_of_isInterface w v (fun _ hm => isInterface_of_mem hm) attrs
      · left
        rw [leakWith_of_not_wins (mt hx.mp hw), leakWith_of_not_wins (mt hy.mp hw)]

/-- With fewer machines the old export leaks what the new one does. -/
theorem Refreshes.leakWith_of_fewer (hsub : ∀ m, w.IsMachine m → v.IsMachine m) :
    w.leakWith vrf p (old.map (·.refresh w.tables.interfaces name)) = w.leakWith vrf p new := by
  have hall : (ms.filter v.IsMachine).filter w.IsMachine = ms.filter w.IsMachine := by
    rw [List.filter_filter]
    refine List.filter_congr fun m _ => ?_
    by_cases hm : w.IsMachine m
    · simp [hm, hsub m hm]
    · simp [hm]
  cases old with
  | none =>
    cases new with
    | none => rfl
    | some y =>
      obtain ⟨hne, _, _⟩ := exports_of_accords (fun _ hm => isInterface_of_mem hm) hnew.accords
      have hnil : ms.filter v.IsMachine = [] := eq_nil_of_accords hold
      rw [hnil] at hall
      exact absurd hall.symm hne
  | some x =>
    have hx := h.wins_refresh_iff vrf p x
    obtain ⟨hmv, hmw⟩ := h.mirror_eq hold hcur rfl
    rw [hall] at hmw
    rw [Option.map_some]
    cases new with
    | none =>
      have hnil : ms.filter w.IsMachine = [] := eq_nil_of_accords hnew.accords
      obtain ⟨hne, _, _⟩ := exports_of_accords (fun _ hm => isInterface_of_mem hm) hold
      refine leakWith_of_not_wins fun hw => ?_
      rw [leakWith_of_wins (hx.mp hw), hmv] at hleak
      exact leakWith_none_ne_of_filter hne hnil attrs vrf p hleak
    | some y =>
      obtain ⟨_, _, hmirror⟩ := exports_of_accords (fun _ hm => isInterface_of_mem hm) hnew.accords
      have hy := h.wins_iff_of_exports hold hpeer hnew rfl rfl vrf p
      by_cases hw : v.Wins vrf p x
      · rw [leakWith_of_wins (hx.mpr hw), leakWith_of_wins (hy.mpr hw), hmw,
          hmirror w (NextHop.current_of_resolve (hnew.resolved y rfl)), List.filter_filter]
        simp
      · rw [leakWith_of_not_wins (mt hx.mp hw), leakWith_of_not_wins (mt hy.mp hw)]

/-- If a new export makes leak what leaked before, the old one still does, or leaks like the new
one. -/
theorem Refreshes.leakWith_refresh :
    w.leakWith vrf p (old.map (·.refresh w.tables.interfaces name)) = w.leakWith vrf p new ∨
      w.leakWith vrf p (old.map (·.refresh w.tables.interfaces name)) = v.leakWith vrf p old := by
  rcases h.machines_subset with hsub | hsub
  · exact h.leakWith_of_more hold hpeer hcur hnew hleak hsub
  · exact .inl (h.leakWith_of_fewer hold hpeer hcur hnew hleak hsub)

end

end View

namespace Engine

/-- The view of an engine in which an interface has changed. -/
theorem refreshes_setInterfaces (e : Engine) {t : InterfaceTable} {name : String}
    (ht : ∀ n, n ≠ name → t.get? n = e.tables.interfaces.get? n) :
    e.toView.Refreshes ⟨e.params, ((e.setInterfaces t).tables.refresh name).1, e.routers⟩ name where
  params := rfl
  routers := rfl
  bare vrf := Tables.bare?_refresh _ name vrf
  paths vrf k := Tables.paths_refresh _ name vrf k
  interfaces := ht

/-- What leaks of a new export after the change either leaks of the old one as well, or is what
leaked before. -/
theorem guarded_of_refresh {e : Engine} (he : e.Sound) (hs : e.Settled) (hcur : e.tables.Current)
    {v : View} {name : String} (h : e.toView.Refreshes v name) (ht : v.tables.Proper) :
    v.Guarded := by
  have hidle := ((settled_iff he.sorted).mp hs).1
  intro vrf p hσ found hf hacc
  have hserved : e.routers.Serves vrf := h.routers ▸ hσ.1
  have hconfig : v.params.FromConfig := h.params ▸ he.config
  obtain ⟨ms, attrs, hwas, hwill⟩ := h.exported_eq he.proper ht hcur vrf p
  let old := Duty.found e.toView ⟨.fromBridges, vrf, p⟩
  have hold : Accords old (e.ofMembers (ms.filter e.IsMachine) attrs) :=
    hwas ▸ hidle ⟨.fromBridges, vrf, p⟩ ⟨hserved, hσ.2⟩
  have hnew : Fresh v.tables.interfaces e.params.exportPeer
      (v.ofMembers (ms.filter v.IsMachine) attrs) found := hwill ▸ h.params ▸ hf
  have hmem : ∀ x ∈ old, x ∈ e.tables.paths vrf (.evpn (.type5 p)) ∧
      x.peer = e.params.exportPeer := by
    intro x hx
    exact Tables.mem_of_path? hx
  have hwant := View.want_toInet_eq hconfig ht vrf hσ.2
  rw [h.found] at hwant hacc
  have hleak : v.leakWith vrf p found = e.leakWith vrf p old := by
    rw [← View.want_toInet_eq he.config he.proper vrf hσ.2]
    exact ((accords_refresh _).mp hacc).unique (hidle ⟨.toInet, vrf, p⟩ ⟨hserved, hσ.2⟩)
      (v.installable_leakWith vrf p found) (Duty.regular_of_want he.proper _)
  simp only [Duty.Idle]
  rw [hwant, h.found]
  rcases h.leakWith_refresh hold (fun x hx => (hmem x hx).2)
    (fun x hx => hcur vrf _ x (hmem x hx).1) hnew hleak with hl | hl
  · rw [hl]
    exact hacc
  · rw [hl, ← hleak]
    exact hacc

/-- An engine that an interface has changed for is poised and all its paths are current, if it was
settled and they were current before. In which order it is told of the changed routes does not
matter, nor of which: the walk of all routers covers what has not been told. -/
theorem poised_of_refresh {e : Engine} (he : e.Sound) (hw : e.Wired) (hs : e.Settled)
    (hq : e.queue = []) (hcur : e.tables.Current) {t : InterfaceTable} {name : String}
    (ht : ∀ n, n ≠ name → t.get? n = e.tables.interfaces.get? n) (told : List Notification)
    {e₂ e' : Engine}
    (he₂ : e₂ = told.foldl notify
      { e with tables := ((e.setInterfaces t).tables.refresh name).1 })
    (he' : e' = e₂.walkAll e₂.routers.ids) (ha : e'.routers.Apart) (hc : e'.Carries) :
    e'.Poised ∧ e'.tables.Current := by
  have hclear := ((settled_iff he.sorted).mp hs).2
  let db := ((e.setInterfaces t).tables.refresh name).1
  let v : View := ⟨e.params, db, e.routers⟩
  let e₁ : Engine := { e with tables := db }
  have href : e.toView.Refreshes v name := e.refreshes_setInterfaces ht
  have hset : (e.setInterfaces t).tables.Proper := ⟨he.proper.named, he.proper.vrf⟩
  have hproper : v.tables.Proper := hset.refresh name
  have hg₁ : Grows v e₁ e₂ := he₂ ▸ (foldl_grows (e := e₁) (.refl v) fun e h n _ =>
    notify_grows (v := v) hw.coherent hproper h n).1
  have hl₂ : v.Level e₂.toView := hg₁.toLevel
  have hg₂ := (walkAll_grows (v := v) hw.coherent hproper hl₂ e₂.routers.ids).1
  have hg : Grows v e₁ e' := he' ▸ hg₁.trans hg₂
  have hsnap : Snapshot v e' := {
    level := hg.toLevel
    sound := .of_level (v := v) he.config hproper he.sorted hg.toLevel
    wired := ⟨hw.coherent.of_bare_eq hg.routers, ha, hc⟩
    queue := by
      intro q hq'
      rcases hg.mem_queue.2 hq' with hq' | hd
      · rw [show e₁.queue = e.queue from rfl, hq] at hq'
        cases hq'
      · exact .inr hd
    covers := fun σ hσ => he' ▸
      covers_walkAll_ids (v := v) hw.coherent hproper hl₂ hw.apart hσ
    cleans := by
      intro vrf hv k p hp
      rw [href.path?, hclear vrf hv k p hp]
      exact .inl rfl
    guarded := guarded_of_refresh he hs hcur href hproper }
  have htables : e'.tables = db := hg.tables
  exact ⟨hsnap.poised, htables ▸ href.current hcur⟩

end Engine

end VxlanRouting
