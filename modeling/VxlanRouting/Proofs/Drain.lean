import VxlanRouting.Proofs.Leak
import VxlanRouting.Proofs.Promise
import VxlanRouting.Proofs.Termination

/-!
Draining a queue that was filled from one view. All its requests ask for what is decided in that
view. While they are applied only one kind of decision may change: what leaks into an Inet table
changes when the export of the prefix arrives, and stays then. The waiting leaks ask for the
outdated decision, but the new one is asked for behind them; the only danger is that it seems to be
fulfilled already. So it is enough that no path is there which the export would make right.
-/
namespace VxlanRouting

namespace View

/-- The VRF is no bridge that another one comes after. -/
def Aside (v : View) (vrf : String) : Prop :=
  ∀ R, v.routers.Serves R → ∀ b ∈ (v.routers.bridgesOf R).dropLast, b.2 ≠ vrf

theorem Wired.aside_of_serves {v : View} (h : v.Wired) {vrf : String} (hs : v.routers.Serves vrf) :
    v.Aside vrf := by
  rintro R hR ⟨vn, b⟩ hb rfl
  obtain ⟨id, r, hr, _, hget⟩ := h.coherent.mem_bridgesOf h.apart hR (List.dropLast_subset _ hb)
  exact h.coherent.not_serves_bridge h.apart hr hget hs

theorem Aside.of_bare_eq {v w : View} (h : w.routers.bare = v.routers.bare) {vrf : String}
    (ha : v.Aside vrf) : w.Aside vrf := by
  intro R hR b hb
  rw [RouterMap.bridgesOf_congr h] at hb
  exact ha R ((RouterMap.serves_congr h R).mp hR) b hb

/-- A request under a peer of the engine leaves all decisions but those for Inet tables. -/
theorem Applies.want_of_owns {v w : View} {q : Request} (h : v.Applies w q)
    (hc : v.params.FromConfig) (hv : v.tables.Proper) (hq : v.params.Owns q.peer)
    (ha : v.Aside q.vrf) {σ : Duty} (hσ : v.Has σ) (hd : σ.direction ≠ .toInet) :
    σ.want w = σ.want v := by
  have hbgp : q.peer.kind ≠ .bgp := hc.ne_bgp_of_owns hq
  have hvm : q.peer.kind ≠ .localVm := hc.ne_localVm_of_owns hq
  obtain ⟨d, R, p⟩ := σ
  cases d with
  | toInet => exact absurd rfl hd
  | toEvpn => exact h.want_toEvpn hv hbgp R p
  | fromBridges =>
    have hh : v.SameHost w := h.sameHost hv (.inr hbgp)
    refine exported_congr hv (h.proper hv) (localAdvertisement_congr hh) ?_ (by rw [h.bare?])
    simp only [source?]
    rw [h.bridgesOf]
    refine Tables.source?_congr (fun b _ => ?_) fun b hb => ?_
    · rw [h.tables]
      refine Tables.find?_paths_apply _ q (fun x hx => ?_) _ _
      simp [hx, hvm]
    · refine h.paths_of_ne fun he => ?_
      exact ha R hσ.1 b hb (Prod.mk.inj he).1

theorem Applies.found_of {v w : View} {q : Request} (h : v.Applies w q) {σ : Duty}
    (hq : σ.Of v.params q) (hb : v.tables.bare? σ.vrf ≠ none) :
    σ.found w = q.outcome v.tables.interfaces (σ.found v) := by
  obtain ⟨hv, hk, hp⟩ := hq
  simp only [Duty.found]
  rw [h.params, h.tables, ← hv, ← hk, ← hp, Tables.path?_apply_self _ q (by rw [hv]; exact hb)]

theorem Applies.found_of_not {v w : View} {q : Request} (h : v.Applies w q) {σ : Duty}
    (hq : ¬ σ.Of v.params q) : σ.found w = σ.found v := by
  simp only [Duty.found]
  rw [h.params, h.tables]
  refine Tables.path?_apply_of_ne _ q fun he => hq ?_
  simp only [Prod.mk.injEq] at he
  exact ⟨he.1.symm, he.2.1.symm, he.2.2.symm⟩

theorem Applies.rival {v w : View} {q : Request} (h : v.Applies w q) (hq : v.params.Owns q.peer)
    (vrf : String) (p : Prefix) : w.rival vrf p = v.rival vrf p := by
  simp only [View.rival]
  rw [h.tables, h.params]
  refine Tables.find?_paths_apply _ q (fun x hx => ?_) _ _
  simp [hx, hq]

theorem leakWith_congr {v w : View} (hh : v.SameHost w) {vrf : String} {p : Prefix}
    (hr : w.rival vrf p = v.rival vrf p) (found : Option Path) :
    w.leakWith vrf p found = v.leakWith vrf p found := by
  simp only [leakWith]
  rw [hr]
  exact Option.bind_congr fun x _ => (mirror_congr hh x).symm

/-- No leaked path accords with what would leak of a fresh export, unless it is as decided now. -/
def Guarded (v : View) : Prop :=
  ∀ vrf p, v.Has ⟨.toInet, vrf, p⟩ → ∀ found,
    Fresh v.tables.interfaces v.params.exportPeer (Duty.want v ⟨.fromBridges, vrf, p⟩) found →
    Accords (Duty.found v ⟨.toInet, vrf, p⟩) (v.leakWith vrf p found) →
    Duty.Idle v ⟨.toInet, vrf, p⟩

theorem Guarded.of_level {v w : View} (h : v.Level w) (ht : v.tables.Proper) (hg : v.Guarded) :
    w.Guarded := by
  intro vrf p hσ found hf hacc
  have hserves : v.routers.Serves vrf := (RouterMap.serves_congr h.routers vrf).mp hσ.1
  have hr : w.rival vrf p = v.rival vrf p := by
    simp only [rival]
    rw [h.tables, h.params]
  rw [h.want_eq ht, h.tables, h.params] at hf
  rw [leakWith_congr h.sameHost hr] at hacc
  simp only [Duty.found] at hacc
  rw [h.tables, h.params] at hacc
  rw [h.idle_iff ht]
  exact hg vrf p ⟨hserves, hσ.2⟩ found hf hacc

end View

/-- If some of the requests are for a path and all of them ask the same, the path will be so. -/
theorem Tables.accords_applyAll {db : Tables} {vrf : String} {k : RouteKey} {p : Peer}
    {want : Option Advertisement} (hw : Installable db.interfaces want)
    (hb : db.bare? vrf ≠ none) {l : List Request}
    (hask : ∀ q ∈ l, (vrf, k, p) = (q.vrf, q.key, q.peer) → q.action.Asks want)
    (h : Accords (db.path? vrf k p) want ∨ ∃ q ∈ l, (vrf, k, p) = (q.vrf, q.key, q.peer)) :
    Accords ((db.applyAll l).path? vrf k p) want := by
  induction l generalizing db with
  | nil => exact h.elim id fun ⟨q, hq, _⟩ => nomatch hq
  | cons q l ih =>
    have hw' : Installable (db.apply q).1.interfaces want := by
      rw [interfaces_apply]
      exact hw
    have hb' : (db.apply q).1.bare? vrf ≠ none := by
      rw [bare?_apply]
      exact hb
    refine ih hw' hb' (fun r hr => hask r (List.mem_cons_of_mem _ hr)) ?_
    by_cases hq : (vrf, k, p) = (q.vrf, q.key, q.peer)
    · have ha : q.action.Asks want := hask q List.mem_cons_self hq
      simp only [Prod.mk.injEq] at hq
      obtain ⟨rfl, rfl, rfl⟩ := hq
      rw [path?_apply_self db q hb]
      exact .inl (q.accords_outcome ha hw _)
    · rw [path?_apply_of_ne db q hq]
      rcases h with h | ⟨r, hr, hk⟩
      · exact .inl h
      · rcases List.mem_cons.mp hr with rfl | hr
        · exact absurd hk hq
        · exact .inr ⟨r, hr, hk⟩

namespace Engine

/-- The queue has been filled from the view of the engine: every duty is idle or asked for, and no
request asks for what is not decided. -/
structure Poised (e : Engine) : Prop where
  sound : e.Sound
  wired : e.Wired
  own : ∀ q ∈ e.queue, e.params.Owns q.peer
  aside : ∀ q ∈ e.queue, e.Aside q.vrf
  asked : ∀ q ∈ e.queue, ∀ σ, e.Has σ → σ.Of e.params q → q.action.Asks (σ.want e.toView)
  covered : ∀ σ, e.Has σ → σ.Idle e.toView ∨ ∃ q ∈ e.queue, σ.Of e.params q
  cleared : e.Cleared
  guarded : e.Guarded

/-- No export for the prefix has been applied yet, and what waits for its leak asks for what leaked
at the start. -/
structure Unexported (e e' : Engine) (vrf : String) (p : Prefix) : Prop where
  found : Duty.found e'.toView ⟨.fromBridges, vrf, p⟩ = Duty.found e.toView ⟨.fromBridges, vrf, p⟩
  asked : ∀ q ∈ e'.queue, Duty.Of e.params ⟨.toInet, vrf, p⟩ q →
    q.action.Asks (Duty.want e.toView ⟨.toInet, vrf, p⟩)
  leaked : Duty.found e'.toView ⟨.toInet, vrf, p⟩ = Duty.found e.toView ⟨.toInet, vrf, p⟩ ∨
    Accords (Duty.found e'.toView ⟨.toInet, vrf, p⟩) (Duty.want e.toView ⟨.toInet, vrf, p⟩)

/-- The exported path is fresh. -/
def Exported (e e' : Engine) (vrf : String) (p : Prefix) : Prop :=
  Fresh e.tables.interfaces e.params.exportPeer (Duty.want e.toView ⟨.fromBridges, vrf, p⟩)
    (Duty.found e'.toView ⟨.fromBridges, vrf, p⟩)

/-- Where the draining of a queue has got to. -/
structure Drains (e e' : Engine) : Prop where
  steady : e'.Steady
  akin : e.toView.Akin e'.toView
  host : e.SameHost e'.toView
  own : ∀ q ∈ e'.queue, e.params.Owns q.peer
  aside : ∀ q ∈ e'.queue, e.Aside q.vrf
  rival : ∀ vrf p, e'.rival vrf p = e.rival vrf p
  want : ∀ σ, e.Has σ → σ.direction ≠ .toInet → σ.want e'.toView = σ.want e.toView
  asked : ∀ q ∈ e'.queue, ∀ σ, e.Has σ → σ.direction ≠ .toInet → σ.Of e.params q →
    q.action.Asks (σ.want e.toView)
  inet : ∀ vrf p, e.Has ⟨.toInet, vrf, p⟩ → e.tables.bare? vrf ≠ none →
    e.Unexported e' vrf p ∨ e.Exported e' vrf p
  promised : ∀ σ, e.Has σ → e'.Promised σ

theorem awaited_of_missing {e : Engine} {vrf : String} (hb : e.tables.bare? vrf = none)
    (k : RouteKey) (p : Peer) : e.awaited vrf k p = none := by
  simp only [awaited]
  rw [Tables.path?_eq_find?, Tables.paths_of_bare?_eq_none (by rw [Tables.bare?_applyAll, hb])]
  rfl

theorem promised_of_missing {e : Engine} (he : e.Sound) {σ : Duty}
    (hb : e.tables.bare? σ.vrf = none) : e.Promised σ := by
  have hidle : σ.Idle e.toView := Duty.idle_of_missing he.proper hb
  simp only [Duty.Idle, Duty.found] at hidle
  simp only [Promised]
  rw [awaited_of_missing hb]
  rw [Tables.path?_eq_find?, Tables.paths_of_bare?_eq_none hb] at hidle
  exact hidle

/-- A duty is promised if it is idle or asked for, and all that is asked for it is what is
decided. -/
theorem promised_of_asked {e : Engine} (he : e.Sound) {σ : Duty}
    (hask : ∀ q ∈ e.queue, σ.Of e.params q → q.action.Asks (σ.want e.toView))
    (hcov : σ.Idle e.toView ∨ ∃ q ∈ e.queue, σ.Of e.params q) : e.Promised σ := by
  by_cases hb : e.tables.bare? σ.vrf = none
  · exact promised_of_missing he hb
  · refine Tables.accords_applyAll (Duty.regular_of_want he.proper σ) hb (fun q hq hk => ?_) ?_
    · simp only [Prod.mk.injEq] at hk
      exact hask q hq ⟨hk.1.symm, hk.2.1.symm, hk.2.2.symm⟩
    · rcases hcov with hi | ⟨q, hq, hv, hk, hp⟩
      · exact .inl hi
      · exact .inr ⟨q, hq, by rw [hv, hk, hp]⟩

theorem Poised.promised {e : Engine} (h : e.Poised) {σ : Duty} (hσ : e.Has σ) : e.Promised σ :=
  promised_of_asked h.sound (fun q hq => h.asked q hq σ hσ) (h.covered σ hσ)

theorem Poised.drains {e : Engine} (h : e.Poised) : e.Drains e where
  steady := ⟨h.sound, h.wired, fun q hq => .inr (h.sound.config.ne_bgp_of_owns (h.own q hq)),
    h.cleared⟩
  akin := View.Akin.refl _
  host := View.SameHost.refl _
  own := h.own
  aside := h.aside
  rival _ _ := rfl
  want _ _ _ := rfl
  asked q hq σ hσ _ := h.asked q hq σ hσ
  inet _ _ hσ _ := .inl ⟨rfl, fun q hq => h.asked q hq _ hσ, .inl rfl⟩
  promised _ := h.promised

/-- What a turn leaves in the queue: the rest of it, and what the decided duty asks for. -/
theorem mem_queue_turn {e : Engine} (he : e.Sound) {q : Request} {rest : List Request}
    (hq : e.queue = q :: rest) (n : Nat) {r : Request} (hr : r ∈ (turn (e, n)).1.queue) :
    r ∈ rest ∨ ∃ σ, e.Decides σ ∧ σ.Of e.params r ∧
      r.action.Asks (σ.want (turn (e, n)).1.toView) := by
  obtain ⟨_, ⟨hqueue, _⟩ | ⟨σ, q', hqueue, hσ, _, hof, hask⟩⟩ := turn_spec he hq n
  · exact .inl (hqueue ▸ hr)
  · rw [hqueue] at hr
    rcases List.mem_append.mp hr with hr | hr
    · exact .inl hr
    · rw [List.mem_singleton] at hr
      exact .inr ⟨σ, hσ, hr ▸ hof, hr ▸ hask⟩

/-- A promise is kept in a turn that leaves the decision as it is. -/
theorem promised_turn_of_want_eq {e : Engine} (he : e.Sound) {q : Request} {rest : List Request}
    (hq : e.queue = q :: rest) (n : Nat) {σ : Duty}
    (hw : σ.want (turn (e, n)).1.toView = σ.want e.toView) (hp : e.Promised σ) :
    (turn (e, n)).1.Promised σ := by
  by_cases hd : e.Decides σ
  · rw [promised_turn_of_decides he hq n hd]
    rintro ⟨hidle, hn⟩
    obtain ⟨ha, ⟨hqueue, _⟩ | ⟨τ, _, _, hτ, hbusy, _⟩⟩ := turn_spec he hq n
    · apply hn
      have hall := applyAll_turn hq ha []
      rw [List.append_nil] at hall
      simp only [Promised, awaited]
      rw [hw, ha.params, hqueue, hall]
      exact hp
    · exact hbusy (hd.unique hτ ▸ hidle)
  · exact (promised_turn_iff_of_want_eq he hq n hd hw).mpr hp

/-- A decision that a turn changes is promised if it is not fulfilled already. -/
theorem promised_turn_of_busy {e : Engine} (he : e.Steady) {q : Request} {rest : List Request}
    (hq : e.queue = q :: rest) (n : Nat) {σ : Duty} (hσ : e.Has σ)
    (hw : σ.want (turn (e, n)).1.toView ≠ σ.want e.toView)
    (hb : ¬ σ.Idle (turn (e, n)).1.toView) : (turn (e, n)).1.Promised σ := by
  have hd : e.Decides σ := Classical.byContradiction fun hd =>
    hw (want_turn_of_not_decides he hq n hσ hd)
  rw [promised_turn_of_decides he.sound hq n hd]
  exact fun ho => hb ho.1

theorem leakWith_of_drains {e e' : Engine} (hs : e'.Sound) (hh : e.SameHost e'.toView)
    {vrf : String} {p : Prefix} (hr : e'.rival vrf p = e.rival vrf p) (hp : p.Canonical) :
    Duty.want e'.toView ⟨.toInet, vrf, p⟩ =
      e.leakWith vrf p (Duty.found e'.toView ⟨.fromBridges, vrf, p⟩) := by
  rw [View.want_toInet_eq hs.config hs.proper _ hp, View.leakWith_congr hh hr]

/-- A turn that applies an export makes it fresh. -/
theorem Drains.exported_turn {e e' : Engine} (hs : e.Sound) (h : e.Drains e') {q : Request}
    {rest : List Request} (hq : e'.queue = q :: rest) (n : Nat) {vrf : String} {p : Prefix}
    (hσ : e.Has ⟨.fromBridges, vrf, p⟩) (hb : e'.tables.bare? vrf ≠ none)
    (hof : Duty.Of e'.params ⟨.fromBridges, vrf, p⟩ q) : e.Exported (turn (e', n)).1 vrf p := by
  obtain ⟨ha, _⟩ := turn_spec h.steady.sound hq n
  have hparams : e'.params = e.params := h.akin.params
  have hask := h.asked q (hq ▸ List.mem_cons_self) _ hσ (by simp) (hparams ▸ hof)
  have hpeer : q.peer = e.params.exportPeer := hparams ▸ hof.2.2
  simp only [Exported]
  rw [ha.found_of hof hb, h.akin.interfaces, ← hpeer]
  exact q.fresh_outcome hask (Duty.regular_of_want hs.proper _) _

/-- A turn keeps a prefix unexported, or exports it. -/
theorem Drains.inet_turn {e e' : Engine} (hs : e.Sound) (h : e.Drains e') {q : Request}
    {rest : List Request} (hq : e'.queue = q :: rest) (n : Nat) {vrf : String} {p : Prefix}
    (hσ : e.Has ⟨.toInet, vrf, p⟩) (hb : e.tables.bare? vrf ≠ none) :
    e.Unexported (turn (e', n)).1 vrf p ∨ e.Exported (turn (e', n)).1 vrf p := by
  obtain ⟨ha, _⟩ := turn_spec h.steady.sound hq n
  have hmem : q ∈ e'.queue := hq ▸ List.mem_cons_self
  have hparams : e'.params = e.params := h.akin.params
  have hb' : e'.tables.bare? vrf ≠ none := by
    rw [h.akin.bare]
    exact hb
  by_cases hexp : Duty.Of e'.params ⟨.fromBridges, vrf, p⟩ q
  · exact .inr (h.exported_turn hs hq n hσ hb' hexp)
  · have hfound := ha.found_of_not hexp
    rcases h.inet vrf p hσ hb with hu | hx
    · have hsound : (turn (e', n)).1.Sound := h.steady.sound.of_applies ha
      have hown : e'.params.Owns q.peer := hparams ▸ h.own q hmem
      have hhost : e.SameHost (turn (e', n)).1.toView := by
        refine h.host.trans (ha.sameHost h.steady.sound.proper ?_)
        exact h.steady.harmless q hmem
      have hrival : (turn (e', n)).1.rival vrf p = e.rival vrf p :=
        (ha.rival hown vrf p).trans (h.rival vrf p)
      have hwant : Duty.want (turn (e', n)).1.toView ⟨.toInet, vrf, p⟩ =
          Duty.want e.toView ⟨.toInet, vrf, p⟩ := by
        rw [leakWith_of_drains hsound hhost hrival hσ.2, hfound, hu.found,
          ← View.want_toInet_eq hs.config hs.proper _ hσ.2]
      refine .inl ⟨hfound.trans hu.found, fun r hr hof => ?_, ?_⟩
      · rcases mem_queue_turn h.steady.sound hq n hr with hr | ⟨τ, _, hτ, hask⟩
        · exact hu.asked r (hq ▸ List.mem_cons_of_mem _ hr) hof
        · rw [hparams] at hτ
          cases hτ.unique hs.config.peers_ne hof
          exact hwant ▸ hask
      · by_cases hof : Duty.Of e'.params ⟨.toInet, vrf, p⟩ q
        · rw [ha.found_of hof hb']
          refine .inr (q.accords_outcome (hu.asked q hmem (hparams ▸ hof)) ?_ _)
          rw [h.akin.interfaces]
          exact Duty.regular_of_want hs.proper _
        · rw [ha.found_of_not hof]
          exact hu.leaked
    · refine .inr ?_
      simp only [Exported]
      rw [hfound]
      exact hx

/-- A turn keeps the promise of a leak. If the export that it applies changes the decision, then the
waiting requests are outdated; but the installed path is that of the start or what they ask for, so
that it does not accord with the new decision, and the turn asks for that. -/
theorem Drains.promised_turn {e e' : Engine} (he : e.Poised) (h : e.Drains e') {q : Request}
    {rest : List Request} (hq : e'.queue = q :: rest) (n : Nat) {vrf : String} {p : Prefix}
    (hσ : e.Has ⟨.toInet, vrf, p⟩) (hb : e.tables.bare? vrf ≠ none)
    (hhost : e.SameHost (turn (e', n)).1.toView)
    (hrival : (turn (e', n)).1.rival vrf p = e.rival vrf p) :
    (turn (e', n)).1.Promised ⟨.toInet, vrf, p⟩ := by
  obtain ⟨ha, _⟩ := turn_spec h.steady.sound hq n
  have hsound : (turn (e', n)).1.Sound := h.steady.sound.of_applies ha
  have hσ' : e'.Has ⟨.toInet, vrf, p⟩ := (h.akin.has_iff _).mpr hσ
  by_cases hw : Duty.want (turn (e', n)).1.toView ⟨.toInet, vrf, p⟩ =
      Duty.want e'.toView ⟨.toInet, vrf, p⟩
  · exact promised_turn_of_want_eq h.steady.sound hq n hw (h.promised _ hσ)
  · refine promised_turn_of_busy h.steady hq n hσ' hw fun hidle => hw ?_
    have hold := leakWith_of_drains h.steady.sound h.host (h.rival vrf p) hσ.2
    have hnew := leakWith_of_drains hsound hhost hrival hσ.2
    have hexp : Duty.Of e'.params ⟨.fromBridges, vrf, p⟩ q := by
      refine Classical.byContradiction fun hn => hw ?_
      rw [hnew, hold, ha.found_of_not hn]
    have hleak : ¬ Duty.Of e'.params ⟨.toInet, vrf, p⟩ q := by
      intro hof
      cases hof.unique h.steady.sound.config.peers_ne hexp
    have hx := h.exported_turn he.sound hq n hσ (by rw [h.akin.bare]; exact hb) hexp
    rcases h.inet vrf p hσ hb with hu | hx'
    · have hacc : Accords (Duty.found e'.toView ⟨.toInet, vrf, p⟩)
          (e.leakWith vrf p (Duty.found (turn (e', n)).1.toView ⟨.fromBridges, vrf, p⟩)) := by
        rw [← ha.found_of_not hleak, ← hnew]
        exact hidle
      have hstart : Accords (Duty.found e'.toView ⟨.toInet, vrf, p⟩)
          (Duty.want e.toView ⟨.toInet, vrf, p⟩) := by
        rcases hu.leaked with hf | hf
        · rw [hf] at hacc ⊢
          exact he.guarded vrf p hσ _ hx hacc
        · exact hf
      have hsame : Duty.want e'.toView ⟨.toInet, vrf, p⟩ =
          Duty.want e.toView ⟨.toInet, vrf, p⟩ := by
        rw [hold, hu.found, ← View.want_toInet_eq he.sound.config he.sound.proper _ hσ.2]
      rw [hsame]
      refine hidle.unique (ha.found_of_not hleak ▸ hstart) (Duty.regular_of_want hsound.proper _)
        (Duty.regular_of_want he.sound.proper _)
    · rw [hnew, hold]
      exact e.leakWith_fresh vrf p hx' hx

/-- A turn gets the draining on. -/
theorem Drains.turn {e e' : Engine} (he : e.Poised) (h : e.Drains e') (n : Nat) :
    e.Drains (turn (e', n)).1 := by
  cases hq : e'.queue with
  | nil =>
    have ht : Engine.turn (e', n) = (e', n) := by
      simp only [Engine.turn]
      rw [hq]
    rw [ht]
    exact h
  | cons q rest =>
    obtain ⟨ha, _⟩ := turn_spec h.steady.sound hq n
    have hmem : q ∈ e'.queue := hq ▸ List.mem_cons_self
    have hrest : ∀ r ∈ rest, r ∈ e'.queue := fun r hr => hq ▸ List.mem_cons_of_mem _ hr
    have hparams : e'.params = e.params := h.akin.params
    have hown : e'.params.Owns q.peer := hparams ▸ h.own q hmem
    have haside : e'.Aside q.vrf := (h.aside q hmem).of_bare_eq h.akin.routers
    have hhost : e.SameHost (Engine.turn (e', n)).1.toView :=
      h.host.trans (ha.sameHost h.steady.sound.proper (h.steady.harmless q hmem))
    have hrival : ∀ vrf p, (Engine.turn (e', n)).1.rival vrf p = e.rival vrf p :=
      fun vrf p => (ha.rival hown vrf p).trans (h.rival vrf p)
    have hwant : ∀ σ, e.Has σ → σ.direction ≠ .toInet →
        σ.want (Engine.turn (e', n)).1.toView = σ.want e.toView := by
      intro σ hσ hd
      rw [ha.want_of_owns h.steady.sound.config h.steady.sound.proper hown haside
        ((h.akin.has_iff σ).mpr hσ) hd]
      exact h.want σ hσ hd
    have hqueue := fun r hr => mem_queue_turn h.steady.sound hq n (r := r) hr
    refine ⟨h.steady.turn n, h.akin.trans ha.akin, hhost, fun r hr => ?_, fun r hr => ?_, hrival,
      hwant, fun r hr σ hσ hd hof => ?_, fun vrf p hσ hb => h.inet_turn he.sound hq n hσ hb,
      fun σ hσ => ?_⟩
    · rcases hqueue r hr with hr | ⟨τ, _, hτ, _⟩
      · exact h.own r (hrest r hr)
      · rw [hτ.2.2, hparams]
        exact τ.owns_peer e.params
    · rcases hqueue r hr with hr | ⟨τ, hdecides, hτ, _⟩
      · exact h.aside r (hrest r hr)
      · rw [hτ.1]
        refine he.wired.aside_of_serves ((RouterMap.serves_congr h.akin.routers _).mp ?_)
        exact hdecides.serves h.steady.sound
    · rcases hqueue r hr with hr | ⟨τ, _, hτ, hask⟩
      · exact h.asked r (hrest r hr) σ hσ hd hof
      · rw [hparams] at hτ
        cases hτ.unique he.sound.config.peers_ne hof
        exact hwant σ hσ hd ▸ hask
    · by_cases hd : σ.direction = .toInet
      · by_cases hb : e.tables.bare? σ.vrf = none
        · refine promised_of_missing (h.steady.turn n).sound ?_
          rw [ha.bare?, h.akin.bare]
          exact hb
        · obtain ⟨_, vrf, p⟩ := σ
          cases hd
          exact h.promised_turn he hq n hσ hb hhost (hrival vrf p)
      · refine promised_turn_of_want_eq h.steady.sound hq n ?_ (h.promised σ hσ)
        rw [hwant σ hσ hd, h.want σ hσ hd]

theorem Poised.turns {e : Engine} (h : e.Poised) (i : Nat) : e.Drains (turns i (e, 0)).1 := by
  induction i with
  | zero => exact h.drains
  | succ i ih =>
    rw [turns_succ]
    exact ih.turn h _

/-- Processing a queue that has been filled from one view ends in a settled state. -/
theorem Poised.settled {e : Engine} (h : e.Poised) : e.process.1.Settled := by
  obtain ⟨hempty, n, hn, _⟩ := h.sound.process_turns
  have hd : e.Drains e.process.1 := hn ▸ h.turns n
  rw [settled_iff_promised hd.steady hempty]
  exact fun σ hσ => hd.promised σ ((hd.akin.has_iff σ).mp hσ)

end Engine

end VxlanRouting
