import VxlanRouting.Proofs.Settled

/-!
Promises. A decision is compared with the installed path, although requests for that path may wait
in the queue. A duty is promised if its path will be as decided once these have been applied. A turn
keeps every promise but that of the duty which it decides anew; this one is promised afterwards,
unless a waiting request overtakes the decision: the installed path already is as decided, so that
nothing is asked for, but the waiting request will take it away.
-/
namespace VxlanRouting

namespace Engine

/-- The path that a peer will have once the queue has been applied. -/
def awaited (e : Engine) (vrf : String) (k : RouteKey) (p : Peer) : Option Path :=
  (e.tables.applyAll e.queue).path? vrf k p

/-- The first request in the queue changes a route that feeds the duty. -/
def Decides (e : Engine) (σ : Duty) : Prop :=
  ∃ q rest, e.queue = q :: rest ∧ (e.tables.apply q).2 ≠ none ∧ e.fed? q.vrf q.key = some σ

/-- The path of a duty will be as decided once the queue has been applied. -/
def Promised (e : Engine) (σ : Duty) : Prop :=
  Accords (e.awaited σ.vrf σ.key (σ.peer e.params)) (σ.want e.toView)

/-- The path of a duty is as decided, but a request that waits will take it away. -/
def Overtaken (e : Engine) (σ : Duty) : Prop := σ.Idle e.toView ∧ ¬ e.Promised σ

theorem promised_iff_idle {e : Engine} (h : e.queue = []) (σ : Duty) :
    e.Promised σ ↔ σ.Idle e.toView := by
  simp only [Promised, awaited]
  rw [h]
  exact Iff.rfl

/-- No waiting request tells of the hardware address of a router. -/
def Harmless (e : Engine) : Prop :=
  ∀ q ∈ e.queue, q.vrf ≠ e.params.fabricVrf ∨ q.peer.kind ≠ .bgp

/-- Once the queue has been applied, no VRF but the served ones has a path of the engine. -/
def Cleared (e : Engine) : Prop :=
  ∀ vrf, ¬ e.routers.Serves vrf → ∀ k p, e.params.Owns p → e.awaited vrf k p = none

/-- What holds between turns. -/
structure Steady (e : Engine) : Prop where
  sound : e.Sound
  wired : e.Wired
  harmless : e.Harmless
  cleared : e.Cleared

/-- A turn that finds a request is a step of the engine without it. -/
theorem turn_of_queue {e : Engine} {q : Request} {rest : List Request} (h : e.queue = q :: rest)
    (n : Nat) : turn (e, n) = step ({ e with queue := rest }, n) q := by
  simp only [turn]
  rw [h]

/-- What a turn asks for: nothing, or the path of the duty that is decided. -/
theorem turn_spec {e : Engine} (he : e.Sound) {q : Request} {rest : List Request}
    (hq : e.queue = q :: rest) (n : Nat) :
    e.toView.Applies (turn (e, n)).1.toView q ∧
      ((turn (e, n)).1.queue = rest ∧ (∀ σ, e.Decides σ → σ.Idle (turn (e, n)).1.toView) ∨
        ∃ σ q', (turn (e, n)).1.queue = rest ++ [q'] ∧ e.Decides σ ∧
          ¬ σ.Idle (turn (e, n)).1.toView ∧ σ.Of e.params q' ∧
          q'.action.Asks (σ.want (turn (e, n)).1.toView)) := by
  let e₀ : Engine := { e with queue := rest }
  obtain ⟨happ, hans⟩ := step_spec (e := e₀) he.proper he.sorted n q
  rw [turn_of_queue hq]
  have happ' : e.toView.Applies (step (e₀, n) q).1.toView q := happ
  have hhead : ∀ {σ}, e.Decides σ →
      (e.tables.apply q).2 ≠ none ∧ e.fed? q.vrf q.key = some σ := by
    rintro σ ⟨q', rest', hq', hloud, hfed⟩
    rw [hq] at hq'
    cases hq'
    exact ⟨hloud, hfed⟩
  refine ⟨happ', ?_⟩
  cases hans with
  | unnoticed quiet queue =>
    exact .inl ⟨queue, fun σ hσ => absurd quiet (hhead hσ).1⟩
  | unfed _ fed queue =>
    refine .inl ⟨queue, fun σ hσ => ?_⟩
    have hf := (hhead hσ).2
    rw [show e.fed? q.vrf q.key = none from fed] at hf
    cases hf
  | idle σ _ fed idle queue =>
    refine .inl ⟨queue, fun τ hτ => ?_⟩
    have hf := (hhead hτ).2
    rw [show e.fed? q.vrf q.key = some σ from fed] at hf
    cases hf
    exact idle
  | asks σ q' loud fed busy of asked queue =>
    exact .inr ⟨σ, q', queue, ⟨q, rest, hq, loud, fed⟩, busy, happ'.params ▸ of, asked⟩

/-- A turn decides for VRFs that are served only. -/
theorem Decides.serves {e : Engine} {σ : Duty} (h : e.Decides σ) (he : e.Sound) :
    e.routers.Serves σ.vrf := by
  obtain ⟨_, _, _, _, hfed⟩ := h
  exact View.serves_of_fed? he.proper hfed

theorem Decides.unique {e : Engine} {σ τ : Duty} (h : e.Decides σ) (h' : e.Decides τ) : σ = τ := by
  obtain ⟨q, rest, hq, _, hfed⟩ := h
  obtain ⟨q', rest', hq', _, hfed'⟩ := h'
  rw [hq] at hq'
  cases hq'
  exact Option.some.inj (hfed.symm.trans hfed')

theorem applyAll_turn {e e' : Engine} {q : Request} {rest : List Request}
    (hq : e.queue = q :: rest) (ha : e.toView.Applies e'.toView q) (l : List Request) :
    e'.tables.applyAll (rest ++ l) = (e.tables.applyAll e.queue).applyAll l := by
  rw [hq, Tables.applyAll_append, Tables.applyAll_cons, ha.tables]

/-- A path that the turn does not ask for is awaited as before. -/
theorem awaited_turn {e : Engine} (he : e.Sound) {q : Request} {rest : List Request}
    (hq : e.queue = q :: rest) (n : Nat) {vrf : String} {k : RouteKey} {p : Peer}
    (h : ∀ σ, e.Decides σ → (vrf, k, p) ≠ (σ.vrf, σ.key, σ.peer e.params)) :
    (turn (e, n)).1.awaited vrf k p = e.awaited vrf k p := by
  obtain ⟨ha, ⟨hqueue, _⟩ | ⟨σ, q', hqueue, hσ, _, ⟨hv, hk, hp⟩, _⟩⟩ := turn_spec he hq n
  · simp only [awaited]
    have hall := applyAll_turn hq ha []
    rw [List.append_nil] at hall
    rw [hqueue, hall, Tables.applyAll_nil]
  · simp only [awaited]
    rw [hqueue, applyAll_turn hq ha [q']]
    refine Tables.path?_apply_of_ne _ q' ?_
    rw [hv, hk, hp]
    exact h σ hσ

/-- The duty that a turn decides is promised afterwards, unless it is overtaken. -/
theorem promised_turn_of_decides {e : Engine} (he : e.Sound) {q : Request} {rest : List Request}
    (hq : e.queue = q :: rest) (n : Nat) {σ : Duty} (hσ : e.Decides σ) :
    (turn (e, n)).1.Promised σ ↔ ¬ (turn (e, n)).1.Overtaken σ := by
  obtain ⟨ha, ⟨_, hidle⟩ | ⟨τ, q', hqueue, hτ, hbusy, hof, hask⟩⟩ := turn_spec he hq n
  · simp only [Overtaken]
    constructor
    · exact fun h ho => ho.2 h
    · intro h
      exact Classical.byContradiction fun hn => h ⟨hidle σ hσ, hn⟩
  · cases hσ.unique hτ
    constructor
    · exact fun _ ho => hbusy ho.1
    · intro _
      have ht' : (turn (e, n)).1.tables.Proper := ha.proper he.proper
      obtain ⟨hv, hk, hp⟩ := hof
      simp only [Promised, awaited]
      by_cases hb : e.tables.bare? σ.vrf = none
      · exact absurd (Duty.idle_of_missing ht' ((ha.bare? σ.vrf).trans hb)) hbusy
      · rw [hqueue, applyAll_turn hq ha [q'], ha.params, ← hv, ← hk, ← hp]
        have hb' : (e.tables.applyAll e.queue).bare? q'.vrf ≠ none := by
          rw [Tables.bare?_applyAll, hv]
          exact hb
        rw [show (e.tables.applyAll e.queue).applyAll [q'] =
          ((e.tables.applyAll e.queue).apply q').1 from rfl, Tables.path?_apply_self _ q' hb']
        refine Request.accords_outcome hask ?_ _
        rw [Tables.interfaces_applyAll, ← ha.interfaces]
        exact Duty.regular_of_want ht' σ

/-- What a duty reads stays in a turn that does not decide it, if a change of it feeds the duty. -/
theorem paths_turn_of_not_decides {e : Engine} (he : e.Sound) {q : Request} {rest : List Request}
    (hq : e.queue = q :: rest) (n : Nat) {σ : Duty} (hn : ¬ e.Decides σ)
    (hfed : σ.Reads e.routers q.vrf q.key → e.tables.bare? q.vrf ≠ none →
      e.fed? q.vrf q.key = some σ) {vrf : String} {k : RouteKey} (hr : σ.Reads e.routers vrf k) :
    (turn (e, n)).1.tables.paths vrf k = e.tables.paths vrf k := by
  obtain ⟨ha, _⟩ := turn_spec he hq n
  by_cases hloud : (e.tables.apply q).2 = none
  · rw [ha.tables, Tables.apply_of_unnoticed hloud]
  · refine ha.paths_of_ne fun heq => hn ?_
    obtain ⟨rfl, rfl⟩ := Prod.mk.inj heq
    have hb : e.tables.bare? q.vrf ≠ none := by
      intro hb
      rw [Tables.notification_apply, if_pos (.inl hb)] at hloud
      exact hloud rfl
    exact ⟨q, rest, hq, hloud, hfed hr hb⟩

/-- The path of a duty that a turn does not decide is awaited as before. -/
theorem awaited_turn_of_not_decides {e : Engine} (he : e.Sound) {q : Request} {rest : List Request}
    (hq : e.queue = q :: rest) (n : Nat) {σ : Duty} (hn : ¬ e.Decides σ) :
    (turn (e, n)).1.awaited σ.vrf σ.key (σ.peer e.params) =
      e.awaited σ.vrf σ.key (σ.peer e.params) := by
  refine awaited_turn he hq n fun τ hτ heq => ?_
  simp only [Prod.mk.injEq] at heq
  have hof : σ.Of e.params ⟨τ.vrf, τ.key, τ.peer e.params, .withdraw⟩ :=
    ⟨heq.1.symm, heq.2.1.symm, heq.2.2.symm⟩
  exact hn (hof.unique he.config.peers_ne ⟨rfl, rfl, rfl⟩ ▸ hτ)

/-- A decision changes in a turn that decides it only. -/
theorem want_turn_of_not_decides {e : Engine} (he : e.Steady) {q : Request} {rest : List Request}
    (hq : e.queue = q :: rest) (n : Nat) {σ : Duty} (hσ : e.Has σ) (hn : ¬ e.Decides σ) :
    σ.want (turn (e, n)).1.toView = σ.want e.toView := by
  obtain ⟨ha, _⟩ := turn_spec he.sound hq n
  have hh : e.SameHost (turn (e, n)).1.toView :=
    ha.sameHost he.sound.proper (he.harmless q (by rw [hq]; exact List.mem_cons_self))
  refine Duty.want_congr he.sound.proper (ha.proper he.sound.proper) ha.params hh σ
    (ha.bridgesOf _) (by rw [ha.bare?]) fun vrf k hr => ?_
  exact paths_turn_of_not_decides he.sound hq n hn
    (fun hr hb => he.wired.fed?_of_reads he.sound.proper hσ hr hb) hr

/-- A turn keeps the promise of a duty that it does not decide, if the decision stays. -/
theorem promised_turn_iff_of_want_eq {e : Engine} (he : e.Sound) {q : Request}
    {rest : List Request} (hq : e.queue = q :: rest) (n : Nat) {σ : Duty} (hn : ¬ e.Decides σ)
    (hw : σ.want (turn (e, n)).1.toView = σ.want e.toView) :
    (turn (e, n)).1.Promised σ ↔ e.Promised σ := by
  obtain ⟨ha, _⟩ := turn_spec he hq n
  simp only [Promised]
  rw [hw, ha.params, awaited_turn_of_not_decides he hq n hn]

/-- A turn keeps the promises of the duties that it does not decide. -/
theorem promised_turn_of_not_decides {e : Engine} (he : e.Steady) {q : Request}
    {rest : List Request} (hq : e.queue = q :: rest) (n : Nat) {σ : Duty} (hσ : e.Has σ)
    (hn : ¬ e.Decides σ) : (turn (e, n)).1.Promised σ ↔ e.Promised σ :=
  promised_turn_iff_of_want_eq he.sound hq n hn (want_turn_of_not_decides he hq n hσ hn)

/-- A turn keeps what holds between turns. -/
theorem Steady.turn {e : Engine} (he : e.Steady) (n : Nat) : (turn (e, n)).1.Steady := by
  cases hq : e.queue with
  | nil =>
    have ht : Engine.turn (e, n) = (e, n) := by
      simp only [Engine.turn]
      rw [hq]
    rw [ht]
    exact he
  | cons q rest =>
    obtain ⟨ha, hqueue⟩ := turn_spec he.sound hq n
    refine ⟨he.sound.of_applies ha, he.wired.of_akin ha.akin, fun r hr => ?_,
      fun vrf hv k p hp => ?_⟩
    · rw [ha.params]
      have hold : ∀ r ∈ rest, r.vrf ≠ e.params.fabricVrf ∨ r.peer.kind ≠ .bgp :=
        fun r hr => he.harmless r (by rw [hq]; exact List.mem_cons_of_mem _ hr)
      rcases hqueue with ⟨hqueue, _⟩ | ⟨σ, q', hqueue, _, _, ⟨_, _, hp⟩, _⟩
      · exact hold r (hqueue ▸ hr)
      · rw [hqueue] at hr
        rcases List.mem_append.mp hr with hr | hr
        · exact hold r hr
        · rw [List.mem_singleton] at hr
          subst hr
          exact .inr (he.sound.config.ne_bgp_of_owns (hp ▸ σ.owns_peer e.params))
    · rw [RouterMap.serves_congr ha.routers] at hv
      rw [ha.params] at hp
      rw [awaited_turn he.sound hq n]
      · exact he.cleared vrf hv k p hp
      · intro σ hσ heq
        exact hv ((Prod.mk.inj heq).1 ▸ hσ.serves he.sound)

/-- All turns leave parameters, roles and interfaces as they are. -/
theorem akin_turn {e : Engine} (he : e.Sound) (n : Nat) : e.toView.Akin (turn (e, n)).1.toView := by
  cases hq : e.queue with
  | nil =>
    rw [turn_of_nil hq]
    exact View.Akin.refl _
  | cons q rest => exact (turn_spec he hq n).1.akin

theorem turns_succ (n : Nat) (s : Engine × Nat) : turns (n + 1) s = turn (turns n s) := by
  rw [turns_add]
  rfl

/-- What every turn that finds a request keeps, holds after all turns. -/
theorem Sound.turns_induction {e : Engine} (he : e.Sound) {P : Engine → Prop} (h : P e)
    (hturn : ∀ e' q rest n, e'.Sound → e.toView.Akin e'.toView → e'.queue = q :: rest → P e' →
      P (turn (e', n)).1) (n : Nat) : (turns n (e, 0)).1.Sound ∧
        e.toView.Akin (turns n (e, 0)).1.toView ∧ P (turns n (e, 0)).1 := by
  induction n with
  | zero => exact ⟨he, View.Akin.refl _, h⟩
  | succ n ih =>
    obtain ⟨hs, hakin, hP⟩ := ih
    rw [turns_succ]
    cases hq : (turns n (e, 0)).1.queue with
    | nil =>
      rw [turn_of_nil hq]
      exact ⟨hs, hakin, hP⟩
    | cons q rest =>
      have ha := (turn_spec hs hq (turns n (e, 0)).2).1
      exact ⟨hs.of_applies ha, hakin.trans ha.akin, hturn _ q rest _ hs hakin hq hP⟩

theorem Sound.akin_turns {e : Engine} (he : e.Sound) (n : Nat) :
    (turns n (e, 0)).1.Sound ∧ e.toView.Akin (turns n (e, 0)).1.toView := by
  obtain ⟨hs, hakin, _⟩ := he.turns_induction (P := fun _ => True) trivial
    (fun _ _ _ _ _ _ _ _ => trivial) n
  exact ⟨hs, hakin⟩

/-- What requests keep in the tables, turns keep. -/
theorem tables_turns {P : Tables → Prop} (hP : ∀ db q, P db → P (db.apply q).1) {e : Engine}
    (he : e.Sound) (h : P e.tables) (n : Nat) :
    (turns n (e, 0)).1.Sound ∧ P (turns n (e, 0)).1.tables := by
  obtain ⟨hs, _, hP'⟩ := he.turns_induction (P := fun e' => P e'.tables) h
    (fun e' q rest i hs' _ hq h' => (turn_spec hs' hq i).1.tables ▸ hP _ q h') n
  exact ⟨hs, hP'⟩

theorem Steady.turns {e : Engine} (he : e.Steady) (i : Nat) :
    (turns i (e, 0)).1.Steady ∧ e.toView.Akin (turns i (e, 0)).1.toView := by
  induction i with
  | zero => exact ⟨he, View.Akin.refl _⟩
  | succ i ih =>
    rw [turns_succ]
    exact ⟨ih.1.turn _, ih.2.trans (akin_turn ih.1.sound _)⟩

/-- A state without requests is settled exactly if all its duties are promised. -/
theorem settled_iff_promised {e : Engine} (he : e.Steady) (hq : e.queue = []) :
    e.Settled ↔ ∀ σ, e.Has σ → e.Promised σ := by
  rw [settled_iff he.sound.sorted]
  have hclear : ∀ vrf, ¬ e.routers.Serves vrf → ∀ k p, e.params.Owns p →
      e.tables.path? vrf k p = none := by
    intro vrf hv k p hp
    have hc := he.cleared vrf hv k p hp
    simp only [awaited] at hc
    rw [hq] at hc
    exact hc
  constructor
  · exact fun h σ hσ => (promised_iff_idle hq σ).mpr (h.1 σ hσ)
  · exact fun h => ⟨fun σ hσ => (promised_iff_idle hq σ).mp (h σ hσ), hclear⟩

end Engine

end VxlanRouting
