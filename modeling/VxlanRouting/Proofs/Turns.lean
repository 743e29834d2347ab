import VxlanRouting.Engine.Process
import VxlanRouting.Proofs.Change

/-!
The loop, one request at a time. A turn takes the first request from the queue, applies it and
passes the change on to the duty that it feeds, which puts at most one request behind all others.
Processing by rounds takes the same turns in the same order, since what waits in the queue has no
part in a turn.
-/
namespace VxlanRouting

namespace View

/-- The duty that a change of a route feeds. -/
def fed? (v : View) (vrf : String) (k : RouteKey) : Option Duty :=
  (v.tables.bare? vrf).bind fun b =>
    if v.routers.IsRouting b then
      match k with
      | .inet p => some ⟨.toEvpn, b.name, p⟩
      | .evpn k => if k.IsType5 then some ⟨.toInet, b.name, k.dest⟩ else none
    else if v.routers.IsBridge b then
      match k with
      | .inet p => (v.routers.routingVrfOf? b).map fun vrf => ⟨.fromBridges, vrf, p⟩
      | .evpn _ => none
    else none

/-- The VRF is there and is a routing VRF. -/
def Routing (v : View) (vrf : String) : Prop :=
  ∃ b, v.tables.bare? vrf = some b ∧ v.routers.IsRouting b

/-- A change in a routing VRF feeds the duty that passes it to the other table, and one in a bridge
feeds the export to the routing VRF of the bridge. -/
theorem fed?_cases {v : View} (ht : v.tables.Proper) {vrf : String} {k : RouteKey} {σ : Duty}
    (h : v.fed? vrf k = some σ) :
    (v.Routing vrf ∧ ∃ p, k = .inet p ∧ σ = ⟨.toEvpn, vrf, p⟩) ∨
      (v.Routing vrf ∧ ∃ p, k = .evpn (.type5 p) ∧ σ = ⟨.toInet, vrf, p⟩) ∨
      (¬ v.Routing vrf ∧ ∃ p b r, k = .inet p ∧ v.tables.bare? vrf = some b ∧
        v.routers.routingVrfOf? b = some r ∧ σ = ⟨.fromBridges, r, p⟩) := by
  obtain ⟨b, hb, h⟩ := Option.bind_eq_some_iff.mp h
  have hname : b.name = vrf := ht.name_bare? hb
  split at h
  · next hr =>
    cases k with
    | inet p =>
      cases h
      exact .inl ⟨⟨b, hb, hr⟩, p, rfl, by rw [hname]⟩
    | evpn k =>
      dsimp only at h
      split at h
      · next h5 =>
        cases h
        refine .inr (.inl ⟨⟨b, hb, hr⟩, k.dest, ?_, by rw [hname]⟩)
        rw [← EvpnKey.isType5_iff.mp h5]
      · cases h
  · next hr =>
    split at h
    · cases k with
      | inet p =>
        obtain ⟨r, hof, rfl⟩ := Option.map_eq_some_iff.mp h
        refine .inr (.inr ⟨?_, p, b, r, rfl, hb, hof, rfl⟩)
        rintro ⟨b', hb', hr'⟩
        rw [hb] at hb'
        cases hb'
        exact hr hr'
      | evpn k => cases h
    · cases h

theorem fed?_congr {v w : View} (hr : w.routers.bare = v.routers.bare) {vrf : String}
    (hb : w.tables.bare? vrf = v.tables.bare? vrf) (k : RouteKey) :
    w.fed? vrf k = v.fed? vrf k := by
  have hrouting : ∀ b, w.routers.IsRouting b ↔ v.routers.IsRouting b := by
    intro b
    rw [← RouterMap.isRouting_bare, hr, RouterMap.isRouting_bare]
  have hbridge : ∀ b, w.routers.IsBridge b ↔ v.routers.IsBridge b := by
    intro b
    rw [← RouterMap.isBridge_bare, hr, RouterMap.isBridge_bare]
  have hof : ∀ b, w.routers.routingVrfOf? b = v.routers.routingVrfOf? b := by
    intro b
    rw [← RouterMap.routingVrfOf?_bare, hr, RouterMap.routingVrfOf?_bare]
  simp only [fed?]
  simp only [hb, hrouting, hbridge, hof]

theorem Applies.fed? {v w : View} {q : Request} (h : v.Applies w q) (vrf : String)
    (k : RouteKey) : w.fed? vrf k = v.fed? vrf k :=
  fed?_congr h.routers (h.bare? vrf) k

theorem Applies.routing_iff {v w : View} {q : Request} (h : v.Applies w q) (vrf : String) :
    w.Routing vrf ↔ v.Routing vrf := by
  simp only [Routing]
  rw [h.bare? vrf]
  simp only [← RouterMap.isRouting_bare w.routers, h.routers, RouterMap.isRouting_bare]

end View

namespace Engine

/-- Requests that wait in front of all that is in the queue. -/
def behind (l : List Request) (e : Engine) : Engine := { e with queue := l ++ e.queue }

theorem nextSequence_behind (l : List Request) (e : Engine) (vrf : String) :
    (e.behind l).nextSequence vrf = ((e.nextSequence vrf).1.behind l, (e.nextSequence vrf).2) := by
  simp only [nextSequence]
  cases hs : e.routers.servedBy? vrf with
  | none =>
    rw [show (e.behind l).routers.servedBy? vrf = none from hs]
  | some id =>
    rw [show (e.behind l).routers.servedBy? vrf = some id from hs]
    rfl

theorem push_behind (l : List Request) (e : Engine) (q : Request) :
    (e.behind l).push q = (e.push q).behind l := by
  simp only [push, behind]
  rw [List.append_assoc]

theorem sequenceFor_behind (l : List Request) (e : Engine) (vrf : String) (c : NextHopKey)
    (found : Option Path) : (e.behind l).sequenceFor vrf c found =
      ((e.sequenceFor vrf c found).1.behind l, (e.sequenceFor vrf c found).2) := by
  simp only [sequenceFor]
  split
  · exact nextSequence_behind l e vrf
  · split
    · rfl
    · exact nextSequence_behind l e vrf

theorem install_behind (l : List Request) (e : Engine) (vrf : String) (k : RouteKey) (peer : Peer)
    (found : Option Path) (a : Advertisement) :
    (e.behind l).install vrf k peer found a = (e.install vrf k peer found a).behind l := by
  cases a with
  | single hop attrs => exact push_behind l e _
  | tunnel t attrs => exact push_behind l e _
  | ecmp c attrs =>
    unfold install
    dsimp only
    rw [sequenceFor_behind]
    exact push_behind l _ _

/-- What waits in the queue has no part in what a duty asks for. -/
theorem fulfil_behind (l : List Request) (e : Engine) (σ : Duty) :
    (e.behind l).fulfil σ = (e.fulfil σ).behind l := by
  show (e.behind l).sync σ.vrf σ.key (σ.peer e.params) (σ.want e.toView) =
    (e.sync σ.vrf σ.key (σ.peer e.params) (σ.want e.toView)).behind l
  simp only [sync]
  rw [show (e.behind l).tables = e.tables from rfl]
  split
  · rfl
  · exact push_behind l e _
  · exact install_behind l e _ _ _ _ _
  · split
    · rfl
    · exact install_behind l e _ _ _ _ _

theorem notify_eq (e : Engine) (ht : e.tables.Proper) (n : Notification) :
    e.notify n = match e.fed? n.vrf n.key with
      | none => e
      | some σ => e.fulfil σ := by
  simp only [notify, View.fed?, Tables.bare?]
  cases hv : e.tables.vrfs.get? n.vrf with
  | none => rfl
  | some v =>
    have hname : v.name = n.vrf := ht.named _ v hv
    have hr : e.routers.IsRouting v.bare ↔ e.routers.IsRouting v := Iff.rfl
    have hb : e.routers.IsBridge v.bare ↔ e.routers.IsBridge v := Iff.rfl
    simp only [Option.map_some, Option.bind_some, hr, hb]
    split
    · cases n.key with
      | inet p => rfl
      | evpn k =>
        dsimp only
        split
        · rfl
        · rfl
    · split
      · cases n.key with
        | inet p =>
          show e.exportFrom v.name p = _
          have hget : (e.tables.vrfs.get? v.name).bind e.routers.routingVrfOf? =
              e.routers.routingVrfOf? v := by
            rw [hname, hv]
            rfl
          simp only [exportFrom]
          rw [hget]
          cases hof : e.routers.routingVrfOf? v with
          | none =>
            rw [show e.routers.routingVrfOf? v.bare = none from hof]
            rfl
          | some vrf =>
            rw [show e.routers.routingVrfOf? v.bare = some vrf from hof]
            rfl
        | evpn k => rfl
      · rfl

theorem notify_behind (l : List Request) (e : Engine) (ht : e.tables.Proper) (n : Notification) :
    (e.behind l).notify n = (e.notify n).behind l := by
  have hfed : (e.behind l).fed? n.vrf n.key = e.fed? n.vrf n.key := rfl
  rw [notify_eq (e.behind l) ht, notify_eq e ht, hfed]
  cases e.fed? n.vrf n.key with
  | none => rfl
  | some σ => exact fulfil_behind l e σ

/-- What a turn does to the queue: the duty that the change feeds asks for its path, if it is not as
decided. -/
inductive Answers (e e' : Engine) (q : Request) : Prop
  | unnoticed (quiet : (e.tables.apply q).2 = none) (queue : e'.queue = e.queue)
  | unfed (loud : (e.tables.apply q).2 ≠ none) (fed : e.fed? q.vrf q.key = none)
      (queue : e'.queue = e.queue)
  | idle (σ : Duty) (loud : (e.tables.apply q).2 ≠ none) (fed : e.fed? q.vrf q.key = some σ)
      (idle : σ.Idle e'.toView) (queue : e'.queue = e.queue)
  | asks (σ : Duty) (q' : Request) (loud : (e.tables.apply q).2 ≠ none)
      (fed : e.fed? q.vrf q.key = some σ) (busy : ¬ σ.Idle e'.toView)
      (of : σ.Of e'.params q') (asked : q'.action.Asks (σ.want e'.toView))
      (queue : e'.queue = e.queue ++ [q'])

theorem Puts.applies {e e' e'' : Engine} {q q' : Request} (h : e'.Puts e'' q')
    (ha : e.toView.Applies e'.toView q) : e.toView.Applies e''.toView q :=
  ⟨h.params.trans ha.params, h.tables.trans ha.tables, h.routers.trans ha.routers⟩

/-- What a step does. -/
theorem step_spec {e : Engine} (ht : e.tables.Proper) (hs : e.routers.routers.Sorted) (n : Nat)
    (q : Request) :
    e.toView.Applies (step (e, n) q).1.toView q ∧ e.Answers (step (e, n) q).1 q := by
  cases ha : e.tables.apply q with
  | mk tables note =>
    have htables : tables = (e.tables.apply q).1 := by rw [ha]
    have hnote : note = (e.tables.apply q).2 := by rw [ha]
    cases note with
    | none =>
      have hstep : step (e, n) q = (e, n) := by
        simp only [step]
        rw [ha]
      rw [hstep]
      refine ⟨⟨rfl, ?_, rfl⟩, .unnoticed hnote.symm rfl⟩
      exact (Tables.apply_of_unnoticed hnote.symm).symm
    | some note =>
      have hloud : (e.tables.apply q).2 ≠ none := by rw [← hnote]; simp
      have hat : note = ⟨q.vrf, q.key⟩ := by
        rw [Tables.notification_apply] at hnote
        split at hnote
        · cases hnote
        · exact Option.some.inj hnote
      let e₁ : Engine := { e with tables }
      have happ : e.toView.Applies e₁.toView q := ⟨rfl, htables, rfl⟩
      have ht₁ : e₁.tables.Proper := happ.proper ht
      have hstep : step (e, n) q = (e₁.notify note, n + 1) := by
        simp only [step]
        rw [ha]
      have hfed : e₁.fed? note.vrf note.key = e.fed? q.vrf q.key := by
        rw [hat]
        exact happ.fed? q.vrf q.key
      rw [hstep, notify_eq e₁ ht₁, hfed]
      cases hf : e.fed? q.vrf q.key with
      | none => exact ⟨happ, .unfed hloud hf rfl⟩
      | some σ =>
        dsimp only
        by_cases hi : σ.Idle e₁.toView
        · rw [fulfil_of_idle hi]
          exact ⟨happ, .idle σ hloud hf hi rfl⟩
        · obtain ⟨q', hp, hof, hasks⟩ := fulfil_of_not_idle (e := e₁) hs hi
          refine ⟨hp.applies happ, .asks σ q' hloud hf ?_ ?_ ?_ hp.queue⟩
          · rw [hp.toLevel.idle_iff ht₁]
            exact hi
          · rw [hp.params]
            exact hof
          · rw [hp.toLevel.want_eq ht₁]
            exact hasks

theorem step_behind (l : List Request) (e : Engine) (ht : e.tables.Proper) (n : Nat)
    (q : Request) :
    step (e.behind l, n) q = ((step (e, n) q).1.behind l, (step (e, n) q).2) := by
  have hp : ∀ t, ({ e.behind l with tables := t } : Engine) =
      ({ e with tables := t } : Engine).behind l := fun t => rfl
  cases ha : e.tables.apply q with
  | mk tables note =>
    have htables : tables = (e.tables.apply q).1 := by rw [ha]
    have ht' : tables.Proper := htables ▸ ht.apply q
    cases note with
    | none =>
      simp only [step]
      rw [show (e.behind l).tables = e.tables from rfl, ha]
    | some note =>
      simp only [step]
      rw [show (e.behind l).tables = e.tables from rfl, ha]
      dsimp only
      rw [hp, notify_behind l _ ht']

/-- Takes the first request from the queue and applies it. -/
def turn (s : Engine × Nat) : Engine × Nat :=
  match s.1.queue with
  | [] => s
  | q :: rest => step ({ s.1 with queue := rest }, s.2) q

theorem turn_of_nil {s : Engine × Nat} (h : s.1.queue = []) : turn s = s := by
  simp only [turn]
  rw [h]

/-- So many turns. -/
def turns : Nat → Engine × Nat → Engine × Nat
  | 0, s => s
  | n + 1, s => turns n (turn s)

theorem turns_add (a b : Nat) (s : Engine × Nat) : turns (a + b) s = turns b (turns a s) := by
  induction a generalizing s with
  | zero => rw [Nat.zero_add, turns]
  | succ a ih => rw [Nat.succ_add, turns, turns, ih]

/-- The parameters come from a configuration, requests have filled the tables, and the routers stand
in order of their identifiers. -/
structure Sound (e : Engine) : Prop where
  config : e.params.FromConfig
  proper : e.tables.Proper
  sorted : e.routers.routers.Sorted

theorem Sound.of_level {v : View} (hc : v.params.FromConfig) (ht : v.tables.Proper)
    (hs : v.routers.routers.Sorted) {e : Engine} (h : v.Level e.toView) : e.Sound :=
  ⟨h.params ▸ hc, h.tables ▸ ht, RouterMap.sorted_of_bare_eq h.routers hs⟩

theorem Sound.of_applies {e e' : Engine} (h : e.Sound) {q : Request}
    (ha : e.toView.Applies e'.toView q) : e'.Sound :=
  ⟨ha.params ▸ h.config, ha.proper h.proper, RouterMap.sorted_of_bare_eq ha.routers h.sorted⟩

theorem Sound.step {e : Engine} (h : e.Sound) (n : Nat) (q : Request) : (step (e, n) q).1.Sound :=
  h.of_applies (step_spec h.proper h.sorted n q).1

/-- Applying a list of requests takes as many turns, and no turn finds the queue empty. -/
theorem turns_behind (l : List Request) {e : Engine} (h : e.Sound) (n : Nat) :
    turns l.length (e.behind l, n) = l.foldl step (e, n) ∧
      ∀ i < l.length, (turns i (e.behind l, n)).1.queue ≠ [] := by
  induction l generalizing e n with
  | nil =>
    refine ⟨rfl, fun i hi => ?_⟩
    cases hi
  | cons q l ih =>
    obtain ⟨he, hq⟩ := ih (h.step n q) (Engine.step (e, n) q).2
    have hturn : turn (e.behind (q :: l), n) =
        ((Engine.step (e, n) q).1.behind l, (Engine.step (e, n) q).2) :=
      step_behind l e h.proper n q
    constructor
    · rw [List.length_cons, turns, hturn]
      exact he
    · intro i hi
      cases i with
      | zero =>
        show q :: (l ++ e.queue) ≠ []
        simp
      | succ i =>
        rw [turns, hturn]
        exact hq i (Nat.lt_of_succ_lt_succ hi)

/-- A round is as many turns as there are requests in the queue at its start. -/
theorem round_eq_turns {s : Engine × Nat} (hs : s.1.Sound) :
    turns s.1.queue.length s = round s ∧ ∀ i < s.1.queue.length, (turns i s).1.queue ≠ [] := by
  have hb : s = (({ s.1 with queue := [] } : Engine).behind s.1.queue, s.2) := by
    simp only [behind]
    rw [List.append_nil]
  have h := turns_behind s.1.queue (e := { s.1 with queue := [] })
    ⟨hs.config, hs.proper, hs.sorted⟩ s.2
  rw [← hb] at h
  exact h

end Engine

end VxlanRouting
