import VxlanRouting.Engine.Events
import VxlanRouting.Proofs.Drain
import VxlanRouting.Proofs.Visits

/-!
Queues filled from one view. Reconciling, walking and telling of changes only put requests into the
queue, each for what is decided on in the view. A walk of a router covers all its duties: a prefix
that it does not know has neither something to pass on nor something that has been.
-/
namespace VxlanRouting

/-- The request asks for what is decided for a served VRF and not there yet. -/
def View.Decided (v : View) (q : Request) : Prop :=
  ∃ σ : Duty, v.routers.Serves σ.vrf ∧ σ.Of v.params q ∧ q.action.Asks (σ.want v) ∧ ¬ σ.Idle v

namespace Engine

/-- The engine has asked for some decisions of the view. -/
structure Grows (v : View) (e e' : Engine) : Prop extends View.Level e.toView e'.toView where
  queue : ∃ l, e'.queue = e.queue ++ l ∧ ∀ q ∈ l, v.Decided q

theorem Grows.refl (v : View) (e : Engine) : Grows v e e where
  toLevel := .refl _
  queue := ⟨[], by simp, fun _ hq => absurd hq List.not_mem_nil⟩

theorem Grows.trans {v : View} {e e' e'' : Engine} (h : Grows v e e') (h' : Grows v e' e'') :
    Grows v e e'' := by
  obtain ⟨l, hl, hd⟩ := h.queue
  obtain ⟨l', hl', hd'⟩ := h'.queue
  refine ⟨h.toLevel.trans h'.toLevel, l ++ l', by rw [hl', hl, List.append_assoc], fun q hq => ?_⟩
  exact (List.mem_append.mp hq).elim (hd q) (hd' q)

theorem Grows.mem_queue {v : View} {e e' : Engine} (h : Grows v e e') {q : Request} :
    (q ∈ e.queue → q ∈ e'.queue) ∧ (q ∈ e'.queue → q ∈ e.queue ∨ v.Decided q) := by
  obtain ⟨l, hl, hd⟩ := h.queue
  rw [hl]
  exact ⟨List.mem_append_left l, fun hq => (List.mem_append.mp hq).imp id (hd q)⟩

/-- The duty is idle, or its path is asked for. -/
def Covers (e : Engine) (σ : Duty) : Prop := σ.Idle e.toView ∨ ∃ q ∈ e.queue, σ.Of e.params q

theorem Covers.mono {v : View} {e e' : Engine} {σ : Duty} (h : e.Covers σ) (ht : e.tables.Proper)
    (hg : Grows v e e') : e'.Covers σ := by
  rcases h with hi | ⟨q, hq, hof⟩
  · exact .inl ((hg.toLevel.idle_iff ht σ).mpr hi)
  · exact .inr ⟨q, hg.mem_queue.1 hq, hg.params ▸ hof⟩

section

variable {v : View} (hs : v.routers.routers.Sorted) (ht : v.tables.Proper)

include hs ht

theorem fulfil_grows {e : Engine} (hl : v.Level e.toView) {σ : Duty}
    (hσ : v.routers.Serves σ.vrf) : Grows v e (e.fulfil σ) ∧ (e.fulfil σ).Covers σ := by
  by_cases hi : σ.Idle e.toView
  · rw [fulfil_of_idle hi]
    exact ⟨.refl v e, .inl hi⟩
  · obtain ⟨q, hp, hof, hask⟩ := fulfil_of_not_idle (RouterMap.sorted_of_bare_eq hl.routers hs) hi
    refine ⟨⟨hp.toLevel, [q], hp.queue, fun r hr => ?_⟩, .inr ⟨q, ?_, hp.params ▸ hof⟩⟩
    · rw [List.mem_singleton] at hr
      subst hr
      exact ⟨σ, hσ, hl.params ▸ hof, hl.want_eq ht σ ▸ hask, mt (hl.idle_iff ht σ).mpr hi⟩
    · rw [hp.queue]
      exact List.mem_append_right _ List.mem_cons_self

omit hs ht in
/-- A pass over a list grows the queue if its steps do, and what one step has added stays. -/
theorem foldl_grows {α : Type} {f : Engine → α → Engine} {l : List α} {e : Engine}
    (hl : v.Level e.toView) (hf : ∀ e', v.Level e'.toView → ∀ a ∈ l, Grows v e' (f e' a)) :
    Grows v e (l.foldl f e) ∧
      ∀ a ∈ l, ∃ e', v.Level e'.toView ∧ Grows v (f e' a) (l.foldl f e) := by
  induction l generalizing e with
  | nil => exact ⟨.refl v e, List.forall_mem_nil _⟩
  | cons a l ih =>
    have ha : Grows v e (f e a) := hf e hl a List.mem_cons_self
    obtain ⟨hg, hall⟩ := ih (hl.trans ha.toLevel) fun e' h' b hb =>
      hf e' h' b (List.mem_cons_of_mem a hb)
    refine ⟨ha.trans hg, fun b hb => ?_⟩
    rcases List.mem_cons.mp hb with rfl | hb
    · exact ⟨e, hl, hg⟩
    · exact hall b hb

theorem reconcile_grows {e : Engine} (hl : v.Level e.toView) {vrf : String}
    (hv : v.routers.Serves vrf) (p : Prefix) : Grows v e (e.reconcile vrf p) ∧
      ∀ d, (e.reconcile vrf p).Covers ⟨d, vrf, p⟩ := by
  have h₁ := fulfil_grows hs ht hl (σ := ⟨.fromBridges, vrf, p⟩) hv
  have l₁ := hl.trans h₁.1.toLevel
  have h₂ := fulfil_grows hs ht l₁ (σ := ⟨.toInet, vrf, p⟩) hv
  have l₂ := l₁.trans h₂.1.toLevel
  have h₃ := fulfil_grows hs ht l₂ (σ := ⟨.toEvpn, vrf, p⟩) hv
  refine ⟨(h₁.1.trans h₂.1).trans h₃.1, fun d => ?_⟩
  cases d with
  | fromBridges => exact h₁.2.mono (hl.trans h₁.1.toLevel |>.tables ▸ ht) (h₂.1.trans h₃.1)
  | toInet => exact h₂.2.mono (l₂.tables ▸ ht) h₃.1
  | toEvpn => exact h₃.2

end

/-- The duties of a router for a prefix that it does not know are idle. -/
theorem idle_of_unknown {e : Engine} (ht : e.tables.Proper) (hm : e.routers.Coherent)
    (ha : e.routers.Apart) {id : LogicalRouterId} {r : LogicalRouter}
    (hr : e.routers.router? id = some r) {σ : Duty} (hv : r.routingVrf = some σ.vrf)
    (hp : σ.dest.Canonical) (hn : σ.dest ∉ e.knownPrefixes r σ.vrf) : σ.Idle e.toView := by
  rw [mem_knownPrefixes_iff ht.aligned] at hn
  exact idle_of_not_visits ht.aligned (hm.bridgesOf_eq ha hr hv) hn (by rwa [hp.eq])

theorem walk_of_unrouted {e : Engine} {id : LogicalRouterId}
    (h : (e.routers.router? id).bind (·.routingVrf) = none) : e.walk id = e := by
  simp only [walk]
  cases hr : e.routers.router? id with
  | none => rfl
  | some r =>
    rw [hr, Option.bind_some] at h
    dsimp only
    rw [h]

section

variable {v : View} (hm : v.routers.Coherent) (ht : v.tables.Proper)

include hm ht

/-- A walk covers all duties of its router. -/
theorem walk_grows {e : Engine} (hl : v.Level e.toView) (id : LogicalRouterId) :
    Grows v e (e.walk id) ∧ (v.routers.Apart → ∀ σ : Duty,
      (v.routers.router? id).bind (·.routingVrf) = some σ.vrf → σ.dest.Canonical →
      (e.walk id).Covers σ) := by
  have hproper : e.tables.Proper := hl.tables ▸ ht
  rw [← RouterMap.routing_congr hl.routers id]
  cases hvrf : (e.routers.router? id).bind (·.routingVrf) with
  | none =>
    rw [walk_of_unrouted hvrf]
    exact ⟨.refl v e, fun _ σ hσ => by cases hσ⟩
  | some vrf =>
    have hserves : v.routers.Serves vrf :=
      (RouterMap.serves_congr hl.routers vrf).mp (RouterMap.serves_of_router? id hvrf)
    obtain ⟨r, hr, hv⟩ := Option.bind_eq_some_iff.mp hvrf
    have hrec : ∀ e', v.Level e'.toView → ∀ p, Grows v e' (e'.reconcile vrf p) ∧
        ∀ d, (e'.reconcile vrf p).Covers ⟨d, vrf, p⟩ :=
      fun e' h' p => reconcile_grows hm.sorted ht h' hserves p
    obtain ⟨hg, hall⟩ := foldl_grows (l := e.knownPrefixes r vrf) hl fun e' h' p _ =>
      (hrec e' h' p).1
    rw [walk_of_routing hr hv]
    refine ⟨hg, fun ha σ hσ hdest => ?_⟩
    obtain ⟨d, R, p⟩ := σ
    have hR : vrf = R := Option.some.inj hσ
    subst hR
    by_cases hp : p ∈ e.knownPrefixes r vrf
    · obtain ⟨e', h', hg'⟩ := hall p hp
      obtain ⟨hstep, hcov⟩ := hrec e' h' p
      exact (hcov d).mono ((h'.trans hstep.toLevel).tables ▸ ht) hg'
    · have hapart : e.routers.Apart := by
        rw [← RouterMap.apart_bare, hl.routers, RouterMap.apart_bare]
        exact ha
      have hidle : Duty.Idle e.toView ⟨d, vrf, p⟩ :=
        idle_of_unknown hproper (hm.of_bare_eq hl.routers) hapart hr hv hdest hp
      exact Covers.mono (.inl hidle) hproper hg

theorem walkAll_grows {e : Engine} (hl : v.Level e.toView) (ids : List LogicalRouterId) :
    Grows v e (e.walkAll ids) ∧ (v.routers.Apart → ∀ id ∈ ids, ∀ σ : Duty,
      (v.routers.router? id).bind (·.routingVrf) = some σ.vrf → σ.dest.Canonical →
      (e.walkAll ids).Covers σ) := by
  obtain ⟨hg, hall⟩ := foldl_grows (f := walk) (l := ids) hl fun e' h' id _ =>
    (walk_grows hm ht h' id).1
  refine ⟨hg, fun ha id hid σ hσ hp => ?_⟩
  obtain ⟨e', h', hg'⟩ := hall id hid
  obtain ⟨hw, hcov⟩ := walk_grows hm ht h' id
  exact (hcov ha σ hσ hp).mono ((h'.trans hw.toLevel).tables ▸ ht) hg'

/-- A walk of all routers covers all duties. -/
theorem covers_walkAll_ids {e : Engine} (hl : v.Level e.toView) (ha : v.routers.Apart) {σ : Duty}
    (hσ : v.Has σ) : (e.walkAll e.routers.ids).Covers σ := by
  obtain ⟨⟨id, r, hr, hv⟩, hp⟩ := hσ
  obtain ⟨r', hr', _⟩ := RouterMap.router?_of_bare_eq hl.routers hr
  have hid : id ∈ e.routers.ids := List.mem_map.mpr ⟨(id, r'), Entries.mem_of_get? hr', rfl⟩
  exact (walkAll_grows hm ht hl e.routers.ids).2 ha id hid σ (by rw [hr]; exact hv) hp

theorem notify_grows {e : Engine} (hl : v.Level e.toView) (n : Notification) :
    Grows v e (e.notify n) := by
  have hproper : e.tables.Proper := hl.tables ▸ ht
  rw [notify_eq e hproper]
  cases hf : e.fed? n.vrf n.key with
  | none => exact .refl v e
  | some σ =>
    have hserves := View.serves_of_fed? hproper hf
    exact (fulfil_grows hm.sorted ht hl ((RouterMap.serves_congr hl.routers _).mp hserves)).1

end

/-- A withdrawal of what the engine has in a VRF that is not served. -/
structure Cleans (v : View) (q : Request) : Prop where
  withdraw : q.action = .withdraw
  unserved : ¬ v.routers.Serves q.vrf
  own : v.params.Owns q.peer
  aside : v.Aside q.vrf

/-- From one guarded view the engine has asked for what is decided, and withdrawn what it has in
VRFs that are not served; nothing else waits. -/
structure Snapshot (v : View) (e : Engine) : Prop where
  level : v.Level e.toView
  sound : e.Sound
  wired : e.Wired
  queue : ∀ q ∈ e.queue, Cleans v q ∨ v.Decided q
  covers : ∀ σ, v.Has σ → e.Covers σ
  cleans : ∀ vrf, ¬ v.routers.Serves vrf → ∀ k p, v.params.Owns p →
    v.tables.path? vrf k p = none ∨ ∃ q ∈ e.queue, (vrf, k, p) = (q.vrf, q.key, q.peer)
  guarded : v.Guarded

section

variable {v : View} {e : Engine} (h : Snapshot v e)

include h

theorem Snapshot.proper : v.tables.Proper := h.level.tables ▸ h.sound.proper

/-- Once the queue has been applied, the VRFs that are not served are clear. -/
theorem Snapshot.cleared : e.Cleared := by
  intro vrf hv k p hp
  rw [h.level.params] at hp
  rw [RouterMap.serves_congr h.level.routers] at hv
  by_cases hb : e.tables.bare? vrf = none
  · exact awaited_of_missing hb k p
  · have hask : ∀ q ∈ e.queue, (vrf, k, p) = (q.vrf, q.key, q.peer) → q.action.Asks none := by
      intro q hq hk
      simp only [Prod.mk.injEq] at hk
      rcases h.queue q hq with hc | ⟨τ, hτ, hof, _⟩
      · rw [hc.withdraw]
        trivial
      · exact absurd (by rw [hk.1, hof.1]; exact hτ) hv
    have hacc : Accords (e.awaited vrf k p) none := by
      refine Tables.accords_applyAll (fun a ha => by cases ha) hb hask ?_
      rw [h.level.tables]
      exact (h.cleans vrf hv k p hp).imp_left fun hn => by rw [hn]; trivial
    cases ha : e.awaited vrf k p with
    | none => rfl
    | some x =>
      rw [ha] at hacc
      exact hacc.elim

/-- What is asked for a duty is what is decided. -/
theorem Snapshot.asked {q : Request} (hq : q ∈ e.queue) {σ : Duty} (hσ : e.Has σ)
    (hof : σ.Of e.params q) : q.action.Asks (σ.want e.toView) := by
  rcases h.queue q hq with hc | ⟨τ, _, hτ, hask, _⟩
  · have hserves : v.routers.Serves σ.vrf := (RouterMap.serves_congr h.level.routers _).mp hσ.1
    exact absurd (hof.1 ▸ hserves) hc.unserved
  · have hne := h.sound.config.peers_ne
    rw [h.level.params] at hof hne
    cases hτ.unique hne hof
    rw [h.level.want_eq h.proper]
    exact hask

/-- An engine that has asked for what is decided is poised. -/
theorem Snapshot.poised : e.Poised where
  sound := h.sound
  wired := h.wired
  own q hq := by
    rw [h.level.params]
    rcases h.queue q hq with hc | ⟨σ, _, hof, _⟩
    · exact hc.own
    · rw [hof.2.2]
      exact σ.owns_peer v.params
  aside q hq := by
    rcases h.queue q hq with hc | ⟨σ, hσ, hof, _⟩
    · exact hc.aside.of_bare_eq h.level.routers
    · rw [hof.1]
      exact h.wired.aside_of_serves ((RouterMap.serves_congr h.level.routers _).mpr hσ)
  asked _ hq _ hσ hof := h.asked hq hσ hof
  covered σ hσ := h.covers σ ⟨(RouterMap.serves_congr h.level.routers _).mp hσ.1, hσ.2⟩
  cleared := h.cleared
  guarded := h.guarded.of_level h.level h.proper

end

end Engine

end VxlanRouting
