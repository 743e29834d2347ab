import VxlanRouting.Proofs.Promise

/-!
Processing comes to an end. The two directions inside a routing VRF feed each other, but what leaks
into the EVPN table is decided by control nodes alone, and so does not change while the engine is
among itself. The rank of a request says how much is known of it: nothing, at first; then that it is
one of the engine's own; then that it asks for what is decided on for the EVPN table, or for a leak
to the Inet table; then that such a leak comes after the EVPN table is as decided, when it leads
nowhere. Each round leaves requests of the next lower rank only.
-/
namespace VxlanRouting

namespace Duty

/-- The duty that a leak to the Inet table feeds. -/
def back (σ : Duty) : Duty := ⟨.toEvpn, σ.vrf, σ.dest⟩

/-- The duty that a leak to the EVPN table feeds. -/
def forth (σ : Duty) : Duty := ⟨.toInet, σ.vrf, σ.dest⟩

theorem back_forth {σ : Duty} (hd : σ.direction = .toEvpn) : σ.forth.back = σ := by
  rw [forth, back, ← hd]

end Duty

namespace View

/-- What is known of a request of some rank. -/
def Calm (v : View) (q : Request) : Nat → Prop
  | 0 => False
  | 1 => ∃ σ : Duty, σ.Of v.params q ∧ v.Routing σ.vrf ∧ σ.direction = .toInet ∧ σ.back.Idle v
  | 2 => ∃ σ : Duty, σ.Of v.params q ∧ v.Routing σ.vrf ∧
      (σ.direction = .toInet ∧ σ.back.Idle v ∨ σ.direction = .toEvpn ∧ q.action.Asks (σ.want v))
  | 3 => ∃ σ : Duty, σ.Of v.params q ∧ v.Routing σ.vrf ∧
      (σ.direction = .toInet ∨ σ.direction = .toEvpn ∧ q.action.Asks (σ.want v))
  | 4 => ∃ σ : Duty, σ.Of v.params q ∧ (σ.direction = .fromBridges ∨ v.Routing σ.vrf)
  | _ => True

variable {v w : View} {q r : Request}

theorem Calm.succ {n : Nat} (h : v.Calm q n) : v.Calm q (n + 1) := by
  match n, h with
  | 1, ⟨σ, hof, hr, hd, hi⟩ => exact ⟨σ, hof, hr, .inl ⟨hd, hi⟩⟩
  | 2, ⟨σ, hof, hr, hd⟩ => exact ⟨σ, hof, hr, hd.imp_left (·.1)⟩
  | 3, ⟨σ, hof, hr, _⟩ => exact ⟨σ, hof, .inr hr⟩
  | 4, _ => trivial
  | _ + 5, _ => trivial

theorem Calm.mono {n m : Nat} (h : v.Calm q n) (hnm : n ≤ m) : v.Calm q m := by
  induction hnm with
  | refl => exact h
  | step _ ih => exact ih.succ

/-- A request of rank four is one of the engine's own. -/
theorem Calm.kind_ne (h : v.Calm q 4) (hc : v.params.FromConfig) : q.peer.kind ≠ .bgp := by
  obtain ⟨σ, ⟨_, _, hp⟩, _⟩ := h
  exact hc.ne_bgp_of_owns (hp ▸ σ.owns_peer v.params)

/-- While leaks to the EVPN table ask for what is decided on, one that is as decided stays so. -/
theorem Applies.idle_toEvpn (h : v.Applies w q) (hc : v.params.FromConfig)
    (hv : v.tables.Proper) (hq : v.Calm q 3) {τ : Duty} (hd : τ.direction = .toEvpn)
    (hi : τ.Idle v) : τ.Idle w := by
  by_cases hof : τ.Of v.params q
  · obtain ⟨σ, hσ, _, hask⟩ := hq
    have he : σ = τ := hσ.unique hc.peers_ne hof
    subst he
    rcases hask with hask | ⟨_, hask⟩
    · rw [hd] at hask
      cases hask
    · exact (h.idle hc hv hof hask).1
  · have hwant : τ.want w = τ.want v := by
      have ht := h.want_toEvpn hv (hq.succ.kind_ne hc) τ.vrf τ.dest
      rw [← hd] at ht
      exact ht
    have hfound : τ.found w = τ.found v := by
      simp only [Duty.found]
      rw [h.params, h.tables, Tables.path?_apply_of_ne _ _ fun he => hof ?_]
      simp only [Prod.mk.injEq] at he
      exact ⟨he.1.symm, he.2.1.symm, he.2.2.symm⟩
    simp only [Duty.Idle]
    rw [hfound, hwant]
    exact hi

/-- What is known of the other requests still holds after a request of no higher rank than the one
above theirs has been applied. -/
theorem Calm.of_applies (h : v.Applies w q) (hc : v.params.FromConfig) (hv : v.tables.Proper)
    {n m : Nat} (hn : n ≤ 4) (hq : v.Calm q (n + 1)) (hm : m = n ∨ m = n + 1) (hr : v.Calm r m) :
    w.Calm r m := by
  have hof : ∀ σ : Duty, σ.Of v.params r → σ.Of w.params r := by
    intro σ hσ
    rw [h.params]
    exact hσ
  have hrouting : ∀ vrf, v.Routing vrf → w.Routing vrf := fun vrf => (h.routing_iff vrf).mpr
  have hwant : v.Calm q 4 → ∀ σ : Duty, σ.direction = .toEvpn → σ.want w = σ.want v := by
    intro hq σ hd
    have ht := h.want_toEvpn hv (hq.kind_ne hc) σ.vrf σ.dest
    rw [← hd] at ht
    exact ht
  match m, hm, hr with
  | 1, hm, ⟨σ, hσ, hvrf, hd, hi⟩ =>
    have hq : v.Calm q 3 := hq.mono (by omega)
    exact ⟨σ, hof σ hσ, hrouting _ hvrf, hd, h.idle_toEvpn hc hv hq rfl hi⟩
  | 2, hm, ⟨σ, hσ, hvrf, hd⟩ =>
    have hq : v.Calm q 3 := hq.mono (by omega)
    refine ⟨σ, hof σ hσ, hrouting _ hvrf, ?_⟩
    rcases hd with ⟨hd, hi⟩ | ⟨hd, ha⟩
    · exact .inl ⟨hd, h.idle_toEvpn hc hv hq rfl hi⟩
    · exact .inr ⟨hd, by rw [hwant hq.succ σ hd]; exact ha⟩
  | 3, hm, ⟨σ, hσ, hvrf, hd⟩ =>
    have hq : v.Calm q 4 := hq.mono (by omega)
    refine ⟨σ, hof σ hσ, hrouting _ hvrf, hd.imp_right fun ⟨hd, ha⟩ => ⟨hd, ?_⟩⟩
    rw [hwant hq σ hd]
    exact ha
  | 4, _, ⟨σ, hσ, hd⟩ => exact ⟨σ, hof σ hσ, hd.imp_right (hrouting _)⟩
  | m + 5, _, _ => trivial

/-- A request of the engine in a routing VRF feeds the leak from the table that it is for. -/
theorem fed?_of_toInet (ht : v.tables.Proper) {σ τ : Duty} (hτ : τ.Of v.params q)
    (hr : v.Routing τ.vrf) (hd : τ.direction = .toInet) (h : v.fed? q.vrf q.key = some σ) :
    σ = τ.back := by
  obtain ⟨d, vrf, dest⟩ := τ
  obtain ⟨rfl, hk, _⟩ := hτ
  cases hd
  rw [hk] at h
  rcases fed?_cases ht h with ⟨_, p, hp, rfl⟩ | ⟨_, p, hp, _⟩ | ⟨hn, _⟩
  · cases hp
    rfl
  · cases hp
  · exact absurd hr hn

theorem fed?_of_toEvpn (ht : v.tables.Proper) {σ τ : Duty} (hτ : τ.Of v.params q)
    (hr : v.Routing τ.vrf) (hd : τ.direction = .toEvpn) (h : v.fed? q.vrf q.key = some σ) :
    σ = τ.forth := by
  obtain ⟨d, vrf, dest⟩ := τ
  obtain ⟨rfl, hk, _⟩ := hτ
  cases hd
  rw [hk] at h
  rcases fed?_cases ht h with ⟨_, p, hp, _⟩ | ⟨_, p, hp, rfl⟩ | ⟨hn, _⟩
  · cases hp
  · cases hp
    rfl
  · exact absurd hr hn

end View

namespace Engine

/-- A request of some rank is answered by requests of the rank below only. -/
theorem calm_of_answers {e e' : Engine} {q q' : Request} (he : e.Sound)
    (h : e.toView.Applies e'.toView q) {n : Nat} (hn : n ≤ 4) (hq : e.Calm q (n + 1)) {σ : Duty}
    (hfed : e.fed? q.vrf q.key = some σ) (hbusy : ¬ σ.Idle e'.toView) (hof : σ.Of e'.params q')
    (hask : q'.action.Asks (σ.want e'.toView)) : e'.Calm q' n := by
  have hrouting : ∀ vrf, e.Routing vrf → e'.Routing vrf := fun vrf => (h.routing_iff vrf).mpr
  have hcases := View.fed?_cases he.proper hfed
  have hfeeds : σ.direction = .fromBridges ∨ e'.Routing σ.vrf := by
    rcases hcases with ⟨hr, p, _, rfl⟩ | ⟨hr, p, _, rfl⟩ | ⟨_, p, b, r, _, _, _, rfl⟩
    · exact .inr (hrouting _ hr)
    · exact .inr (hrouting _ hr)
    · exact .inl rfl
  match n, hn, hq with
  | 0, _, ⟨τ, hτ, hr, hd, hi⟩ =>
    have hσ : σ = τ.back := View.fed?_of_toInet he.proper hτ hr hd hfed
    have hq : e.Calm q 3 := (show e.Calm q 1 from ⟨τ, hτ, hr, hd, hi⟩).mono (by omega)
    exact absurd (hσ ▸ h.idle_toEvpn he.config he.proper hq rfl hi) hbusy
  | 1, _, ⟨τ, hτ, hr, hd⟩ =>
    have hq : e.Calm q 3 := (show e.Calm q 2 from ⟨τ, hτ, hr, hd⟩).mono (by omega)
    rcases hd with ⟨hd, hi⟩ | ⟨hd, ha⟩
    · have hσ : σ = τ.back := View.fed?_of_toInet he.proper hτ hr hd hfed
      exact absurd (hσ ▸ h.idle_toEvpn he.config he.proper hq rfl hi) hbusy
    · have hσ : σ = τ.forth := View.fed?_of_toEvpn he.proper hτ hr hd hfed
      subst hσ
      refine ⟨_, hof, hrouting _ hr, rfl, ?_⟩
      rw [Duty.back_forth hd]
      exact (h.idle he.config he.proper hτ ha).1
  | 2, _, ⟨τ, hτ, hr, hd⟩ =>
    rcases hd with hd | ⟨hd, ha⟩
    · have hσ : σ = τ.back := View.fed?_of_toInet he.proper hτ hr hd hfed
      subst hσ
      exact ⟨_, hof, hrouting _ hr, .inr ⟨rfl, hask⟩⟩
    · have hσ : σ = τ.forth := View.fed?_of_toEvpn he.proper hτ hr hd hfed
      subst hσ
      refine ⟨_, hof, hrouting _ hr, .inl ⟨rfl, ?_⟩⟩
      rw [Duty.back_forth hd]
      exact (h.idle he.config he.proper hτ ha).1
  | 3, _, ⟨τ, ⟨hv, hk, _⟩, hd⟩ =>
    rcases hcases with ⟨hr, p, _, rfl⟩ | ⟨hr, p, _, rfl⟩ | ⟨hn, p, b, r, hk', _, _, rfl⟩
    · exact ⟨_, hof, hrouting _ hr, .inr ⟨rfl, hask⟩⟩
    · exact ⟨_, hof, hrouting _ hr, .inl rfl⟩
    · -- in a bridge, nothing but an export's own route could be written to, and that feeds nothing
      rcases hd with hd | hd
      · rw [hk, Duty.key, hd] at hk'
        cases hk'
      · rw [hv] at hn
        exact absurd hd hn
  | 4, _, _ => exact ⟨σ, hof, hfeeds⟩

/-- Applying requests of one rank leaves requests of the rank below. -/
theorem foldl_step_calm {n : Nat} (hn : n ≤ 4) (l : List Request) {e : Engine} (he : e.Sound)
    (c : Nat) (hl : ∀ q ∈ l, e.Calm q (n + 1)) (hq : ∀ q ∈ e.queue, e.Calm q n) :
    (l.foldl step (e, c)).1.Sound ∧
      ∀ q ∈ (l.foldl step (e, c)).1.queue, (l.foldl step (e, c)).1.Calm q n := by
  induction l generalizing e c with
  | nil => exact ⟨he, hq⟩
  | cons q l ih =>
    obtain ⟨happ, hans⟩ := step_spec he.proper he.sorted c q
    have hcalm : e.Calm q (n + 1) := hl q List.mem_cons_self
    have hkeep : ∀ r m, m = n ∨ m = n + 1 → e.Calm r m → (step (e, c) q).1.Calm r m :=
      fun r m hm hr => View.Calm.of_applies happ he.config he.proper hn hcalm hm hr
    have hl' : ∀ r ∈ l, (step (e, c) q).1.Calm r (n + 1) :=
      fun r hr => hkeep r _ (.inr rfl) (hl r (List.mem_cons_of_mem _ hr))
    have hold : ∀ r ∈ e.queue, (step (e, c) q).1.Calm r n :=
      fun r hr => hkeep r _ (.inl rfl) (hq r hr)
    refine ih (he.step c q) (step (e, c) q).2 hl' fun r hr => ?_
    cases hans with
    | unnoticed _ hqueue => exact hold r (hqueue ▸ hr)
    | unfed _ _ hqueue => exact hold r (hqueue ▸ hr)
    | idle σ _ _ _ hqueue => exact hold r (hqueue ▸ hr)
    | asks σ q' _ hfed hbusy hof hask hqueue =>
      rw [hqueue] at hr
      rcases List.mem_append.mp hr with hr | hr
      · exact hold r hr
      · rw [List.mem_singleton] at hr
        subst hr
        exact calm_of_answers he happ hn hcalm hfed hbusy hof hask

theorem round_calm {n : Nat} (hn : n ≤ 4) {s : Engine × Nat} (he : s.1.Sound)
    (hq : ∀ q ∈ s.1.queue, s.1.Calm q (n + 1)) :
    (round s).1.Sound ∧ ∀ q ∈ (round s).1.queue, (round s).1.Calm q n :=
  foldl_step_calm hn s.1.queue (e := { s.1 with queue := [] }) ⟨he.config, he.proper, he.sorted⟩ s.2
    hq fun q hq => by cases hq

/-- As many rounds as the rank of the queue empty it, by turns that each find a request. -/
theorem rounds_of_calm {n fuel : Nat} (hn : n ≤ 5) (hfuel : n ≤ fuel) {s : Engine × Nat}
    (he : s.1.Sound) (hq : ∀ q ∈ s.1.queue, s.1.Calm q n) :
    (rounds fuel s).1.queue = [] ∧ (rounds fuel s).1.Sound ∧
      ∃ k, turns k s = rounds fuel s ∧ ∀ i < k, (turns i s).1.queue ≠ [] := by
  induction n generalizing fuel s with
  | zero =>
    have hempty : s.1.queue = [] := List.eq_nil_iff_forall_not_mem.mpr hq
    have hrounds : rounds fuel s = s := by
      cases fuel with
      | zero => rfl
      | succ fuel => exact if_pos hempty
    rw [hrounds]
    refine ⟨hempty, he, 0, rfl, fun i hi => ?_⟩
    cases hi
  | succ n ih =>
    obtain ⟨fuel, rfl⟩ : ∃ f, fuel = f + 1 := ⟨fuel - 1, by omega⟩
    by_cases hempty : s.1.queue = []
    · have hrounds : rounds (fuel + 1) s = s := if_pos hempty
      rw [hrounds]
      refine ⟨hempty, he, 0, rfl, fun i hi => ?_⟩
      cases hi
    · obtain ⟨he', hq'⟩ := round_calm (Nat.le_of_succ_le_succ hn) he hq
      have hrounds : rounds (fuel + 1) s = rounds fuel (round s) := if_neg hempty
      obtain ⟨hend, hsound, k, hk, hne⟩ := @ih fuel (by omega) (by omega) _ he' hq'
      obtain ⟨hround, hbusy⟩ := round_eq_turns he
      rw [hrounds]
      refine ⟨hend, hsound, s.1.queue.length + k, ?_, fun i hi => ?_⟩
      · rw [turns_add, hround, hk]
      · by_cases hlt : i < s.1.queue.length
        · exact hbusy i hlt
        · have hi' : i = s.1.queue.length + (i - s.1.queue.length) := by omega
          rw [hi', turns_add, hround]
          exact hne _ (by omega)

/-- A sound engine comes to rest after some turns. -/
theorem Sound.process_turns {e : Engine} (he : e.Sound) : e.process.1.queue = [] ∧
    ∃ n, turns n (e, 0) = e.process ∧ ∀ i < n, (turns i (e, 0)).1.queue ≠ [] := by
  have hlimit : 5 ≤ roundLimit := by decide
  have h := rounds_of_calm (s := (e, 0)) (Nat.le_refl 5) hlimit he fun q _ => trivial
  exact ⟨h.1, h.2.2⟩

/-- What every turn that finds a request keeps, processing keeps. -/
theorem Sound.process_induction {e : Engine} (he : e.Sound) {P : Engine → Prop} (h : P e)
    (hturn : ∀ e' q rest n, e'.Sound → e.toView.Akin e'.toView → e'.queue = q :: rest → P e' →
      P (turn (e', n)).1) :
    e.process.1.Sound ∧ e.toView.Akin e.process.1.toView ∧ P e.process.1 := by
  obtain ⟨_, n, hn, _⟩ := he.process_turns
  rw [← hn]
  exact he.turns_induction h hturn n

theorem Sound.process {e : Engine} (he : e.Sound) :
    e.process.1.Sound ∧ e.toView.Akin e.process.1.toView := by
  obtain ⟨_, n, hn, _⟩ := he.process_turns
  rw [← hn]
  exact he.akin_turns n

/-- A path that no duty of a served VRF keeps is what the queue made one await. -/
theorem Sound.path?_process {e : Engine} (he : e.Sound) {vrf : String} {k : RouteKey} {p : Peer}
    (h : ∀ σ : Duty, e.routers.Serves σ.vrf → (vrf, k, p) ≠ (σ.vrf, σ.key, σ.peer e.params)) :
    e.process.1.tables.path? vrf k p = e.awaited vrf k p := by
  obtain ⟨_, _, hend⟩ := he.process_induction (P := fun e' =>
    e'.awaited vrf k p = e.awaited vrf k p) rfl fun e' q rest n hs ha hq h' => by
      rw [awaited_turn hs hq n, h']
      intro σ hσ
      rw [ha.params]
      exact h σ ((RouterMap.serves_congr ha.routers _).mp (hσ.serves hs))
  rw [← hend]
  simp only [awaited]
  rw [he.process_turns.1]
  rfl

/-- Processing applies finitely many requests and ends with an empty queue, whatever the queue holds
at its start. -/
theorem process_ends (e : Engine) (hc : e.params.FromConfig) (ht : e.tables.Filled)
    (hr : e.routers.routers.Sorted) :
    e.process.1.queue = [] ∧
      ∃ n, turns n (e, 0) = e.process ∧ ∀ i < n, (turns i (e, 0)).1.queue ≠ [] :=
  Sound.process_turns ⟨hc, ht.proper, hr⟩

/-- A machine gets a network and gives it up at once. -/
theorem process_ends_sample :
    ({ Sample.engine with queue := [Sample.install, Sample.withdraw] } : Engine).process.1.queue =
      [] :=
  (process_ends { Sample.engine with queue := [Sample.install, Sample.withdraw] }
    Sample.fromConfig Sample.filled Sample.configured.coherent.sorted).1

end Engine

end VxlanRouting
