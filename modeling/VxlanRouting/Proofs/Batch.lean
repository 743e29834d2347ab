import VxlanRouting.Proofs.Termination

/-!
Batches of requests from outside, processed in a settled state. Whether processing ends in a settled
state again hangs on the last decision of each duty: the state is settled exactly if none of them is
overtaken. No decision is overtaken if no two requests of the batch are for the same prefix, since
then at most one request at a time waits for a prefix.
-/
namespace VxlanRouting.Engine

/-- A request from outside: not under a peer of the engine, and not for the fabric VRF. -/
def External (p : Parameters) (q : Request) : Prop := ¬ p.Owns q.peer ∧ q.vrf ≠ p.fabricVrf

instance (p : Parameters) (q : Request) : Decidable (External p q) :=
  inferInstanceAs (Decidable (_ ∧ _))

/-- The turn of this number decides a duty, and no later one of the first so many does. -/
def LastDecides (e : Engine) (n i : Nat) (σ : Duty) : Prop :=
  i < n ∧ (turns i (e, 0)).1.Decides σ ∧ ∀ j, i < j → j < n → ¬ (turns j (e, 0)).1.Decides σ

theorem lastDecides_succ {e : Engine} {n i : Nat} {σ : Duty} :
    e.LastDecides (n + 1) i σ ↔ i = n ∧ (turns n (e, 0)).1.Decides σ ∨
      ¬ (turns n (e, 0)).1.Decides σ ∧ e.LastDecides n i σ := by
  simp only [LastDecides]
  constructor
  · rintro ⟨hi, hd, hlast⟩
    by_cases hin : i = n
    · exact .inl ⟨hin, hin ▸ hd⟩
    · refine .inr ⟨hlast n (by omega) (by omega), by omega, hd, fun j hj hjn => ?_⟩
      exact hlast j hj (by omega)
  · rintro (⟨rfl, hd⟩ | ⟨hn, hi, hd, hlast⟩)
    · exact ⟨by omega, hd, fun j hj hjn => by omega⟩
    · refine ⟨by omega, hd, fun j hj hjn => ?_⟩
      by_cases hjn' : j = n
      · exact hjn' ▸ hn
      · exact hlast j hj (by omega)

/-- A promise is kept through a run exactly if the last decision of its duty is not overtaken. -/
theorem promised_turns_iff {e : Engine} (he : e.Steady) {σ : Duty} (hσ : e.Has σ)
    (hp : e.Promised σ) (n : Nat) (hn : ∀ i < n, (turns i (e, 0)).1.queue ≠ []) :
    (turns n (e, 0)).1.Promised σ ↔
      ∀ i, e.LastDecides n i σ → ¬ (turns (i + 1) (e, 0)).1.Overtaken σ := by
  induction n with
  | zero =>
    constructor
    · intro _ i hi
      exact absurd hi.1 (Nat.not_lt_zero i)
    · exact fun _ => hp
  | succ n ih =>
    have ih := ih fun i hi => hn i (Nat.lt_succ_of_lt hi)
    obtain ⟨hs, hakin⟩ := he.turns n
    obtain ⟨q, rest, hq⟩ := List.exists_cons_of_ne_nil (hn n (Nat.lt_succ_self n))
    rw [turns_succ n (e, 0)]
    by_cases hd : (turns n (e, 0)).1.Decides σ
    · rw [promised_turn_of_decides hs.sound hq _ hd, ← turns_succ]
      constructor
      · intro ho i hi
        rcases lastDecides_succ.mp hi with ⟨rfl, _⟩ | ⟨hnd, _⟩
        · exact ho
        · exact absurd hd hnd
      · exact fun h => h n (lastDecides_succ.mpr (.inl ⟨rfl, hd⟩))
    · rw [promised_turn_of_not_decides hs hq _ ((hakin.has_iff σ).mpr hσ) hd, ih]
      constructor
      · intro h i hi
        rcases lastDecides_succ.mp hi with ⟨_, hd'⟩ | ⟨_, hi⟩
        · exact absurd hd' hd
        · exact h i hi
      · exact fun h i hi => h i (lastDecides_succ.mpr (.inr ⟨hd, hi⟩))

/-- The prefixes that the waiting requests are for. -/
def dests (l : List Request) : List Prefix := l.map (·.key.dest)

theorem dest_of_decides {e : Engine} (he : e.Sound) {q : Request} {rest : List Request}
    (hq : e.queue = q :: rest) {σ : Duty} (h : e.Decides σ) : σ.dest = q.key.dest := by
  obtain ⟨q', rest', hq', _, hfed⟩ := h
  rw [hq] at hq'
  cases hq'
  rcases View.fed?_cases he.proper hfed with ⟨_, p, hk, rfl⟩ | ⟨_, p, hk, rfl⟩ |
    ⟨_, p, b, r, hk, _, _, rfl⟩ <;> rw [hk] <;> rfl

/-- As long as at most one request waits for each prefix, a turn leaves it so. -/
theorem nodup_dests_turn {e : Engine} (he : e.Sound) (h : (dests e.queue).Nodup) (n : Nat) :
    (dests (turn (e, n)).1.queue).Nodup := by
  cases hq : e.queue with
  | nil =>
    rw [turn_of_nil hq]
    exact h
  | cons q rest =>
    rw [hq] at h
    obtain ⟨hnew, hrest⟩ := List.nodup_cons.mp h
    obtain ⟨_, ⟨hqueue, _⟩ | ⟨σ, q', hqueue, hσ, _, ⟨_, hk, _⟩, _⟩⟩ := turn_spec he hq n
    · rw [hqueue]
      exact hrest
    · rw [hqueue]
      simp only [dests]
      rw [List.map_append, List.nodup_append]
      refine ⟨hrest, List.pairwise_singleton _ _, fun a ha b hb hab => ?_⟩
      rw [List.map_singleton, List.mem_singleton] at hb
      obtain ⟨r, hr, hra⟩ := List.mem_map.mp ha
      refine hnew (List.mem_map.mpr ⟨r, hr, ?_⟩)
      rw [hra, hab, hb, hk, Duty.dest_key, dest_of_decides he hq hσ]

/-- With at most one request waiting for each prefix, no decision is overtaken. -/
theorem not_overtaken_of_nodup {e : Engine} (he : e.Sound) (h : (dests e.queue).Nodup)
    {σ : Duty} (hσ : e.Decides σ) (n : Nat) : ¬ (turn (e, n)).1.Overtaken σ := by
  rintro ⟨hidle, hnot⟩
  obtain ⟨q, rest, hq, _⟩ := id hσ
  obtain ⟨_, ⟨hqueue, _⟩ | ⟨τ, _, _, hτ, hbusy, _⟩⟩ := turn_spec he hq n
  · apply hnot
    simp only [Promised, awaited]
    rw [Tables.path?_applyAll_of_ne]
    · exact hidle
    · intro r hr heq
      rw [hqueue] at hr
      simp only [Prod.mk.injEq] at heq
      have hdest : r.key.dest = q.key.dest := by
        rw [← heq.2.1, Duty.dest_key, dest_of_decides he hq hσ]
      rw [hq] at h
      exact (List.nodup_cons.mp h).1 (List.mem_map.mpr ⟨r, hr, hdest⟩)
  · exact hbusy (hσ.unique hτ ▸ hidle)

/-- The engine with a batch of requests behind those that wait. -/
def send (e : Engine) (batch : List Request) : Engine := { e with queue := e.queue ++ batch }

/-- With a batch from outside in its queue, a settled engine is steady and all its duties are
promised. -/
theorem steady_send {e : Engine} (he : e.Sound) (hw : e.Wired) (hs : e.Settled) (hq : e.queue = [])
    {batch : List Request} (hb : ∀ q ∈ batch, External e.params q) :
    (e.send batch).Steady ∧ ∀ σ, e.Has σ → (e.send batch).Promised σ := by
  obtain ⟨hidle, hclear⟩ := (settled_iff he.sorted).mp hs
  have hqueue : (e.send batch).queue = batch := by
    simp only [send]
    rw [hq, List.nil_append]
  have hawaited : ∀ vrf k p, e.params.Owns p →
      (e.send batch).awaited vrf k p = e.tables.path? vrf k p := by
    intro vrf k p hp
    simp only [awaited]
    rw [hqueue]
    refine Tables.path?_applyAll_of_ne _ fun q hq heq => ?_
    simp only [Prod.mk.injEq] at heq
    exact (hb q hq).1 (heq.2.2 ▸ hp)
  refine ⟨⟨⟨he.config, he.proper, he.sorted⟩, hw, fun q hq => ?_, fun vrf hv k p hp => ?_⟩,
    fun σ hσ => ?_⟩
  · rw [hqueue] at hq
    exact .inl (hb q hq).2
  · rw [hawaited vrf k p hp]
    exact hclear vrf hv k p hp
  · simp only [Promised]
    rw [show (e.send batch).params = e.params from rfl, hawaited _ _ _ (σ.owns_peer _)]
    exact hidle σ hσ

/-- Processing a batch from outside in a settled state ends with an empty queue, in a state that is
settled exactly if no last decision of a duty has been overtaken by a request that was waiting. So
it is settled if the batch has no two requests for one prefix. -/
theorem process_batch_settled_iff (e : Engine) (hc : e.params.FromConfig) (ht : e.tables.Filled)
    (hm : e.routers.Configured) (hapart : e.routers.Apart) (hcarries : e.Carries)
    (hsettled : e.Settled) (hq : e.queue = []) (batch : List Request)
    (hb : ∀ q ∈ batch, External e.params q) :
    ∃ n, turns n (e.send batch, 0) = (e.send batch).process ∧
      (e.send batch).process.1.queue = [] ∧
      ((e.send batch).process.1.Settled ↔
        ∀ σ, e.Has σ → ∀ i, (e.send batch).LastDecides n i σ →
          ¬ (turns (i + 1) (e.send batch, 0)).1.Overtaken σ) ∧
      ((batch.map (·.key.dest)).Nodup → (e.send batch).process.1.Settled) := by
  have he : e.Sound := ⟨hc, ht.proper, hm.coherent.sorted⟩
  have he' : (e.send batch).Sound := ⟨hc, ht.proper, hm.coherent.sorted⟩
  obtain ⟨hsteady, hpromised⟩ := steady_send he ⟨hm.coherent, hapart, hcarries⟩ hsettled hq hb
  obtain ⟨hempty, n, hn, hbusy⟩ := he'.process_turns
  obtain ⟨hend, hakin⟩ := hsteady.turns n
  have hiff : (turns n (e.send batch, 0)).1.Settled ↔
      ∀ σ, e.Has σ → ∀ i, (e.send batch).LastDecides n i σ →
        ¬ (turns (i + 1) (e.send batch, 0)).1.Overtaken σ := by
    rw [settled_iff_promised hend (by rw [hn]; exact hempty)]
    constructor
    · intro h σ hσ
      rw [← promised_turns_iff hsteady hσ (hpromised σ hσ) n hbusy]
      exact h σ ((hakin.has_iff σ).mpr hσ)
    · intro h σ hσ
      have hσ' : e.Has σ := (hakin.has_iff σ).mp hσ
      exact (promised_turns_iff hsteady hσ' (hpromised σ hσ') n hbusy).mpr (h σ hσ')
  rw [hn] at hiff
  refine ⟨n, hn, hempty, hiff, fun hnodup => hiff.mpr fun σ _ i hi => ?_⟩
  have hdests : ∀ i, (dests (turns i (e.send batch, 0)).1.queue).Nodup := by
    intro i
    induction i with
    | zero =>
      show (dests (e.queue ++ batch)).Nodup
      rw [hq]
      exact hnodup
    | succ i ih =>
      rw [turns_succ]
      exact nodup_dests_turn (hsteady.turns i).1.sound ih _
  rw [turns_succ]
  exact not_overtaken_of_nodup (hsteady.turns i).1.sound (hdests i) hi.2.1 _

/-- A machine that has a network is enough of a batch. -/
theorem settled_after_install : (Sample.engine.send [Sample.install]).process.1.Settled := by
  obtain ⟨_, _, _, _, h⟩ := process_batch_settled_iff Sample.engine Sample.fromConfig Sample.filled
    Sample.configured Sample.apart Sample.carries Sample.settled rfl [Sample.install]
    (by decide +kernel)
  exact h (by decide)

/-- Not every batch leaves a settled state behind. When a machine gets a network and gives it up at
once, the export that the first request asks for waits behind the second one. So the second one is
told of while nothing is exported yet, and nobody withdraws the export that comes after it. -/
theorem not_all_batches_settle :
    ¬ ∀ (e : Engine) (batch : List Request), e.params.FromConfig → e.tables.Filled →
      e.routers.Configured → e.routers.Apart → e.Carries → e.Settled → e.queue = [] →
      (∀ q ∈ batch, External e.params q) → (e.send batch).process.1.Settled := by
  intro h
  have hs := h Sample.engine [Sample.install, Sample.withdraw] Sample.fromConfig Sample.filled
    Sample.configured Sample.apart Sample.carries Sample.settled rfl (by decide +kernel)
  have hserves : (Sample.engine.send [Sample.install, Sample.withdraw]).process.1.routers.Serves
      "routing" :=
    RouterMap.serves_of_router? Sample.router (by decide +kernel)
  have hquiet := (hs.quiet "routing" hserves Sample.subnet (by decide)).1
  revert hquiet
  decide +kernel

end VxlanRouting.Engine
