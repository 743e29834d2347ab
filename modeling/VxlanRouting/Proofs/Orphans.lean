import VxlanRouting.Proofs.Calls

/-!
Orphans: paths of the engine in a VRF that is no routing VRF. When a VRF ceases to be one, the
engine withdraws the paths that are installed there, behind all that waits. A path that is not
installed, but asked for by a request that waits, is not withdrawn. Such a path is abandoned, and
there is no other way to an orphan.
-/
namespace VxlanRouting

namespace Tables

/-- A list of requests leaves no path: the last one for it withdraws it, or there is none and the
path is not there. -/
def Clears (db : Tables) (l : List Request) (vrf : String) (k : RouteKey) (p : Peer) : Prop :=
  match (requestsFor vrf k p l).getLast? with
  | none => db.path? vrf k p = none
  | some q => q.action = .withdraw

variable {db db' : Tables} {l l' : List Request} {vrf : String} {k : RouteKey} {p : Peer}

theorem requestsFor_eq_nil (h : ∀ q ∈ l, (q.vrf, q.key, q.peer) ≠ (vrf, k, p)) :
    requestsFor vrf k p l = [] :=
  List.filter_eq_nil_iff.mpr fun q hq => by simpa using h q hq

theorem clears_append (h : ∀ q ∈ l', (q.vrf, q.key, q.peer) ≠ (vrf, k, p)) :
    db.Clears (l ++ l') vrf k p ↔ db.Clears l vrf k p := by
  simp only [Clears]
  rw [requestsFor_append, requestsFor_eq_nil h, List.append_nil]

/-- Withdrawals behind all other requests leave no path. -/
theorem clears_append_of_withdraw (h : ∀ q ∈ l', q.action = .withdraw)
    (hl : ∃ q ∈ l', (q.vrf, q.key, q.peer) = (vrf, k, p)) : db.Clears (l ++ l') vrf k p := by
  have hne : requestsFor vrf k p l' ≠ [] := by
    obtain ⟨q, hq, hk⟩ := hl
    exact List.ne_nil_of_mem (List.mem_filter.mpr ⟨hq, by simpa using hk⟩)
  simp only [Clears]
  rw [requestsFor_append, List.getLast?_append, List.getLast?_eq_some_getLast hne]
  exact h _ (List.mem_filter.mp (List.getLast_mem hne)).1

theorem Clears.mono (h : db.Clears l vrf k p)
    (hn : db.path? vrf k p = none → db'.path? vrf k p = none) : db'.Clears l vrf k p := by
  simp only [Clears] at h ⊢
  split at h
  · exact hn h
  · exact h

/-- What a list leaves, its tail leaves after the first request. -/
theorem Clears.apply {q : Request} (h : db.Clears (q :: l) vrf k p) :
    (db.apply q).1.Clears l vrf k p := by
  simp only [Clears, requestsFor] at h ⊢
  by_cases hq : (q.vrf, q.key, q.peer) = (vrf, k, p)
  · rw [List.filter_cons_of_pos (by simpa using hq)] at h
    cases hl : l.filter fun q => decide ((q.vrf, q.key, q.peer) = (vrf, k, p)) with
    | nil =>
      rw [hl] at h
      have hw : q.action = .withdraw := h
      simp only [Prod.mk.injEq] at hq
      obtain ⟨rfl, rfl, rfl⟩ := hq
      by_cases hb : db.bare? q.vrf = none
      · exact path?_of_missing _ _ _ _ (by rw [bare?_apply, hb])
      · show (db.apply q).1.path? q.vrf q.key q.peer = none
        rw [path?_apply_self db q hb, Request.outcome_withdraw hw]
    | cons r rest =>
      rw [hl, List.getLast?_cons_cons] at h
      exact h
  · rw [List.filter_cons_of_neg (by simpa using hq)] at h
    have h : db.Clears l vrf k p := h
    refine h.mono fun hn => ?_
    rw [path?_apply_of_ne db q fun he => hq he.symm, hn]

end Tables

namespace Engine

/-- Once the queue has been applied, the path is not there. -/
def Clears (e : Engine) (vrf : String) (k : RouteKey) (p : Peer) : Prop :=
  e.tables.Clears e.queue vrf k p

/-- A path is abandoned: its VRF is no routing VRF any more, it was not installed, and the last
request that waits for it asks for an installation. -/
structure Abandons (e e' : Engine) (vrf : String) (k : RouteKey) (p : Peer) : Prop where
  served : e.routers.Serves vrf
  lost : ¬ e'.routers.Serves vrf
  absent : e.tables.path? vrf k p = none
  asked : ∃ q, (Tables.requestsFor vrf k p e.queue).getLast? = some q ∧ q.action ≠ .withdraw

section

variable {e : Engine} {vrf : String} (k : RouteKey) (p : Peer)

theorem clears_of_queue_nil {k : RouteKey} {p : Peer} (hq : e.queue = []) :
    e.Clears vrf k p ↔ e.tables.path? vrf k p = none := by
  simp only [Clears]
  rw [hq]
  exact Iff.rfl

/-- A turn asks for nothing in a VRF that is not served. -/
theorem clears_turn {k : RouteKey} {p : Peer} (he : e.Sound) (hv : ¬ e.routers.Serves vrf)
    {q : Request} {rest : List Request} (hq : e.queue = q :: rest) (h : e.Clears vrf k p)
    (n : Nat) : (turn (e, n)).1.Clears vrf k p := by
  simp only [Clears] at h ⊢
  rw [hq] at h
  obtain ⟨ha, ⟨hqueue, _⟩ | ⟨σ, q', hqueue, hσ, _, hof, _⟩⟩ := turn_spec he hq n
  · rw [hqueue, ha.tables]
    exact h.apply
  · rw [hqueue, ha.tables, Tables.clears_append]
    · exact h.apply
    · rintro r hr heq
      rw [List.mem_singleton.mp hr, Prod.mk.injEq, hof.1] at heq
      exact hv (heq.1 ▸ hσ.serves he)

variable (he : e.Orderly) (hv : ¬ e.routers.Serves vrf)

include he hv

/-- Turns change nothing of what is awaited in a VRF that is not served. -/
theorem awaited_process : e.process.1.tables.path? vrf k p = e.awaited vrf k p :=
  he.sound.path?_process fun _ hσ heq => hv ((Prod.mk.inj heq).1 ▸ hσ)

theorem clears_process {k : RouteKey} {p : Peer} (h : e.Clears vrf k p) :
    e.process.1.Clears vrf k p := by
  refine (he.sound.process_induction (P := fun e' => e'.Clears vrf k p) h
    fun e' q rest n hs ha hq h' => ?_).2.2
  exact clears_turn hs (fun hs => hv ((RouterMap.serves_congr ha.routers vrf).mp hs)) hq h' n

end

/-- An event leaves no path in a VRF that is not served, but for those that it abandons. -/
theorem clears_reacts {e e' : Engine} (h : e.Reacts e') {vrf : String}
    (hv : ¬ e'.routers.Serves vrf) {k : RouteKey} {p : Peer} (hp : e.params.Owns p)
    (hc : ¬ e.routers.Serves vrf → e.Clears vrf k p) :
    e'.Clears vrf k p ∨ e.Abandons e' vrf k p := by
  obtain ⟨lost, w, l, hqueue, hlost, hw, hl⟩ := h.queue
  have hdecided : ∀ q ∈ l, (q.vrf, q.key, q.peer) ≠ (vrf, k, p) := by
    rintro q hq heq
    obtain ⟨σ, hσ, hof, _⟩ := hl q hq
    exact hv ((Prod.mk.inj heq).1 ▸ hof.1 ▸ hσ)
  simp only [Clears]
  rw [hqueue, Tables.clears_append hdecided]
  -- the withdrawals of the event come last; where there is none, the path was not installed
  by_cases hasked : ∃ q ∈ w, (q.vrf, q.key, q.peer) = (vrf, k, p)
  · exact .inl (Tables.clears_append_of_withdraw (fun q hq => (hw.own q hq).1) hasked)
  · have hnone : ∀ q ∈ w, (q.vrf, q.key, q.peer) ≠ (vrf, k, p) :=
      fun q hq heq => hasked ⟨q, hq, heq⟩
    rw [Tables.clears_append hnone]
    by_cases hs : e.routers.Serves vrf
    · have hn : e.tables.path? vrf k p = none := by
        refine (hw.all vrf ((hlost vrf).mpr ⟨hs, hv⟩) k p hp).resolve_right ?_
        rintro ⟨q, hq, heq⟩
        exact hnone q hq heq.symm
      cases hlast : (Tables.requestsFor vrf k p e.queue).getLast? with
      | none =>
        left
        simp only [Tables.Clears]
        rw [hlast]
        exact h.renews.path?_eq_none hn
      | some q =>
        by_cases hq : q.action = .withdraw
        · left
          simp only [Tables.Clears]
          rw [hlast]
          exact hq
        · exact .inr ⟨hs, hv, hn, q, hlast, hq⟩
    · exact .inl ((hc hs).mono h.renews.path?_eq_none)

/-- A call that is not from the engine's own peers leaves no path in a VRF that is not served, but
for those that it abandons. -/
theorem clears_call {e e' : Engine} (he : e.Orderly) {c : Call} (h : e.call c = .ok e')
    (hforeign : ∀ x ∈ c.peer?, ¬ e.params.Owns x) {vrf : String} (hv : ¬ e'.routers.Serves vrf)
    {k : RouteKey} {p : Peer} (hp : e.params.Owns p)
    (hc : ¬ e.routers.Serves vrf → e.Clears vrf k p) :
    e'.Clears vrf k p ∨ e.Abandons e' vrf k p := by
  rcases call_cases he h with ⟨_, hr⟩ | ⟨x, hx, hr⟩ | ⟨_, rfl⟩
  · exact clears_reacts hr hv hp hc
  · obtain ⟨l, hqueue, hl⟩ := hr.queue
    rw [RouterMap.serves_congr hr.routers] at hv
    left
    simp only [Clears]
    rw [hqueue, hr.tables, Tables.clears_append]
    · exact hc hv
    · rintro q hq heq
      simp only [Prod.mk.injEq] at heq
      refine hforeign x hx ?_
      rw [← hl q hq, heq.2.2]
      exact hp
  · rw [RouterMap.serves_congr he.process.2.routers] at hv
    exact .inl (clears_process he hv (hc hv))

/-- Among some calls there is one that abandons a path. -/
def Forsaken (e : Engine) (l : List Call) (vrf : String) (k : RouteKey) (p : Peer) : Prop :=
  ∃ l₁ c l₂ e₁ e₂, l = l₁ ++ c :: l₂ ∧ e.calls l₁ = .ok e₁ ∧ e₁.call c = .ok e₂ ∧
    e₁.Abandons e₂ vrf k p

theorem clears_calls {e e' : Engine} (he : e.Orderly) {l : List Call} (h : e.calls l = .ok e')
    (hforeign : ∀ c ∈ l, ∀ x ∈ c.peer?, ¬ e.params.Owns x) {vrf : String} {k : RouteKey}
    {p : Peer} (hp : e.params.Owns p) (hc : ¬ e.routers.Serves vrf → e.Clears vrf k p) :
    (¬ e'.routers.Serves vrf → e'.Clears vrf k p) ∨ e.Forsaken l vrf k p := by
  induction l generalizing e with
  | nil =>
    cases h
    exact .inl hc
  | cons c l ih =>
    obtain ⟨e₁, hcall, hcalls⟩ := call_of_calls_cons h
    obtain ⟨he₁, hparams⟩ := he.call hcall
    by_cases hab : e.Abandons e₁ vrf k p
    · exact .inr ⟨[], c, l, e, e₁, rfl, rfl, hcall, hab⟩
    · have hc₁ : ¬ e₁.routers.Serves vrf → e₁.Clears vrf k p := fun hv =>
        (clears_call he hcall (hforeign c List.mem_cons_self) hv hp hc).resolve_right hab
      rw [← hparams] at hp hforeign
      have hrest : ∀ c ∈ l, ∀ x ∈ c.peer?, ¬ e₁.params.Owns x :=
        fun c hc => hforeign c (List.mem_cons_of_mem _ hc)
      refine (ih he₁ hcalls hrest hp hc₁).imp_right ?_
      rintro ⟨l₁, c', l₂, e₂, e₃, rfl, hl₁, hc', hab'⟩
      exact ⟨c :: l₁, c', l₂, e₂, e₃, rfl, (calls_cons hcall l₁).trans hl₁, hc', hab'⟩

/-- After calls that end with processing, none of them from the engine's own peers, the engine has
in a VRF that is no routing VRF what was awaited there before the queue was processed. And each path
that it has there was abandoned by a call: it was not installed, but asked for by a request that
waited, when its VRF ceased to be a routing VRF. -/
theorem process_orphan (e₀ : Engine) (h : e₀.Initial) (l : List Call)
    (hforeign : ∀ c ∈ l, ∀ x ∈ c.peer?, ¬ e₀.params.Owns x) {e' : Engine}
    (hrun : e₀.calls (l ++ [.process]) = .ok e') :
    e'.queue = [] ∧ ∃ e, e₀.calls l = .ok e ∧ e' = e.process.1 ∧
      ∀ vrf, ¬ e'.routers.Serves vrf → ∀ k p, e₀.params.Owns p →
        e'.tables.path? vrf k p = e.awaited vrf k p ∧
        (e'.tables.path? vrf k p ≠ none → e₀.Forsaken l vrf k p) := by
  obtain ⟨e, hcalls, hlast⟩ := calls_append hrun
  have he' : e' = e.process.1 := (Except.ok.inj hlast).symm
  subst he'
  obtain ⟨he, hparams⟩ := h.orderly.calls hcalls
  have hempty := he.sound.process_turns.1
  refine ⟨hempty, e, hcalls, rfl, fun vrf hv k p hp => ?_⟩
  rw [RouterMap.serves_congr he.process.2.routers] at hv
  refine ⟨awaited_process k p he hv, fun hsome => ?_⟩
  have hstart : ¬ e₀.routers.Serves vrf → e₀.Clears vrf k p := fun _ =>
    (clears_of_queue_nil h.queue).mpr (h.clear vrf k p hp)
  refine (clears_calls h.orderly hcalls hforeign hp hstart).resolve_left fun hc => hsome ?_
  exact (clears_of_queue_nil hempty).mp (clears_process he hv (hc hv))

end Engine

namespace Sample

/-- The engine after some calls. -/
def after (l : List Call) : Engine := (start.calls l).toOption.getD start

theorem calls_after {l : List Call} (h : (start.calls l).toOption.isSome = true) :
    start.calls l = .ok (after l) := by
  simp only [after]
  cases hc : start.calls l with
  | ok e => rfl
  | error f =>
    rw [hc] at h
    cases h

/-- The routing VN goes when all that was asked for has been done. -/
def detachedLate : List Call := attaching ++ [.process, .event (.deleteVn "routing-vn")]

/-- The routing VN goes at once. -/
def detachedEarly : List Call := attaching ++ [.event (.deleteVn "routing-vn")]

end Sample

namespace Engine

theorem not_serves_of_routingVrfs {e e' : Engine} (he : e.Initial) {l : List Call}
    (h : e.calls l = .ok e') (vrf : String) (hv : vrf ∉ e'.routers.routingVrfs) :
    ¬ e'.routers.Serves vrf := fun hs =>
  hv ((RouterMap.mem_routingVrfs (he.orderly.calls h).1.coherent.sorted).mpr hs)

/-- What has been installed is withdrawn. -/
theorem no_orphan_detachedLate :
    (Sample.after (Sample.detachedLate ++ [.process])).tables.path? "routing"
      (.evpn (.type5 Sample.subnet)) Sample.params.exportPeer = none := by
  have hrun := Sample.calls_after (l := Sample.detachedLate ++ [.process]) (by decide +kernel)
  obtain ⟨_, e, he, _, h⟩ := process_orphan Sample.start Sample.initial Sample.detachedLate
    (by decide) hrun
  have hv := not_serves_of_routingVrfs Sample.initial hrun "routing" (by decide +kernel)
  have hnone : (Sample.after Sample.detachedLate).awaited "routing" (.evpn (.type5 Sample.subnet))
      Sample.params.exportPeer = none := by decide +kernel
  rw [Sample.calls_after (by decide +kernel)] at he
  rw [Except.ok.inj he] at hnone
  exact (h "routing" hv _ _ (.inl rfl)).1.trans hnone

/-- What is only asked for when the routing VN goes is installed afterwards, and stays. -/
theorem not_always_cleared :
    ¬ ∀ (e₀ : Engine) (l : List Call) (e' : Engine), e₀.Initial →
      (∀ c ∈ l, ∀ x ∈ c.peer?, ¬ e₀.params.Owns x) → e₀.calls (l ++ [.process]) = .ok e' →
      ∀ vrf k, ∀ x ∈ e'.tables.paths vrf k, e₀.params.Owns x.peer → e'.routers.Serves vrf := by
  intro h
  have hrun := Sample.calls_after (l := Sample.detachedEarly ++ [.process]) (by decide +kernel)
  have hv := not_serves_of_routingVrfs Sample.initial hrun "routing" (by decide +kernel)
  exact hv (h Sample.start Sample.detachedEarly _ Sample.initial (by decide) hrun "routing"
    (.evpn (.type5 Sample.subnet))
    ⟨Sample.params.exportPeer, .interface "tap" 3 false, Sample.advertised⟩ (by decide +kernel)
    (.inl rfl))

end Engine

end VxlanRouting
