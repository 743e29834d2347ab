import VxlanRouting.Proofs.Termination

/-!
Paths of other peers. What the engine asks for while it processes its queue is for its own paths
only. So what it applies for other peers is what was in the queue, in the same order, and they end
with the paths that the queue alone would have left them.
-/
namespace VxlanRouting

namespace Tables

variable (db : Tables) (vrf : String) (k : RouteKey) (p : Peer)

/-- The requests of a list that are for one path, in their order. -/
def requestsFor (l : List Request) : List Request :=
  l.filter fun q => decide ((q.vrf, q.key, q.peer) = (vrf, k, p))

theorem requestsFor_append (l l' : List Request) :
    requestsFor vrf k p (l ++ l') = requestsFor vrf k p l ++ requestsFor vrf k p l' :=
  List.filter_append l l'

/-- A list of requests leaves a path to the outcomes of those that are for it, one after the
other. -/
theorem path?_applyAll (l : List Request) (hb : db.bare? vrf ≠ none) :
    (db.applyAll l).path? vrf k p = (requestsFor vrf k p l).foldl
      (fun found q => q.outcome db.interfaces found) (db.path? vrf k p) := by
  induction l generalizing db with
  | nil => rfl
  | cons q l ih =>
    rw [applyAll_cons, ih _ (by rw [bare?_apply]; exact hb), interfaces_apply]
    simp only [requestsFor]
    by_cases hq : (q.vrf, q.key, q.peer) = (vrf, k, p)
    · rw [List.filter_cons_of_pos (by simpa using hq), List.foldl_cons]
      simp only [Prod.mk.injEq] at hq
      obtain ⟨rfl, rfl, rfl⟩ := hq
      rw [path?_apply_self db q hb]
    · rw [List.filter_cons_of_neg (by simpa using hq), path?_apply_of_ne db q fun h => hq h.symm]

theorem path?_of_missing (hb : db.bare? vrf = none) : db.path? vrf k p = none := by
  rw [path?_eq_find?, paths_of_bare?_eq_none hb]
  rfl

/-- The requests for a path settle what becomes of it. -/
theorem path?_applyAll_congr {l l' : List Request}
    (h : requestsFor vrf k p l = requestsFor vrf k p l') :
    (db.applyAll l).path? vrf k p = (db.applyAll l').path? vrf k p := by
  by_cases hb : db.bare? vrf = none
  · rw [path?_of_missing _ _ _ _ (by rw [bare?_applyAll, hb]),
      path?_of_missing _ _ _ _ (by rw [bare?_applyAll, hb])]
  · rw [path?_applyAll db vrf k p l hb, path?_applyAll db vrf k p l' hb, h]

end Tables

namespace Engine

/-- The requests that so many turns take from the queue, in their order. -/
def taken : Nat → Engine × Nat → List Request
  | 0, _ => []
  | n + 1, s => s.1.queue.head?.toList ++ taken n (turn s)

theorem taken_succ (n : Nat) (s : Engine × Nat) :
    taken (n + 1) s = taken n s ++ (turns n s).1.queue.head?.toList := by
  induction n generalizing s with
  | zero => simp [taken, turns]
  | succ n ih =>
    rw [taken, ih, taken, turns, List.append_assoc]

/-- The requests of a list that are not the engine's own. -/
def foreign (p : Parameters) (l : List Request) : List Request :=
  l.filter fun q => decide (¬ p.Owns q.peer)

theorem foreign_append (p : Parameters) (l l' : List Request) :
    foreign p (l ++ l') = foreign p l ++ foreign p l' :=
  List.filter_append l l'

/-- The path of another peer is asked for by foreign requests only. -/
theorem requestsFor_foreign {p : Parameters} {x : Peer} (hx : ¬ p.Owns x) (vrf : String)
    (k : RouteKey) (l : List Request) :
    Tables.requestsFor vrf k x (foreign p l) = Tables.requestsFor vrf k x l := by
  simp only [Tables.requestsFor, foreign]
  rw [List.filter_filter]
  refine List.filter_congr fun q _ => ?_
  by_cases hq : (q.vrf, q.key, q.peer) = (vrf, k, x)
  · simp only [Prod.mk.injEq] at hq
    simp [hq, hx]
  · simp [hq]

section

variable {e : Engine} (he : e.Sound)

include he

/-- The tables after some turns are what the taken requests make of the first ones. -/
theorem tables_taken (n : Nat) :
    (turns n (e, 0)).1.tables = e.tables.applyAll (taken n (e, 0)) := by
  induction n with
  | zero => rfl
  | succ n ih =>
    rw [turns_succ, taken_succ, Tables.applyAll_append, ← ih]
    cases hq : (turns n (e, 0)).1.queue with
    | nil =>
      rw [turn_of_nil hq]
      rfl
    | cons q rest => exact (turn_spec (he.akin_turns n).1 hq (turns n (e, 0)).2).1.tables

/-- A turn adds requests of decided duties to what has been taken or waits. -/
theorem taken_succ_append_queue (n : Nat) :
    ∃ l, taken (n + 1) (e, 0) ++ (turns (n + 1) (e, 0)).1.queue =
        taken n (e, 0) ++ (turns n (e, 0)).1.queue ++ l ∧
      ∀ q ∈ l, ∃ σ, (turns n (e, 0)).1.Decides σ ∧ σ.Of e.params q := by
  obtain ⟨hs, hakin⟩ := he.akin_turns n
  rw [taken_succ, turns_succ]
  cases hq : (turns n (e, 0)).1.queue with
  | nil =>
    rw [turn_of_nil hq, hq]
    exact ⟨[], by simp, List.forall_mem_nil _⟩
  | cons q rest =>
    obtain ⟨_, ⟨hqueue, _⟩ | ⟨σ, q', hqueue, hσ, _, hof, _⟩⟩ :=
      turn_spec hs hq (turns n (e, 0)).2
    · rw [hqueue]
      exact ⟨[], by simp, List.forall_mem_nil _⟩
    · rw [hqueue]
      refine ⟨[q'], by simp, fun r hr => ⟨σ, hσ, ?_⟩⟩
      rw [List.mem_singleton.mp hr, ← hakin.params]
      exact hof

/-- What has been taken and what still waits has of foreign requests those that waited at first, in
the same order. -/
theorem foreign_taken (n : Nat) :
    foreign e.params (taken n (e, 0) ++ (turns n (e, 0)).1.queue) = foreign e.params e.queue := by
  induction n with
  | zero => rfl
  | succ n ih =>
    obtain ⟨l, hl, hdecided⟩ := taken_succ_append_queue he n
    have hown : foreign e.params l = [] := by
      refine List.filter_eq_nil_iff.mpr fun q hq => ?_
      obtain ⟨σ, _, _, _, hpeer⟩ := hdecided q hq
      rw [hpeer]
      simpa using σ.owns_peer e.params
    rw [hl, foreign_append, hown, List.append_nil, ih]

end

/-- Processing applies the foreign requests that were in the queue, in their order, and no others.
So it leaves all other peers the paths that the requests of the queue alone would leave them. -/
theorem process_foreign (e : Engine) (hc : e.params.FromConfig) (ht : e.tables.Filled)
    (hs : e.routers.routers.Sorted) :
    ∃ n, turns n (e, 0) = e.process ∧ e.process.1.queue = [] ∧
      e.process.1.tables = e.tables.applyAll (taken n (e, 0)) ∧
      foreign e.params (taken n (e, 0)) = foreign e.params e.queue ∧
      ∀ vrf k p, ¬ e.params.Owns p →
        e.process.1.tables.path? vrf k p = (e.tables.applyAll e.queue).path? vrf k p := by
  have he : e.Sound := ⟨hc, ht.proper, hs⟩
  obtain ⟨hempty, n, hn, _⟩ := he.process_turns
  have htables := tables_taken he n
  have hforeign := foreign_taken he n
  rw [hn] at htables hforeign
  rw [hempty, List.append_nil] at hforeign
  refine ⟨n, hn, hempty, htables, hforeign, fun vrf k p hp => ?_⟩
  rw [htables]
  refine Tables.path?_applyAll_congr _ vrf k p ?_
  rw [← requestsFor_foreign hp, hforeign, requestsFor_foreign hp]

/-- A machine that has a network keeps it while it is exported and leaked. -/
theorem process_foreign_install :
    ({ Sample.engine with queue := [Sample.install] } : Engine).process.1.tables.path? "bridge"
      (.inet Sample.subnet) ⟨"machine", .localVm⟩ =
        some ⟨⟨"machine", .localVm⟩, .interface "tap" 3 false, {}⟩ := by
  obtain ⟨_, _, _, _, _, h⟩ := process_foreign { Sample.engine with queue := [Sample.install] }
    Sample.fromConfig Sample.filled Sample.configured.coherent.sorted
  rw [h "bridge" (.inet Sample.subnet) ⟨"machine", .localVm⟩ (by decide)]
  decide +kernel

end Engine

end VxlanRouting
