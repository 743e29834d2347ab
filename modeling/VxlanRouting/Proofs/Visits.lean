import VxlanRouting.Proofs.Settled

/-!
What a walk goes through. It visits a prefix if a bridge of the router has it in its Inet table, or
the routing VRF in either table. The directions read and write no other routes: for a prefix that is
not visited there is nothing to pass on, and nothing that has been. So once a walk asks for nothing,
no direction asks for anything in this VRF.
-/
namespace VxlanRouting

namespace Engine

/-- A bridge of the router or its routing VRF has a route to the prefix as such. -/
def Visits (e : Engine) (r : LogicalRouter) (vrf : String) (p : Prefix) : Prop :=
  (∃ b ∈ r.bridges.values, e.tables.route? b (.inet p) ≠ none) ∨
    e.tables.route? vrf (.evpn (.type5 p)) ≠ none ∨ e.tables.route? vrf (.inet p) ≠ none

theorem mem_inetPrefixes_iff {e : Engine} (ht : e.tables.Aligned) {vrf : String} {p : Prefix} :
    p ∈ e.inetPrefixes vrf ↔ e.tables.route? vrf (.inet p) ≠ none := by
  simp only [inetPrefixes, Tables.route?]
  cases hv : e.tables.vrfs.get? vrf with
  | none => simp
  | some v =>
    have hkeys : v.inet.values.map (·.dest) = v.inet.keys := by
      simp only [OrderedMap.values, OrderedMap.keys, List.map_map]
      exact List.map_congr_left fun x hx => ht vrf v hv x hx
    show p ∈ v.inet.values.map (·.dest) ↔ v.inet.get? p ≠ none
    rw [hkeys, Ne, OrderedMap.get?, Entries.get?_eq_none_iff, Decidable.not_not]
    exact Iff.rfl

theorem mem_evpnPrefixes_iff {e : Engine} {vrf : String} {p : Prefix} :
    p ∈ e.evpnPrefixes vrf ↔ e.tables.route? vrf (.evpn (.type5 p)) ≠ none := by
  simp only [evpnPrefixes, Tables.route?]
  cases hv : e.tables.vrfs.get? vrf with
  | none => simp
  | some v =>
    show p ∈ (v.evpn.keys.filter fun k => decide k.IsType5).map (·.dest) ↔
      v.evpn.get? (.type5 p) ≠ none
    rw [← ArrivalMap.mem_keys_iff, List.mem_map]
    constructor
    · rintro ⟨k, hk, rfl⟩
      obtain ⟨hmem, htype⟩ := List.mem_filter.mp hk
      rwa [← EvpnKey.isType5_iff.mp (of_decide_eq_true htype)]
    · intro hmem
      exact ⟨.type5 p, List.mem_filter.mpr ⟨hmem, decide_eq_true ⟨rfl, rfl⟩⟩, rfl⟩

theorem mem_knownPrefixes_iff {e : Engine} (ht : e.tables.Aligned) {r : LogicalRouter}
    {vrf : String} {p : Prefix} : p ∈ e.knownPrefixes r vrf ↔ e.Visits r vrf p := by
  simp only [knownPrefixes, Visits]
  rw [mem_ascending, List.mem_append, List.mem_append, List.mem_flatMap, or_assoc,
    mem_evpnPrefixes_iff, mem_inetPrefixes_iff ht]
  simp only [mem_inetPrefixes_iff ht]

/-- The duties of a router for a prefix that is not visited are idle; as a duty reads the routes of
the canonical form, this must not be visited either. -/
theorem idle_of_not_visits {e : Engine} (ht : e.tables.Aligned) {r : LogicalRouter} {σ : Duty}
    (hb : e.routers.bridgesOf σ.vrf = r.bridges.entries) (hn : ¬ e.Visits r σ.vrf σ.dest)
    (hc : ¬ e.Visits r σ.vrf σ.dest.canonical) : σ.Idle e.toView := by
  simp only [Visits, not_or, Classical.not_not] at hn hc
  obtain ⟨-, hevpn, hinet⟩ := hn
  obtain ⟨hbridge', hevpn', hinet'⟩ := hc
  refine Duty.idle_of_no_route ht (fun vrf k hk => ?_) ?_
  · simp only [Duty.Reads] at hk
    split at hk
    · obtain ⟨⟨vn, hmem⟩, rfl⟩ := hk
      rw [hb] at hmem
      exact Classical.byContradiction fun hr =>
        hbridge' ⟨vrf, List.mem_map.mpr ⟨(vn, vrf), hmem, rfl⟩, hr⟩
    · obtain ⟨rfl, rfl⟩ := hk
      exact hevpn'
    · obtain ⟨rfl, rfl⟩ := hk
      exact hinet'
  · simp only [Duty.key]
    split
    · exact hinet
    · exact hevpn

theorem run_of_idle {e : Engine} {d : Direction} {vrf : String} {p : Prefix}
    (h : Duty.Idle e.toView ⟨d, vrf, p⟩) : e.run d vrf p = e := by
  rw [run_eq_fulfil, fulfil_of_idle h]

/-! ### Steps that ask for nothing -/

/-- The engine is as it was, or its queue has become longer. -/
def Lengthens (e e' : Engine) : Prop := e' = e ∨ e.queue.length < e'.queue.length

theorem Lengthens.length_le {e e' : Engine} (h : e.Lengthens e') :
    e.queue.length ≤ e'.queue.length := by
  rcases h with rfl | h
  · exact Nat.le_refl _
  · exact Nat.le_of_lt h

theorem Lengthens.trans {e e' e'' : Engine} (h : e.Lengthens e') (h' : e'.Lengthens e'') :
    e.Lengthens e'' := by
  rcases h with rfl | h
  · exact h'
  · exact .inr (Nat.lt_of_lt_of_le h h'.length_le)

/-- If two steps together leave the queue alone, then the first one does nothing. -/
theorem Lengthens.still {e e' e'' : Engine} (h : e.Lengthens e') (h' : e'.Lengthens e'')
    (hq : e''.queue = e.queue) : e' = e := by
  rcases h with rfl | h
  · rfl
  · have hlt : e.queue.length < e''.queue.length := Nat.lt_of_lt_of_le h h'.length_le
    rw [hq] at hlt
    exact absurd hlt (Nat.lt_irrefl _)

theorem lengthens_push (e : Engine) (q : Request) : e.Lengthens (e.push q) := .inr (by simp [push])

theorem queue_nextSequence (e : Engine) (vrf : String) :
    (e.nextSequence vrf).1.queue = e.queue := by
  simp only [nextSequence]
  split <;> rfl

theorem queue_sequenceFor (e : Engine) (vrf : String) (c : NextHopKey) (found : Option Path) :
    (e.sequenceFor vrf c found).1.queue = e.queue := by
  simp only [sequenceFor]
  split
  · exact queue_nextSequence e vrf
  · split
    · rfl
    · exact queue_nextSequence e vrf

theorem lengthens_install (e : Engine) (vrf : String) (k : RouteKey) (peer : Peer)
    (found : Option Path) (a : Advertisement) : e.Lengthens (e.install vrf k peer found a) := by
  cases a with
  | single hop attrs => exact lengthens_push e _
  | tunnel t attrs => exact lengthens_push e _
  | ecmp c attrs => exact .inr (by simp [install, push, queue_sequenceFor])

theorem lengthens_sync (e : Engine) (vrf : String) (k : RouteKey) (peer : Peer)
    (want : Option Advertisement) : e.Lengthens (e.sync vrf k peer want) := by
  simp only [sync]
  split
  · exact .inl rfl
  · exact lengthens_push e _
  · exact lengthens_install e vrf k peer none _
  · split
    · exact .inl rfl
    · exact lengthens_install e vrf k peer _ _

theorem lengthens_run (e : Engine) (d : Direction) (vrf : String) (p : Prefix) :
    e.Lengthens (e.run d vrf p) := by
  rw [run_eq_fulfil]
  exact lengthens_sync e _ _ _ _

section

variable {α : Type} {f : Engine → α → Engine} (hf : ∀ (e : Engine) a, e.Lengthens (f e a))

include hf

theorem lengthens_foldl (e : Engine) (l : List α) : e.Lengthens (l.foldl f e) := by
  induction l generalizing e with
  | nil => exact .inl rfl
  | cons a l ih => exact (hf e a).trans (ih (f e a))

/-- A pass over a list that asks for nothing does nothing at any member. -/
theorem foldl_still {e : Engine} {l : List α} (hq : (l.foldl f e).queue = e.queue) :
    ∀ a ∈ l, f e a = e := by
  induction l with
  | nil => exact List.forall_mem_nil _
  | cons a l ih =>
    rw [List.foldl_cons] at hq
    have hstill : f e a = e := (hf e a).still (lengthens_foldl hf (f e a) l) hq
    rw [hstill] at hq
    exact List.forall_mem_cons.mpr ⟨hstill, ih hq⟩

end

/-- Reconciling runs all directions one after the other. -/
theorem reconcile_eq_foldl (e : Engine) (vrf : String) (p : Prefix) :
    e.reconcile vrf p =
      [.fromBridges, .toInet, .toEvpn].foldl (fun e d => e.run d vrf p) e := rfl

theorem lengthens_reconcile (e : Engine) (vrf : String) (p : Prefix) :
    e.Lengthens (e.reconcile vrf p) := by
  rw [reconcile_eq_foldl]
  exact lengthens_foldl (fun e d => lengthens_run e d vrf p) e _

theorem run_of_reconcile {e : Engine} {vrf : String} {p : Prefix}
    (h : e.reconcile vrf p = e) (d : Direction) : e.run d vrf p = e := by
  rw [reconcile_eq_foldl] at h
  refine foldl_still (fun e d => lengthens_run e d vrf p) (by rw [h]) d ?_
  cases d <;> simp

/-! ### Walks -/

/-- A walk of a router that has a routing VRF reconciles what it knows. -/
theorem walk_of_routing {e : Engine} {id : LogicalRouterId} {r : LogicalRouter} {vrf : String}
    (hr : e.routers.router? id = some r) (hv : r.routingVrf = some vrf) :
    e.walk id = (e.knownPrefixes r vrf).foldl (fun e p => e.reconcile vrf p) e := by
  simp only [walk]
  rw [hr]
  dsimp only
  rw [hv]

/-- A walk reconciles the prefixes that the bridges of the router or its routing VRF have. If no
other router has the same routing VRF, then each direction leaves the engine as it is for any other
prefix, and for every prefix if the walk asks for nothing. This is for prefixes in canonical form,
as an address and a length give them. One with further bits set is looked up as its canonical form
but has a key of its own; for such a one it holds unless the walk visits its canonical form only. -/
theorem walk_complete (e : Engine) (ht : e.tables.Aligned) {id : LogicalRouterId}
    {r : LogicalRouter} (hr : e.routers.router? id = some r) {vrf : String}
    (hv : r.routingVrf = some vrf)
    (honly : ∀ x ∈ e.routers.routers.entries, x.2.routingVrf = some vrf → x.1 = id) :
    (e.walk id = (e.knownPrefixes r vrf).foldl (fun e p => e.reconcile vrf p) e ∧
      ∀ p, p ∈ e.knownPrefixes r vrf ↔ e.Visits r vrf p) ∧
    (∀ p, ¬ e.Visits r vrf p → (p.Canonical ∨ ¬ e.Visits r vrf p.canonical) →
      ∀ d, e.run d vrf p = e) ∧
    ((e.walk id).queue = e.queue →
      ∀ p, (p.Canonical ∨ e.Visits r vrf p ∨ ¬ e.Visits r vrf p.canonical) →
        ∀ d, e.run d vrf p = e) := by
  have hb : e.routers.bridgesOf vrf = r.bridges.entries := RouterMap.bridgesOf_of_only hr hv honly
  have houtside : ∀ p, ¬ e.Visits r vrf p → (p.Canonical ∨ ¬ e.Visits r vrf p.canonical) →
      ∀ d, e.run d vrf p = e := by
    intro p hn hp d
    have hc : ¬ e.Visits r vrf p.canonical := hp.elim (fun hp => by rwa [hp.eq]) fun hc => hc
    exact run_of_idle (idle_of_not_visits ht (σ := ⟨d, vrf, p⟩) hb hn hc)
  refine ⟨⟨walk_of_routing hr hv, fun p => mem_knownPrefixes_iff ht⟩, houtside,
    fun hq p hp => ?_⟩
  by_cases hvis : e.Visits r vrf p
  · rw [walk_of_routing hr hv] at hq
    have hstill : e.reconcile vrf p = e := foldl_still (fun e p => lengthens_reconcile e vrf p) hq p
      ((mem_knownPrefixes_iff ht).mpr hvis)
    exact run_of_reconcile hstill
  · exact houtside p hvis (hp.imp_right fun h => h.resolve_left hvis)

end Engine

namespace Sample

/-- The engine after a walk has passed the machine's network on. -/
def walked : Engine := (served.walk router).process.1

/-- The router with both of its VNs. -/
def linked : LogicalRouter :=
  { routingVn := some "routing-vn", routingVrf := some "routing",
    bridges := ⟨[("bridge-vn", "bridge")]⟩ }

/-- One address of the machine's network. -/
def machine : Prefix := .host ⟨.v4, 0x0a010107, by decide⟩

end Sample

namespace Engine

/-- There is nothing more to do when the machine's network has been passed on, nor was there ever
for an address of it. -/
theorem walk_complete_walked :
    (Sample.served.walk Sample.router).queue ≠ [] ∧
      (∀ d, Sample.served.run d "routing" Sample.machine = Sample.served) ∧
      ∀ p : Prefix, p.Canonical → ∀ d, Sample.walked.run d "routing" p = Sample.walked := by
  have hserved : Sample.served.tables.Aligned := (Sample.filled.apply Sample.install).proper.aligned
  have hwalked : Sample.walked.tables.Aligned := Tables.aligned_of_vrfs (by decide +kernel)
  have hrouter : Sample.served.routers.router? Sample.router = some Sample.linked := by
    decide +kernel
  have hrouter' : Sample.walked.routers.router? Sample.router = some Sample.linked := by
    decide +kernel
  have hunknown : Sample.machine ∉ Sample.served.knownPrefixes Sample.linked "routing" := by
    decide +kernel
  refine ⟨by decide +kernel, ?_, fun p hp => ?_⟩
  · exact (walk_complete Sample.served hserved hrouter rfl (by decide +kernel)).2.1 Sample.machine
      (mt (mem_knownPrefixes_iff hserved).mpr hunknown) (.inl (by decide))
  · exact (walk_complete Sample.walked hwalked hrouter' rfl (by decide +kernel)).2.2
      (by decide +kernel) p (.inl hp)

end Engine

end VxlanRouting
