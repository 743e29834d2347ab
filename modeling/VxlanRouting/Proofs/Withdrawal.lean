import VxlanRouting.Proofs.Events
import VxlanRouting.Proofs.PathHistory

/-!
A VRF that has ceased to be a routing VRF. All that the engine owns there is withdrawn, each path by
one request, and nothing that is asked for while these are processed is for this VRF. So its routes
are left with the paths of other peers in their order, those that have none are gone, and nowhere do
other peers lose anything.
-/
namespace VxlanRouting

/-- Withdrawals take away the paths that they are for and no others. -/
theorem Tables.path?_applyAll_of_withdraw (db : Tables) {l : List Request}
    (h : ∀ q ∈ l, q.action = .withdraw) (vrf : String) (k : RouteKey) (p : Peer) :
    (db.applyAll l).path? vrf k p =
      if ∃ q ∈ l, (q.vrf, q.key, q.peer) = (vrf, k, p) then none else db.path? vrf k p := by
  induction l generalizing db with
  | nil => exact (if_neg (by simp)).symm
  | cons q l ih =>
    have hq : q.action = .withdraw := h q List.mem_cons_self
    rw [applyAll_cons, ih _ fun r hr => h r (List.mem_cons_of_mem _ hr)]
    by_cases he : (q.vrf, q.key, q.peer) = (vrf, k, p)
    · have hex : ∃ r ∈ q :: l, (r.vrf, r.key, r.peer) = (vrf, k, p) := ⟨q, List.mem_cons_self, he⟩
      rw [if_pos hex]
      simp only [Prod.mk.injEq] at he
      obtain ⟨rfl, rfl, rfl⟩ := he
      rw [path?_apply_of_withdraw hq, ite_self]
    · rw [path?_apply_of_ne db q fun he' => he he'.symm]
      simp only [List.mem_cons, exists_eq_or_imp, he, false_or]

namespace Engine

variable {e : Engine}

/-- On a route, each of the engine's peers withdraws at most once. -/
theorem nodup_withdrawals (hc : e.params.FromConfig) (vrf : String) (k : RouteKey) (r : Route) :
    (e.withdrawals vrf k r).Nodup := by
  have hpeers : [e.params.exportPeer, e.params.leakPeer].Nodup := by simp [hc.peers_ne]
  exact List.pairwise_map.mpr ((hpeers.filter _).imp fun hne he => hne (Request.mk.inj he).2.2.1)

theorem nodup_withdrawAll (hc : e.params.FromConfig) (ht : e.tables.Filled) (hq : e.queue = [])
    (vrf : String) : (e.withdrawAll vrf).queue.Nodup := by
  simp only [withdrawAll]
  cases hv : e.tables.vrfs.get? vrf with
  | none =>
    dsimp only
    rw [hq]
    exact List.nodup_nil
  | some v =>
    have hkeys := ht.distinct.nodup_keys_routes hv
    dsimp only
    rw [hq, List.nil_append]
    refine List.pairwise_flatMap.mpr ⟨fun r _ => nodup_withdrawals hc vrf r.1 r.2, ?_⟩
    refine (List.pairwise_map.mp hkeys).imp fun hne q hq q' hq' he => hne ?_
    obtain ⟨_, _, _, rfl⟩ := mem_withdrawals.mp hq
    obtain ⟨_, _, _, rfl⟩ := mem_withdrawals.mp hq'
    exact (Request.mk.inj he).2.1

/-- The requests are the withdrawals of all paths that the engine owns in the VRF. -/
theorem mem_withdrawAll (ht : e.tables.Filled) (hq : e.queue = []) {vrf : String} {q : Request} :
    q ∈ (e.withdrawAll vrf).queue ↔ q.action = .withdraw ∧ q.vrf = vrf ∧ e.params.Owns q.peer ∧
      e.tables.path? vrf q.key q.peer ≠ none := by
  simp only [withdrawAll]
  cases hv : e.tables.vrfs.get? vrf with
  | none =>
    have hnone : e.tables.path? vrf q.key q.peer = none := by
      rw [Tables.path?, Tables.route?, hv]
      rfl
    simp [hq, hnone]
  | some v =>
    have hpath : e.tables.path? vrf q.key q.peer =
        (v.route? q.key).bind (·.find? q.peer) := by
      rw [Tables.path?, Tables.route?, hv, Option.bind_some]
    dsimp only
    rw [hq, List.nil_append, List.mem_flatMap, hpath]
    constructor
    · rintro ⟨⟨k, r⟩, hr, hmem⟩
      obtain ⟨p, hp, hf, rfl⟩ := mem_withdrawals.mp hmem
      refine ⟨rfl, rfl, hp, ?_⟩
      rw [ht.distinct.route?_of_mem_routes hv hr]
      exact Option.isSome_iff_ne_none.mp hf
    · rintro ⟨ha, rfl, hp, hf⟩
      obtain ⟨x, hx⟩ := Option.ne_none_iff_exists'.mp hf
      obtain ⟨r, hr, hx⟩ := Option.bind_eq_some_iff.mp hx
      refine ⟨(q.key, r), Vrf.mem_routes hr, mem_withdrawals.mpr ⟨q.peer, hp, ?_, ?_⟩⟩
      · rw [hx]
        rfl
      · rw [← ha]

/-- What is awaited after the withdrawals: the engine's paths are gone from the VRF. -/
theorem awaited_withdrawAll (ht : e.tables.Filled) (hq : e.queue = []) (vrf vrf' : String)
    (k : RouteKey) (p : Peer) : (e.withdrawAll vrf).awaited vrf' k p =
      if vrf' = vrf ∧ e.params.Owns p then none else e.tables.path? vrf' k p := by
  have hview : (e.withdrawAll vrf).toView = e.toView := (e.withdrawAll_withdraws vrf).view
  have hmem := @mem_withdrawAll e ht hq vrf
  have htables : (e.withdrawAll vrf).tables = e.tables := congrArg View.tables hview
  simp only [awaited]
  rw [htables, Tables.path?_applyAll_of_withdraw _ fun q hq => (hmem.mp hq).1]
  by_cases hown : vrf' = vrf ∧ e.params.Owns p
  · obtain ⟨rfl, hp⟩ := hown
    rw [if_pos (c := vrf' = vrf' ∧ _) ⟨rfl, hp⟩]
    by_cases hn : e.tables.path? vrf' k p = none
    · rw [hn, ite_self]
    · exact if_pos ⟨⟨vrf', k, p, .withdraw⟩, hmem.mpr ⟨rfl, rfl, hp, hn⟩, rfl⟩
  · rw [if_neg hown, if_neg]
    rintro ⟨q, hq, he⟩
    obtain ⟨_, hv, hp, _⟩ := hmem.mp hq
    simp only [Prod.mk.injEq] at he
    exact hown ⟨he.1 ▸ hv, he.2.2 ▸ hp⟩

theorem sound_withdrawAll (hc : e.params.FromConfig) (ht : e.tables.Filled)
    (hs : e.routers.routers.Sorted) (vrf : String) : (e.withdrawAll vrf).Sound :=
  .of_level (v := e.toView) hc ht.proper hs ((e.withdrawAll_withdraws vrf).view ▸ .refl e.toView)

section

variable (hc : e.params.FromConfig) (ht : e.tables.Filled) (hs : e.routers.routers.Sorted)
  (hq : e.queue = []) {vrf : String} (hv : ¬ e.routers.Serves vrf)

include hc ht hs hq hv

/-- No duty of a served VRF is about the paths of the VRF or those of other peers, so all of these
end as the withdrawals leave them. -/
theorem path?_process_withdrawAll {vrf' : String} {p : Peer}
    (hp : vrf' = vrf ∨ ¬ e.params.Owns p) (k : RouteKey) :
    (e.withdrawAll vrf).process.1.tables.path? vrf' k p =
      if vrf' = vrf ∧ e.params.Owns p then none else e.tables.path? vrf' k p := by
  have hview : (e.withdrawAll vrf).toView = e.toView := (e.withdrawAll_withdraws vrf).view
  rw [← awaited_withdrawAll ht hq]
  refine (sound_withdrawAll hc ht hs vrf).path?_process fun σ hσ he => ?_
  rw [congrArg View.routers hview] at hσ
  rw [congrArg View.params hview] at he
  simp only [Prod.mk.injEq] at he
  rcases hp with rfl | hp
  · exact hv (he.1 ▸ hσ)
  · exact hp (he.2.2 ▸ σ.owns_peer e.params)

/-- The routes of the VRF keep the paths of other peers in their order. -/
theorem paths_process_withdrawAll (k : RouteKey) :
    (e.withdrawAll vrf).process.1.tables.paths vrf k =
      (e.tables.paths vrf k).filter fun x => ¬ e.params.Owns x.peer := by
  have hproper := (sound_withdrawAll hc ht hs vrf).process.1.proper
  refine Route.Ranked.ext (hproper.ranked vrf k) ((ht.proper.ranked vrf k).filter _) fun p => ?_
  rw [← Tables.path?_eq_find?, path?_process_withdrawAll hc ht hs hq hv (.inl rfl),
    List.find?_filter]
  by_cases hp : e.params.Owns p
  · rw [if_pos ⟨rfl, hp⟩]
    refine (List.find?_eq_none.mpr fun x _ hx => ?_).symm
    simp only [decide_not, Bool.not_eq_eq_eq_not, Bool.not_true, decide_eq_false_iff_not,
      decide_eq_true_eq] at hx
    exact hx.1 (hx.2 ▸ hp)
  · rw [if_neg fun h => hp h.2, Tables.path?_eq_find?]
    refine find?_congr_of_mem fun x _ => ?_
    by_cases hx : x.peer = p
    · simp [hx, hp]
    · simp [hx]

end

/-- What the engine owns in a VRF that serves no router is withdrawn by one request for each path,
and no other request is made. When they have been processed, every route of the VRF is left with the
paths of other peers, in their order, and is there only if it has some; and no path of another peer
has changed in any VRF. A VRF is taken for a routing VRF only if it serves a router, so no more is
assumed of this one. -/
theorem withdrawAll_process (e : Engine) (hc : e.params.FromConfig) (ht : e.tables.Filled)
    (hs : e.routers.routers.Sorted) (hq : e.queue = []) (vrf : String)
    (hv : ¬ e.routers.Serves vrf) :
    (e.withdrawAll vrf).toView = e.toView ∧ (e.withdrawAll vrf).queue.Nodup ∧
      (∀ q, q ∈ (e.withdrawAll vrf).queue ↔ q.action = .withdraw ∧ q.vrf = vrf ∧
        e.params.Owns q.peer ∧ e.tables.path? vrf q.key q.peer ≠ none) ∧
      (e.withdrawAll vrf).process.1.queue = [] ∧
      (∀ k, (e.withdrawAll vrf).process.1.tables.paths vrf k =
        (e.tables.paths vrf k).filter fun x => ¬ e.params.Owns x.peer) ∧
      (∀ k, (e.withdrawAll vrf).process.1.tables.route? vrf k = none ↔
        ∀ x ∈ e.tables.paths vrf k, e.params.Owns x.peer) ∧
      ∀ vrf' k p, ¬ e.params.Owns p →
        (e.withdrawAll vrf).process.1.tables.path? vrf' k p = e.tables.path? vrf' k p := by
  have hsound := sound_withdrawAll hc ht hs vrf
  have hpaths := paths_process_withdrawAll hc ht hs hq hv
  refine ⟨(e.withdrawAll_withdraws vrf).view, nodup_withdrawAll hc ht hq vrf,
    fun q => mem_withdrawAll ht hq, hsound.process_turns.1, hpaths, fun k => ?_,
    fun vrf' k p hp => ?_⟩
  · rw [hsound.process.1.proper.route?_eq, hpaths, ite_eq_left_iff]
    simp [List.filter_eq_nil_iff]
  · rw [path?_process_withdrawAll hc ht hs hq hv (.inr hp), if_neg fun h => hp h.2]

end Engine

namespace Sample

/-- The routing VRF when its router is gone; a control node has a route there as well. -/
def released : Engine :=
  { passedOn with tables := (passedOn.tables.apply control).1, routers := {} }

end Sample

namespace Engine

/-- The export goes from the side of the control node's path, and the leaked route goes. -/
theorem withdrawAll_process_released :
    (Sample.released.withdrawAll "routing").queue.length = 2 ∧
      ((Sample.released.withdrawAll "routing").process.1.tables.paths "routing"
        (.evpn (.type5 Sample.subnet))).map (·.peer) = [Sample.control.peer] ∧
      (Sample.released.withdrawAll "routing").process.1.tables.route? "routing"
        (.inet Sample.subnet) = none := by
  obtain ⟨_, _, _, _, hpaths, hroute, _⟩ := withdrawAll_process Sample.released Sample.fromConfig
    (Sample.filled_passedOn.apply Sample.control) OrderedMap.sorted_empty rfl "routing"
    (by rintro ⟨_, _, h, _⟩; cases h)
  refine ⟨by decide +kernel, ?_, (hroute _).mpr (by decide +kernel)⟩
  rw [hpaths]
  decide +kernel

end Engine

end VxlanRouting
