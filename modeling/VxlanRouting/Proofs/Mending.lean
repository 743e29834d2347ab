import VxlanRouting.Proofs.Snapshot

/-!
A walk of all routers where every export is as decided. What the walk asks for is what leaks between
the two tables of routing VRFs. The engine applies that under its own leak peer, which no decision
of a routing VRF listens to, so that all decisions stay: one walk brings every duty to rest.
-/
namespace VxlanRouting

namespace View

/-- The request is for what leaks within a served VRF, or for a prefix in no canonical form. -/
structure Mild (v : View) (q : Request) : Prop where
  served : v.routers.Serves q.vrf
  own : v.params.Owns q.peer
  leak : q.peer = v.params.leakPeer ∨ ¬ q.key.dest.Canonical

theorem Mild.of_akin {v w : View} (h : v.Akin w) {q : Request} (hq : v.Mild q) : w.Mild q :=
  ⟨(RouterMap.serves_congr h.routers _).mpr hq.served, h.params ▸ hq.own, h.params ▸ hq.leak⟩

/-- No decision changes by a mild request. -/
theorem Applies.want_of_mild {v w : View} {q : Request} (h : v.Applies w q)
    (hc : v.params.FromConfig) (hv : v.tables.Proper) (hm : v.routers.Coherent)
    (ha : v.routers.Apart) (hq : v.Mild q) {σ : Duty} (hσ : v.Has σ) : σ.want w = σ.want v := by
  have hkind : q.peer.kind ≠ .bgp := hc.ne_bgp_of_owns hq.own
  have hh : v.SameHost w := h.sameHost hv (.inr hkind)
  rcases hq.leak with hleak | hcanon
  · obtain ⟨d, R, p⟩ := σ
    cases d with
    | fromBridges =>
      refine h.want_of_not_reads hv hh ?_
      rintro ⟨⟨vn, hb⟩, _⟩
      obtain ⟨id, r, hr, _, hget⟩ := hm.mem_bridgesOf ha hσ.1 hb
      exact hm.not_serves_bridge ha hr hget hq.served
    | toInet => exact h.want_toInet hv hh hleak R p
    | toEvpn => exact h.want_toEvpn hv hkind R p
  · refine h.want_of_not_reads hv hh fun hread => hcanon ?_
    rw [Duty.dest_of_reads hσ.2 hread]
    exact hσ.2

/-- What a change in a served VRF feeds is no export. -/
theorem direction_of_fed? {v : View} (ht : v.tables.Proper) (hm : v.routers.Coherent)
    (ha : v.routers.Apart) {vrf : String} (hs : v.routers.Serves vrf) {k : RouteKey} {σ : Duty}
    (h : v.fed? vrf k = some σ) : σ.direction ≠ .fromBridges := by
  rcases fed?_cases ht h with ⟨_, _, _, rfl⟩ | ⟨_, _, _, rfl⟩ | ⟨_, _, b, _, _, hb, hof, _⟩
  · simp
  · simp
  · obtain ⟨vn, id, r, hr, hget, _⟩ := RouterMap.bridge_of_routingVrfOf? hof
    rw [ht.name_bare? hb] at hget
    exact absurd hs (hm.not_serves_bridge ha hr hget)

end View

namespace Engine

/-- Where the processing of a walk has got to. -/
structure Mends (e : Engine) : Prop where
  mild : ∀ q ∈ e.queue, e.Mild q
  promised : ∀ σ, e.Has σ → e.Promised σ

theorem Mends.turn {e : Engine} (h : e.Mends) (he : e.Sound) (hm : e.routers.Coherent)
    (ha : e.routers.Apart) {q : Request} {rest : List Request} (hq : e.queue = q :: rest)
    (n : Nat) : (turn (e, n)).1.Mends := by
  obtain ⟨happ, _⟩ := turn_spec he hq n
  have hmild : e.Mild q := h.mild q (hq ▸ List.mem_cons_self)
  refine ⟨fun r hr => .of_akin happ.akin ?_, fun σ hσ => ?_⟩
  · rcases mem_queue_turn he hq n hr with hr | ⟨τ, ⟨q', rest', hq', _, hfed⟩, hof, _⟩
    · exact h.mild r (hq ▸ List.mem_cons_of_mem q hr)
    · rw [hq] at hq'
      cases hq'
      have hpeer : r.peer = e.params.leakPeer := hof.2.2.trans <|
        τ.peer_of_direction_ne _ (View.direction_of_fed? he.proper hm ha hmild.served hfed)
      exact ⟨hof.1 ▸ View.serves_of_fed? he.proper hfed, .inr hpeer, .inl hpeer⟩
  · have hσ : e.Has σ := (happ.akin.has_iff σ).mp hσ
    exact promised_turn_of_want_eq he hq n
      (happ.want_of_mild he.config he.proper hm ha hmild hσ) (h.promised σ hσ)

/-- The engine that walks all its routers. -/
def walkThrough (e : Engine) : Engine := e.walkAll e.routers.ids

section

variable {e : Engine} (he : e.Sound) (hm : e.routers.Coherent) (ha : e.routers.Apart)
  (hq : e.queue = [])
  (hidle : ∀ σ, e.Has σ → σ.direction = .fromBridges → σ.Idle e.toView)

include he hm ha hq hidle

theorem mends_walkThrough : e.walkThrough.Sound ∧ e.toView.Akin e.walkThrough.toView ∧
    e.SameHost e.walkThrough.toView ∧ e.walkThrough.Mends := by
  have hg := (walkAll_grows (v := e.toView) hm he.proper (.refl e.toView) e.routers.ids).1
  have hl : e.toView.Level e.walkThrough.toView := hg.toLevel
  have hakin : e.toView.Akin e.walkThrough.toView := hl.akin
  have hsound : e.walkThrough.Sound := .of_level he.config he.proper he.sorted hl
  have hdecided : ∀ q ∈ e.walkThrough.queue, e.Decided q := by
    intro q hmem
    rcases hg.mem_queue.2 hmem with hmem | hd
    · rw [hq] at hmem
      cases hmem
    · exact hd
  refine ⟨hsound, hakin, hl.sameHost, fun q hmem => ?_, fun σ hσ => ?_⟩
  · obtain ⟨τ, hserves, hof, _, hbusy⟩ := hdecided q hmem
    refine .of_akin hakin ⟨hof.1 ▸ hserves, hof.2.2 ▸ τ.owns_peer _, ?_⟩
    by_cases hd : τ.direction = .fromBridges
    · right
      rw [hof.2.1, Duty.dest_key]
      exact fun hcanon => hbusy (hidle τ ⟨hserves, hcanon⟩ hd)
    · exact .inl (hof.2.2.trans (τ.peer_of_direction_ne _ hd))
  · refine promised_of_asked hsound (fun q hmem hof => ?_) ?_
    · obtain ⟨τ, _, hτ, hask, _⟩ := hdecided q hmem
      rw [hl.params] at hof
      cases hτ.unique he.config.peers_ne hof
      exact hl.want_eq he.proper _ ▸ hask
    · exact covers_walkAll_ids hm he.proper (.refl e.toView) ha ((hakin.has_iff σ).mp hσ)

/-- If every export is as decided, a walk of all routers brings all duties to rest; nothing new is
learnt of the host. -/
theorem idle_of_walkThrough : e.walkThrough.process.1.Sound ∧
    e.walkThrough.process.1.queue = [] ∧ e.toView.Akin e.walkThrough.process.1.toView ∧
      e.SameHost e.walkThrough.process.1.toView ∧
      ∀ σ, e.Has σ → σ.Idle e.walkThrough.process.1.toView := by
  obtain ⟨hsound, hakin, hhost, hmends⟩ := mends_walkThrough he hm ha hq hidle
  have hempty := hsound.process_turns.1
  obtain ⟨hend, hakin', hhost', hmends'⟩ :=
    hsound.process_induction (P := fun e' => e.SameHost e'.toView ∧ e'.Mends) ⟨hhost, hmends⟩
      fun e' r rest n hs hakin' hq' hP => by
        obtain ⟨hh, h⟩ := hP
        have hrouters := (hakin.trans hakin').routers
        have hmild : e'.Mild r := h.mild r (hq' ▸ List.mem_cons_self)
        refine ⟨hh.trans ((turn_spec hs hq' n).1.sameHost hs.proper (.inr ?_)),
          h.turn hs (hm.of_bare_eq hrouters) ((RouterMap.apart_congr hrouters).mpr ha) hq' n⟩
        exact hs.config.ne_bgp_of_owns hmild.own
  refine ⟨hend, hempty, hakin.trans hakin', hhost', fun σ hσ => ?_⟩
  rw [← promised_iff_idle hempty]
  exact hmends'.promised σ (((hakin.trans hakin').has_iff σ).mpr hσ)

end

end Engine

end VxlanRouting
