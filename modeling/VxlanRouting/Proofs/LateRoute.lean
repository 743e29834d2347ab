import VxlanRouting.Proofs.Batch
import VxlanRouting.Proofs.Mending
import VxlanRouting.Proofs.Tunnels

/-!
A route to another router comes late. The hardware address of a router is looked up when a tunnel to
it is passed on, and no direction is run again because the fabric route changes. So when such a
route comes, changes or goes in a state at rest, all is at rest again but the tunnels to this router
that have no address of their own; these keep what they were given. A walk of all routers gives them
what is known now, whichever of the two routes came first.
-/
namespace VxlanRouting

/-- The request is for a control node's path on the host route to a router in the fabric VRF. -/
structure Request.TellsOf (q : Request) (p : Parameters) (a : Address) : Prop where
  vrf : q.vrf = p.fabricVrf
  key : q.key = .inet (.host a)
  bgp : q.peer.kind = .bgp

namespace View

theorem SameHost.but {v w : View} (h : v.SameHost w) (a : Address) : v.SameHostBut w a :=
  ⟨h.vm, fun b _ => h.mac b⟩

/-- A host route tells of the hardware address of its own router only. -/
theorem Applies.sameHostBut {v w : View} {q : Request} (h : v.Applies w q) (hv : v.tables.Proper)
    {a : Address} (hq : q.key = .inet (.host a)) : v.SameHostBut w a := by
  refine ⟨fun name => ?_, fun b hb => ?_⟩
  · simp only [Tables.IsVm]
    rw [h.interfaces]
  · rw [routerMac?_eq hv, routerMac?_eq (h.proper hv), h.params, h.paths_of_ne]
    intro he
    have hk : RouteKey.inet (.host b) = .inet (.host a) := (Prod.mk.inj he).2.trans hq
    exact hb (congrArg Prefix.address (RouteKey.inet.inj hk))

/-- Only in a VRF with an attached VN do changes feed a duty. -/
theorem attached_of_fed? {v : View} (ht : v.tables.Proper) {vrf : String} {k : RouteKey}
    {σ : Duty} (h : v.fed? vrf k = some σ) : ∃ vn, v.routers.Attached vn vrf := by
  have hrouting : v.Routing vrf → ∃ vn, v.routers.Attached vn vrf := by
    rintro ⟨b, hb, vn, _, id, _, r, hr, hvn, hv⟩
    rw [ht.name_bare? hb] at hv
    exact ⟨vn, id, r, hr, .inl ⟨hvn, hv⟩⟩
  rcases fed?_cases ht h with ⟨hr, _⟩ | ⟨hr, _⟩ | ⟨_, p, b, R, _, hb, hof, _⟩
  · exact hrouting hr
  · exact hrouting hr
  · obtain ⟨vn, id, r, hr, hget, _⟩ := RouterMap.bridge_of_routingVrfOf? hof
    exact ⟨vn, id, r, hr, .inr (ht.name_bare? hb ▸ hget)⟩

/-- A duty reads Inet routes in VRFs with an attached VN only. -/
theorem attached_of_reads {v : View} (hm : v.routers.Coherent) (ha : v.routers.Apart) {σ : Duty}
    (hσ : v.Has σ) {vrf : String} {p : Prefix} (h : σ.Reads v.routers vrf (.inet p)) :
    ∃ vn, v.routers.Attached vn vrf := by
  simp only [Duty.Reads] at h
  split at h
  · obtain ⟨⟨vn, hb⟩, _⟩ := h
    obtain ⟨id, r, hr, _, hget⟩ := hm.mem_bridgesOf ha hσ.1 hb
    exact ⟨vn, id, r, hr, .inr hget⟩
  · cases h.2
  · obtain ⟨id, r, hr, hv⟩ := hσ.1
    obtain ⟨vn, _, hat, _⟩ := hm.attached_routing hr hv
    exact ⟨vn, h.1 ▸ hat⟩

end View

namespace Engine

/-- The path of the duty is what it was although the address that its tunnel lacks has changed. -/
structure Waits (e e' : Engine) (σ : Duty) (a : Address) : Prop where
  seeks : σ.Seeks e'.toView a
  changed : e'.routerMac? a ≠ e.routerMac? a
  kept : e'.awaited σ.vrf σ.key (σ.peer e.params) = σ.found e.toView

/-- Where the processing of the request for the fabric route has got to. -/
structure Late (e : Engine) (q : Request) (a : Address) (e' : Engine) : Prop where
  own : ∀ r ∈ e'.queue, r = q ∨ e.Wired ∧ e.params.Owns r.peer
  single : (dests e'.queue).Nodup
  early : q ∈ e'.queue → e'.queue = [q] ∧ e'.routerMac? a = e.routerMac? a ∧
    ∀ σ : Duty, e'.awaited σ.vrf σ.key (σ.peer e.params) = σ.found e.toView
  duty : ∀ σ, e.Has σ → e'.Promised σ ∨ e.Waits e' σ a

section

variable {e : Engine} {q : Request} {a : Address} (he : e.Sound)
  (htells : q.TellsOf e.params a)

include he htells

theorem not_owns_of_tellsOf : ¬ e.params.Owns q.peer :=
  fun h => he.config.ne_bgp_of_owns h htells.bgp

theorem late_send (hq : e.queue = []) (hquiet : ∀ σ, e.Has σ → σ.Idle e.toView) :
    e.Late q a (e.send [q]) := by
  have hqueue : (e.send [q]).queue = [q] := by
    simp only [send]
    rw [hq, List.nil_append]
  have hawaited : ∀ σ : Duty,
      (e.send [q]).awaited σ.vrf σ.key (σ.peer e.params) = σ.found e.toView := by
    intro σ
    simp only [awaited]
    rw [hqueue]
    refine Tables.path?_applyAll_of_ne _ fun r hr heq => ?_
    rw [List.mem_singleton.mp hr] at heq
    simp only [Prod.mk.injEq] at heq
    exact not_owns_of_tellsOf he htells (heq.2.2 ▸ σ.owns_peer e.params)
  refine ⟨fun r hr => ?_, ?_, fun _ => ⟨hqueue, rfl, hawaited⟩, fun σ hσ => .inl ?_⟩
  · rw [hqueue] at hr
    exact .inl (List.mem_singleton.mp hr)
  · rw [hqueue]
    exact List.pairwise_singleton _ _
  · simp only [Promised]
    rw [show (e.send [q]).params = e.params from rfl, hawaited]
    exact hquiet σ hσ

end

section

variable {e e' : Engine} {q : Request} {a : Address} (hm : e.routers.Coherent)
  (ha : e.routers.Apart) (htells : q.TellsOf e.params a)
  (hcarry : (∃ vn, e.routers.Attached vn q.vrf) → e.Wired) (h : e.Late q a e') (hs : e'.Sound)
  (hakin : e.toView.Akin e'.toView)

include hm ha htells hcarry h hs hakin in
/-- The route that a duty reads and the next request is for, feeds this duty. -/
theorem Late.fed?_of_reads {r : Request} (hr : r ∈ e'.queue) {σ : Duty} (hσ : e.Has σ)
    (hread : σ.Reads e'.routers r.vrf r.key) (hb : e'.tables.bare? r.vrf ≠ none) :
    e'.fed? r.vrf r.key = some σ := by
  have hσ' : e'.Has σ := (hakin.has_iff σ).mpr hσ
  have hw : e.Wired := by
    rcases h.own r hr with rfl | ⟨hw, _⟩
    · rw [htells.key] at hread
      have hapart : e'.routers.Apart := (RouterMap.apart_congr hakin.routers).mpr ha
      obtain ⟨vn, hat⟩ := View.attached_of_reads (hm.of_bare_eq hakin.routers) hapart hσ' hread
      exact hcarry ⟨vn, (RouterMap.attached_congr hakin.routers _ _).mp hat⟩
    · exact hw
  exact (hw.of_akin hakin).fed?_of_reads hs.proper hσ' hread hb

variable (he : e.Sound) {r : Request} {rest : List Request} (hq : e'.queue = r :: rest) (n : Nat)

include hcarry h hs hakin hq

/-- What a turn asks for, it asks for under a peer of the engine. -/
theorem Late.queue_turn : ∀ s ∈ (Engine.turn (e', n)).1.queue,
    s ∈ rest ∨ e.Wired ∧ e.params.Owns s.peer := by
  intro s hmem
  rcases mem_queue_turn hs hq n hmem with hmem | ⟨τ, ⟨r', rest', hq', _, hfed⟩, hof, _⟩
  · exact .inl hmem
  · rw [hq] at hq'
    cases hq'
    refine .inr ⟨?_, ?_⟩
    · rcases h.own r (hq ▸ List.mem_cons_self) with rfl | ⟨hw, _⟩
      · obtain ⟨vn, hat⟩ := View.attached_of_fed? hs.proper hfed
        exact hcarry ⟨vn, (RouterMap.attached_congr hakin.routers _ _).mp hat⟩
      · exact hw
    · rw [hof.2.2, hakin.params]
      exact τ.owns_peer _

omit hcarry hakin in
include he htells in
/-- A turn changes at most what is known of the one router, and only if it applies the request for
the fabric route. -/
theorem Late.host_turn : e'.SameHostBut (Engine.turn (e', n)).1.toView a ∧
    (r ≠ q → (Engine.turn (e', n)).1.routerMac? a = e'.routerMac? a) := by
  obtain ⟨happ, _⟩ := turn_spec hs hq n
  rcases h.own r (hq ▸ List.mem_cons_self) with rfl | ⟨_, hown⟩
  · exact ⟨happ.sameHostBut hs.proper htells.key, fun hne => absurd rfl hne⟩
  · have hsame : e'.SameHost (Engine.turn (e', n)).1.toView :=
      happ.sameHost hs.proper (.inr (he.config.ne_bgp_of_owns hown))
    exact ⟨hsame.but a, fun _ => (hsame.mac a).symm⟩

include hm ha htells he

/-- A turn keeps a duty promised, unless it changes what the duty looks up; a duty that waits goes
on waiting until it is decided again. -/
theorem Late.duty_turn {σ : Duty} (hσ : e.Has σ) :
    (Engine.turn (e', n)).1.Promised σ ∨ e.Waits (Engine.turn (e', n)).1 σ a := by
  obtain ⟨happ, _⟩ := turn_spec hs hq n
  obtain ⟨hbut, hmac⟩ := h.host_turn htells hs he hq n
  have hhead : r ∈ e'.queue := hq ▸ List.mem_cons_self
  by_cases hd : e'.Decides σ
  · left
    rw [promised_turn_of_decides hs hq n hd]
    exact not_overtaken_of_nodup hs h.single hd n
  · have hread : ∀ vrf k, σ.Reads e'.routers vrf k →
        (Engine.turn (e', n)).1.tables.paths vrf k = e'.tables.paths vrf k := fun vrf k hk =>
      paths_turn_of_not_decides hs hq n hd
        (fun hk hb => h.fed?_of_reads hm ha htells hcarry hs hakin hhead hσ hk hb) hk
    have hseeks : σ.Seeks (Engine.turn (e', n)).1.toView a ↔ σ.Seeks e'.toView a := by
      simp only [Duty.Seeks]
      rw [Duty.tunnel?_congr happ.params hbut.vm σ hread]
    have hawaited := awaited_turn_of_not_decides hs hq n hd
    rw [hakin.params] at hawaited
    rcases h.duty σ hσ with hp | hw
    · by_cases hkeep : σ.Seeks e'.toView a →
          e'.routerMac? a = (Engine.turn (e', n)).1.routerMac? a
      · left
        refine (promised_turn_iff_of_want_eq hs hq n hd ?_).mpr hp
        exact Duty.want_congr_but hs.proper (happ.proper hs.proper) happ.params hbut hkeep
          (happ.bridgesOf _) (by rw [happ.bare?]) hread
      · right
        obtain ⟨hseek, hchanged⟩ := Classical.not_imp.mp hkeep
        have hrq : r = q := Classical.byContradiction fun hne => hchanged (hmac hne).symm
        obtain ⟨_, hearly, hkept⟩ := h.early (hrq ▸ hhead)
        exact ⟨hseeks.mpr hseek, hearly ▸ Ne.symm hchanged, hawaited.trans (hkept σ)⟩
    · have hne : r ≠ q := by
        rintro rfl
        exact hw.changed (h.early hhead).2.1
      exact .inr ⟨hseeks.mpr hw.seeks, hmac hne ▸ hw.changed, hawaited.trans hw.kept⟩

theorem Late.turn : e.Late q a (Engine.turn (e', n)).1 := by
  have hrest : ∀ s ∈ rest, s ∈ e'.queue := fun s hmem => hq ▸ List.mem_cons_of_mem r hmem
  refine ⟨fun s hmem => ?_, nodup_dests_turn hs h.single n, fun hmem => ?_,
    fun σ hσ => h.duty_turn hm ha htells hcarry hs hakin he hq n hσ⟩
  · rcases h.queue_turn hcarry hs hakin hq n s hmem with hmem | hnew
    · exact h.own s (hrest s hmem)
    · exact .inr hnew
  · rcases h.queue_turn hcarry hs hakin hq n q hmem with hmem | ⟨_, hown⟩
    · have hall := (h.early (hrest q hmem)).1
      rw [hq] at hall
      cases hall
      cases hmem
    · exact absurd hown (not_owns_of_tellsOf he htells)

omit h hs hakin hq

/-- The processing ends where all duties are at rest but those that wait. -/
theorem late_process (hq : e.queue = []) (hquiet : ∀ σ, e.Has σ → σ.Idle e.toView) :
    (e.send [q]).process.1.Sound ∧ (e.send [q]).process.1.queue = [] ∧
      e.toView.Akin (e.send [q]).process.1.toView ∧
      ∀ σ, e.Has σ → σ.Idle (e.send [q]).process.1.toView ∨ e.Waits (e.send [q]).process.1 σ a := by
  have hsent : (e.send [q]).Sound := ⟨he.config, he.proper, he.sorted⟩
  have hempty := hsent.process_turns.1
  obtain ⟨hend, hakin, hlate⟩ := hsent.process_induction (P := e.Late q a)
    (late_send he htells hq hquiet) fun e' r rest n hs hakin hq' h =>
      h.turn hm ha htells hcarry hs hakin he hq' n
  refine ⟨hend, hempty, hakin, fun σ hσ => (hlate.duty σ hσ).imp_left fun hp => ?_⟩
  exact (promised_iff_idle hempty σ).mp hp

end

end Engine

namespace Sample

/-- Another router. -/
def far : Address := ⟨.v4, 0x0a000002, by decide⟩

def farMac : Mac := ⟨0x020000000002, by decide⟩

/-- The network and its fabric VRF. -/
def onFabric : Tables := withVrf tables params.fabricVrf none

/-- A control node has a tunnel to the other router for the subnet, without its address. -/
def tunnel : Request :=
  ⟨"routing", .inet subnet, ⟨"control", .bgp⟩, .installTunnel ⟨far, Mac.zero, .vxlan⟩ {}⟩

/-- The tunnel is passed on as it is. -/
def leakTunnel : Request :=
  ⟨"routing", .evpn (.type5 subnet), params.leakPeer,
    .installTunnel ⟨far, Mac.zero, .vxlan⟩ { tunnelTypes := .vxlan }⟩

/-- The host route to the other router tells of the address. -/
def hostRoute : Request :=
  ⟨params.fabricVrf, .inet (.host far), ⟨"control", .bgp⟩,
    .installTunnel ⟨far, farMac, .vxlan⟩ {}⟩

/-- The engine when the tunnel has been passed on. -/
def waiting : Engine := { engine with tables := ((onFabric.apply tunnel).1.apply leakTunnel).1 }

theorem filled_waiting : waiting.tables.Filled :=
  ((filled_withVrf filled _ _).apply tunnel).apply leakTunnel

theorem settled_waiting : waiting.Settled :=
  Engine.settled_of_prefixes filled_waiting.proper configured.coherent.sorted (by decide +kernel)
    (by decide +kernel)

theorem carries_waiting : waiting.Carries := View.carries_of_records (by decide +kernel)

/-- The duty of passing on the tunnel. -/
def tunnelDuty : Duty := ⟨.toEvpn, "routing", subnet⟩

theorem has_tunnelDuty : waiting.Has tunnelDuty :=
  ⟨RouterMap.serves_of_router? router (by decide +kernel), by decide⟩

end Sample

namespace Engine

end Engine

namespace Sample

def fabricVn : VnConfig := ⟨"fabric-vn", params.fabricVrf, some router, true⟩

/-- The fabric VRF is the routing VRF of a router, but does not carry the VN. -/
def unnamed : Engine where
  params := params
  tables := withVrf {} params.fabricVrf none
  routers := (({} : RouterMap).configure fabricVn).1

theorem configured_unnamed : unnamed.routers.Configured := .configure fabricVn .empty

theorem filled_unnamed : unnamed.tables.Filled := filled_withVrf .empty params.fabricVrf none

theorem settled_unnamed : unnamed.Settled :=
  Engine.settled_of_prefixes filled_unnamed.proper configured_unnamed.coherent.sorted
    (by decide +kernel) (by decide +kernel)

/-- The duty of passing on the host route itself. -/
def hostDuty : Duty := ⟨.toEvpn, params.fabricVrf, .host far⟩

theorem has_hostDuty : unnamed.Has hostDuty :=
  ⟨RouterMap.serves_of_router? router (by decide +kernel), by decide⟩

end Sample

namespace Engine

end Engine

end VxlanRouting
