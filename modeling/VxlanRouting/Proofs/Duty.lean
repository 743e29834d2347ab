import VxlanRouting.Engine.Reconcile
import VxlanRouting.Proofs.Decision

/-!
Duties: one direction for one prefix in one VRF. A duty has a route, a peer whose path it keeps
there, and a decision of what that path is to be. To fulfil it is to ask for the path that is
decided on, unless the installed one already accords with the decision.
-/
namespace VxlanRouting

/-- The three directions in which routes are passed on. -/
inductive Direction where
  | fromBridges
  | toInet
  | toEvpn
  deriving DecidableEq, Repr

structure Duty where
  direction : Direction
  vrf : String
  dest : Prefix
  deriving DecidableEq, Repr

/-- A path, or its absence, is as decided. -/
def Accords (found : Option Path) (want : Option Advertisement) : Prop :=
  match found, want with
  | none, none => True
  | some x, some a => a.Matches x
  | _, _ => False

instance (found : Option Path) (want : Option Advertisement) : Decidable (Accords found want) := by
  unfold Accords
  cases found <;> cases want <;> infer_instance

theorem accords_some {found : Option Path} {a : Advertisement} (h : Accords found (some a)) :
    ∃ x, found = some x ∧ a.Matches x := by
  cases found with
  | none => exact h.elim
  | some x => exact ⟨x, rfl, h⟩

theorem accords_none {found : Option Path} (h : Accords found none) : found = none := by
  cases found with
  | none => rfl
  | some x => exact h.elim

/-- An action asks for what is decided; the ECMP sequence and the joined members are its own. -/
def Action.Asks (a : Action) (want : Option Advertisement) : Prop :=
  match a, want with
  | .withdraw, none => True
  | .installLocal hop attrs, some (.single hop' attrs') => hop = hop' ∧ attrs = attrs'
  | .installTunnel t attrs, some (.tunnel t' attrs') => t = t' ∧ attrs = attrs'
  | .installEcmp c attrs _, some (.ecmp c' attrs') => c = c' ∧ attrs.Agrees attrs'
  | _, _ => False

/-- What is decided on resolves, so that a request for it is not in vain. -/
def Installable (t : InterfaceTable) (want : Option Advertisement) : Prop :=
  ∀ a ∈ want, a.Regular t

namespace Duty

/-- The route that the path of the duty is on. -/
def key (σ : Duty) : RouteKey :=
  match σ.direction with
  | .toInet => .ofPrefix .inet σ.dest
  | _ => .ofPrefix .evpn σ.dest

@[simp] theorem dest_key (σ : Duty) : σ.key.dest = σ.dest := by
  simp only [key]
  split <;> exact RouteKey.dest_ofPrefix _ _

/-- The peer whose path it is. -/
def peer (p : Parameters) (σ : Duty) : Peer :=
  match σ.direction with
  | .fromBridges => p.exportPeer
  | _ => p.leakPeer

/-- What is decided. -/
def want (v : View) (σ : Duty) : Option Advertisement :=
  match σ.direction with
  | .fromBridges => v.exported σ.vrf σ.dest
  | .toInet => v.leakedInet σ.vrf σ.dest
  | .toEvpn => v.leakedEvpn σ.vrf σ.dest

/-- The installed path. -/
def found (v : View) (σ : Duty) : Option Path := v.tables.path? σ.vrf σ.key (σ.peer v.params)

/-- The installed path is as decided. -/
def Idle (v : View) (σ : Duty) : Prop := Accords (σ.found v) (σ.want v)

instance (v : View) (σ : Duty) : Decidable (σ.Idle v) := inferInstanceAs (Decidable (Accords _ _))

/-- The request is for the path of the duty. -/
def Of (p : Parameters) (σ : Duty) (q : Request) : Prop :=
  q.vrf = σ.vrf ∧ q.key = σ.key ∧ q.peer = σ.peer p

theorem peer_of_direction_ne (p : Parameters) {σ : Duty} (h : σ.direction ≠ .fromBridges) :
    σ.peer p = p.leakPeer := by
  obtain ⟨d, _, _⟩ := σ
  cases d with
  | fromBridges => exact absurd rfl h
  | toInet => rfl
  | toEvpn => rfl

theorem owns_peer (p : Parameters) (σ : Duty) : p.Owns (σ.peer p) := by
  simp only [peer]
  split
  · exact .inl rfl
  · exact .inr rfl

/-- A request is for the path of one duty only. -/
theorem Of.unique {p : Parameters} (hp : p.exportPeer ≠ p.leakPeer) {σ τ : Duty} {q : Request}
    (hσ : σ.Of p q) (hτ : τ.Of p q) : σ = τ := by
  obtain ⟨hv, hk, hpeer⟩ := hσ
  obtain ⟨hv', hk', hpeer'⟩ := hτ
  rw [hv] at hv'
  rw [hk] at hk'
  rw [hpeer] at hpeer'
  obtain ⟨d, vrf, dest⟩ := σ
  obtain ⟨d', vrf', dest'⟩ := τ
  cases hv'
  cases d <;> cases d' <;> cases hk'
  · rfl
  · exact absurd hpeer' hp
  · rfl
  · exact absurd hpeer' hp.symm
  · rfl

/-- A place among the routes that the decision is read from. -/
def Reads (m : RouterMap) (σ : Duty) (vrf : String) (k : RouteKey) : Prop :=
  match σ.direction with
  | .fromBridges => (∃ vn, (vn, vrf) ∈ m.bridgesOf σ.vrf) ∧ k = .inet σ.dest.canonical
  | .toInet => vrf = σ.vrf ∧ k = .evpn (.type5 σ.dest.canonical)
  | .toEvpn => vrf = σ.vrf ∧ k = .inet σ.dest.canonical

/-- The duty is on one table and reads the other. -/
theorem not_reads_key (m : RouterMap) (σ : Duty) (vrf : String) : ¬ σ.Reads m vrf σ.key := by
  simp only [Reads, key]
  cases σ.direction
  · rintro ⟨_, h⟩
    cases h
  · rintro ⟨_, h⟩
    cases h
  · rintro ⟨_, h⟩
    cases h

/-- The routes that it reads are of its own prefix, if that is canonical. -/
theorem dest_of_reads {m : RouterMap} {σ : Duty} (hσ : σ.dest.Canonical) {vrf : String}
    {k : RouteKey} (h : σ.Reads m vrf k) : k.dest = σ.dest := by
  simp only [Reads] at h
  split at h <;> rw [h.2] <;> exact hσ.eq

theorem regular_of_want {v : View} (h : v.tables.Proper) (σ : Duty) :
    Installable v.tables.interfaces (σ.want v) := by
  intro a ha
  simp only [want] at ha
  rw [Option.mem_def] at ha
  split at ha
  · rw [View.exported_eq h] at ha
    obtain ⟨s, _, ha⟩ := Option.bind_eq_some_iff.mp ha
    obtain ⟨r, _, ha⟩ := Option.bind_eq_some_iff.mp ha
    exact View.regular_localAdvertisement ha
  · rw [View.leakedInet_eq h] at ha
    obtain ⟨x, _, ha⟩ := Option.bind_eq_some_iff.mp ha
    exact View.regular_mirror ha
  · rw [View.leakedEvpn_eq h] at ha
    obtain ⟨s, _, ha⟩ := Option.map_eq_some_iff.mp ha
    rw [← ha]
    exact rfl

/-- Something is decided on for a VRF that is there only. -/
theorem bare?_of_want {v : View} (h : v.tables.Proper) {σ : Duty} (hw : σ.want v ≠ none) :
    v.tables.bare? σ.vrf ≠ none := by
  intro hb
  apply hw
  simp only [want]
  split
  · rw [View.exported_eq h, hb]
    simp
  · rw [View.leakedInet_eq h, Tables.paths_of_bare?_eq_none hb]
    rfl
  · rw [View.leakedEvpn_eq h, Tables.paths_of_bare?_eq_none hb]
    rfl

/-- A duty in a VRF that is not there is idle. -/
theorem idle_of_missing {v : View} (h : v.tables.Proper) {σ : Duty}
    (hb : v.tables.bare? σ.vrf = none) : σ.Idle v := by
  have hw : σ.want v = none := by
    cases hw : σ.want v with
    | none => rfl
    | some a => exact absurd hb (bare?_of_want h (by rw [hw]; simp))
  simp only [Idle, found]
  rw [hw, Tables.path?_eq_find?, Tables.paths_of_bare?_eq_none hb]
  trivial

/-- Nothing is decided on where there is nothing to read. -/
theorem want_eq_none {v : View} (h : v.tables.Aligned) {σ : Duty}
    (hread : ∀ vrf k, σ.Reads v.routers vrf k → v.tables.route? vrf k = none) :
    σ.want v = none := by
  simp only [want]
  simp only [Reads] at hread
  cases hd : σ.direction <;> rw [hd] at hread <;> dsimp only at hread ⊢
  · have horigin : v.routers.origin? v.tables.vrfs σ.vrf σ.dest.network σ.dest.length = none := by
      refine List.find?_eq_none.mpr fun b hb => ?_
      have hmiss : v.tables.locate? b.2 .inet σ.dest.network σ.dest.length = none :=
        h.locate?_eq_none (hread b.2 _ ⟨⟨b.1, hb⟩, rfl⟩)
      rw [Tables.locate?] at hmiss
      rw [hmiss]
      exact Bool.false_ne_true
    simp only [View.exported]
    rw [horigin]
    rfl
  · simp only [View.leakedInet]
    rw [h.locate?_eq_none (hread _ _ ⟨rfl, rfl⟩)]
    rfl
  · simp only [View.leakedEvpn]
    rw [h.locate?_eq_none (hread _ _ ⟨rfl, rfl⟩)]
    rfl

/-- A duty is idle if none of the routes that it reads or is on is there. -/
theorem idle_of_no_route {v : View} (h : v.tables.Aligned) {σ : Duty}
    (hread : ∀ vrf k, σ.Reads v.routers vrf k → v.tables.route? vrf k = none)
    (hown : v.tables.route? σ.vrf σ.key = none) : σ.Idle v := by
  simp only [Idle, found, Tables.path?]
  rw [want_eq_none h hread, hown]
  trivial

/-- A decision stays if the routes that it reads do, and what is known of the host. -/
theorem want_congr {v w : View} (hv : v.tables.Proper) (hw : w.tables.Proper)
    (hp : w.params = v.params) (hh : v.SameHost w) (σ : Duty)
    (hb : w.routers.bridgesOf σ.vrf = v.routers.bridgesOf σ.vrf)
    (hvni : (w.tables.bare? σ.vrf).map (·.vni) = (v.tables.bare? σ.vrf).map (·.vni))
    (hread : ∀ vrf k, σ.Reads v.routers vrf k → w.tables.paths vrf k = v.tables.paths vrf k) :
    σ.want w = σ.want v := by
  simp only [want]
  simp only [Reads] at hread
  cases hd : σ.direction <;> rw [hd] at hread <;> dsimp only at hread ⊢
  · refine View.exported_congr hv hw (View.localAdvertisement_congr hh) ?_ hvni
    exact View.source?_congr hb fun b hm => hread b.2 _ ⟨⟨b.1, hm⟩, rfl⟩
  · refine View.leakedInet_congr hv hw hh ?_
    rw [hp, hread _ _ ⟨rfl, rfl⟩]
  · refine View.leakedEvpn_congr hv hw hh ?_
    rw [hread _ _ ⟨rfl, rfl⟩]

end Duty

/-- What an action leaves behind accords with what it asks for, if that can be installed. -/
theorem Request.accords_outcome {q : Request} {t : InterfaceTable} {want : Option Advertisement}
    (h : q.action.Asks want) (hi : Installable t want) (found : Option Path) :
    Accords (q.outcome t found) want := by
  simp only [Action.Asks] at h
  split at h
  · next ha =>
    rw [outcome_withdraw ha]
    trivial
  · next hop attrs hop' attrs' ha =>
    obtain ⟨rfl, rfl⟩ := h
    obtain ⟨⟨name, policy, rfl⟩, hr, -⟩ := hi _ rfl
    obtain ⟨x, hx⟩ := Option.ne_none_iff_exists'.mp hr
    rw [outcome_install (by rw [ha]; simp), ha, Action.path?, hx]
    exact ⟨NextHopKey.key_of_resolve hx, rfl⟩
  · next t attrs t' attrs' ha =>
    obtain ⟨rfl, rfl⟩ := h
    rw [outcome_install (by rw [ha]; simp), ha]
    exact ⟨rfl, rfl⟩
  · next c attrs joined c' attrs' ha =>
    obtain ⟨rfl, hattrs⟩ := h
    obtain ⟨⟨kind, ms, rfl⟩, -⟩ := hi _ rfl
    rw [outcome_install (by rw [ha]; simp), ha]
    exact ⟨rfl, hattrs⟩
  · exact h.elim

namespace View

/-- Views that differ in the counters of their routers only. -/
structure Level (v w : View) : Prop where
  params : w.params = v.params
  tables : w.tables = v.tables
  routers : w.routers.bare = v.routers.bare

theorem Level.refl (v : View) : v.Level v := ⟨rfl, rfl, rfl⟩

theorem Level.trans {u v w : View} (h : u.Level v) (h' : v.Level w) : u.Level w :=
  ⟨h'.params.trans h.params, h'.tables.trans h.tables, h'.routers.trans h.routers⟩

theorem Level.sameHost {v w : View} (h : v.Level w) : v.SameHost w := by
  refine ⟨fun name => by rw [h.tables], fun a => ?_⟩
  simp only [routerMac?]
  rw [h.tables, h.params]

/-- The counters have no part in decisions. -/
theorem Level.want_eq {v w : View} (h : v.Level w) (ht : v.tables.Proper) (σ : Duty) :
    σ.want w = σ.want v := by
  refine Duty.want_congr ht (h.tables ▸ ht) h.params h.sameHost σ
    (RouterMap.bridgesOf_congr h.routers _) (by rw [h.tables]) fun vrf k _ => ?_
  rw [h.tables]

theorem Level.idle_iff {v w : View} (h : v.Level w) (ht : v.tables.Proper) (σ : Duty) :
    σ.Idle w ↔ σ.Idle v := by
  simp only [Duty.Idle, Duty.found]
  rw [h.want_eq ht, h.tables, h.params]

end View

namespace Engine

/-- Gets the path of a duty to what is decided. -/
def fulfil (e : Engine) (σ : Duty) : Engine :=
  e.sync σ.vrf σ.key (σ.peer e.params) (σ.want e.toView)

/-- Runs a direction for a prefix in a VRF. -/
def run (e : Engine) (d : Direction) (vrf : String) (p : Prefix) : Engine :=
  match d with
  | .fromBridges => e.exportPrefix vrf p
  | .toInet => e.leakToInet vrf p
  | .toEvpn => e.leakToEvpn vrf p

theorem run_eq_fulfil (e : Engine) (d : Direction) (vrf : String) (p : Prefix) :
    e.run d vrf p = e.fulfil ⟨d, vrf, p⟩ := by
  cases d <;> rfl

/-- The engine has put one request into its queue, and may have given out an ECMP sequence. -/
structure Puts (e e' : Engine) (q : Request) : Prop extends View.Level e.toView e'.toView where
  queue : e'.queue = e.queue ++ [q]

theorem puts_push (e : Engine) (q : Request) : e.Puts (e.push q) q := ⟨⟨rfl, rfl, rfl⟩, rfl⟩

theorem nextSequence_spec {e : Engine} (hs : e.routers.routers.Sorted) (vrf : String) :
    (e.nextSequence vrf).1.params = e.params ∧ (e.nextSequence vrf).1.tables = e.tables ∧
      (e.nextSequence vrf).1.routers.bare = e.routers.bare ∧
      (e.nextSequence vrf).1.queue = e.queue := by
  simp only [nextSequence]
  split
  · exact ⟨rfl, rfl, rfl, rfl⟩
  · exact ⟨rfl, rfl, RouterMap.bare_nextSequence hs _, rfl⟩

theorem sequenceFor_spec {e : Engine} (hs : e.routers.routers.Sorted) (vrf : String)
    (c : NextHopKey) (found : Option Path) :
    (e.sequenceFor vrf c found).1.params = e.params ∧
      (e.sequenceFor vrf c found).1.tables = e.tables ∧
      (e.sequenceFor vrf c found).1.routers.bare = e.routers.bare ∧
      (e.sequenceFor vrf c found).1.queue = e.queue := by
  simp only [sequenceFor]
  split
  · exact nextSequence_spec hs vrf
  · split
    · exact ⟨rfl, rfl, rfl, rfl⟩
    · exact nextSequence_spec hs vrf

theorem install_puts {e : Engine} (hs : e.routers.routers.Sorted) (vrf : String) (k : RouteKey)
    (peer : Peer) (found : Option Path) (a : Advertisement) :
    ∃ q, e.Puts (e.install vrf k peer found a) q ∧ q.vrf = vrf ∧ q.key = k ∧ q.peer = peer ∧
      q.action.Asks (some a) := by
  simp only [install]
  cases a with
  | single hop attrs => exact ⟨_, puts_push e _, rfl, rfl, rfl, rfl, rfl⟩
  | tunnel t attrs => exact ⟨_, puts_push e _, rfl, rfl, rfl, rfl, rfl⟩
  | ecmp c attrs =>
    obtain ⟨hp, ht, hr, hq⟩ := sequenceFor_spec hs vrf c found
    let n := (e.sequenceFor vrf c found).2
    let q : Request := ⟨vrf, k, peer,
      .installEcmp c { attrs with ecmpSequence := n } (joined c found)⟩
    have hput : (e.sequenceFor vrf c found).1.queue ++ [q] = e.queue ++ [q] := by rw [hq]
    exact ⟨q, ⟨⟨hp, ht, hr⟩, hput⟩, rfl, rfl, rfl, rfl, rfl⟩

/-- A path that accords with what is wanted is left alone. -/
theorem sync_of_accords {e : Engine} {vrf : String} {k : RouteKey} {peer : Peer}
    {want : Option Advertisement} (h : Accords (e.tables.path? vrf k peer) want) :
    e.sync vrf k peer want = e := by
  simp only [sync]
  simp only [Accords] at h
  split at h
  · next hf => rw [hf]
  · next x a hf =>
    rw [hf]
    exact if_pos h
  · exact h.elim

/-- For any other path, one request asks for what is wanted. -/
theorem sync_of_not_accords {e : Engine} (hs : e.routers.routers.Sorted) {vrf : String}
    {k : RouteKey} {peer : Peer} {want : Option Advertisement}
    (h : ¬ Accords (e.tables.path? vrf k peer) want) :
    ∃ q, e.Puts (e.sync vrf k peer want) q ∧ q.vrf = vrf ∧ q.key = k ∧ q.peer = peer ∧
      q.action.Asks want := by
  simp only [sync]
  cases hf : e.tables.path? vrf k peer with
  | none =>
    cases want with
    | none => exact absurd (by rw [hf]; trivial) h
    | some a => exact install_puts hs vrf k peer none a
  | some x =>
    cases want with
    | none => exact ⟨_, puts_push e _, rfl, rfl, rfl, trivial⟩
    | some a =>
      have hx : ¬ a.Matches x := fun hx => h (by rw [hf]; exact hx)
      dsimp only
      rw [if_neg hx]
      exact install_puts hs vrf k peer (some x) a

theorem fulfil_of_idle {e : Engine} {σ : Duty} (h : σ.Idle e.toView) : e.fulfil σ = e :=
  sync_of_accords h

theorem fulfil_of_not_idle {e : Engine} (hs : e.routers.routers.Sorted) {σ : Duty}
    (h : ¬ σ.Idle e.toView) :
    ∃ q, e.Puts (e.fulfil σ) q ∧ σ.Of e.params q ∧ q.action.Asks (σ.want e.toView) := by
  obtain ⟨q, hq, hv, hk, hp, ha⟩ := sync_of_not_accords hs h
  exact ⟨q, hq, ⟨hv, hk, hp⟩, ha⟩

/-- A duty enqueues nothing exactly if it is idle. -/
theorem queue_fulfil_eq_iff {e : Engine} (hs : e.routers.routers.Sorted) (σ : Duty) :
    (e.fulfil σ).queue = e.queue ↔ σ.Idle e.toView := by
  constructor
  · intro h
    by_cases hi : σ.Idle e.toView
    · exact hi
    · obtain ⟨q, hq, _⟩ := fulfil_of_not_idle hs hi
      rw [hq.queue] at h
      simp at h
  · intro h
    rw [fulfil_of_idle h]

end Engine

end VxlanRouting
