import VxlanRouting.Proofs.Change

/-!
What leaks into an Inet table. Two paths of an EVPN route come into question: the exported one, and
the best of those that the engine does not own. A fresh path is one that an advertisement has just
led to; the advertisement tells all of it but its ECMP sequence, which has no part in what leaks.
-/
namespace VxlanRouting

/-- A path accords with one decision only. -/
theorem Accords.unique {t t' : InterfaceTable} {found : Option Path} {a b : Option Advertisement}
    (ha : Accords found a) (hb : Accords found b) (hi : Installable t a) (hj : Installable t' b) :
    a = b := by
  cases found with
  | none =>
    cases a with
    | none =>
      cases b with
      | none => rfl
      | some _ => exact hb.elim
    | some _ => exact ha.elim
  | some x =>
    cases a with
    | none => exact ha.elim
    | some a =>
      cases b with
      | none => exact hb.elim
      | some b => rw [(hi a rfl).eq_of_matches (hj b rfl) ha hb]

/-- The path, or its absence, is what the advertisement leads to when it is installed now. -/
structure Fresh (t : InterfaceTable) (peer : Peer) (want : Option Advertisement)
    (found : Option Path) : Prop where
  accords : Accords found want
  peer : ∀ x ∈ found, x.peer = peer
  resolved : ∀ x ∈ found, x.hop.key.resolve t = some x.hop

/-- Fresh paths differ in their ECMP sequences only. -/
theorem Fresh.agrees {t : InterfaceTable} {peer : Peer} {a : Advertisement} {x y : Path}
    (hx : Fresh t peer (some a) (some x)) (hy : Fresh t peer (some a) (some y)) :
    y.peer = x.peer ∧ y.hop = x.hop ∧ y.attrs.Agrees x.attrs := by
  have hkey : y.hop.key = x.hop.key → y.hop = x.hop := by
    intro hk
    have hr := hy.resolved y rfl
    rw [hk, hx.resolved x rfl] at hr
    exact (Option.some.inj hr).symm
  refine ⟨(hy.peer y rfl).trans (hx.peer x rfl).symm, ?_⟩
  have hax : a.Matches x := hx.accords
  have hay : a.Matches y := hy.accords
  cases a with
  | single hop attrs => exact ⟨hkey (hay.1.trans hax.1.symm), by rw [hay.2, hax.2]; exact .refl _⟩
  | ecmp composite attrs =>
    refine ⟨hkey (hay.1.trans hax.1.symm), ?_⟩
    have hx' : x.attrs = { attrs with ecmpSequence := x.attrs.ecmpSequence } := hax.2
    have hy' : y.attrs = { attrs with ecmpSequence := y.attrs.ecmpSequence } := hay.2
    simp only [Attributes.Agrees]
    rw [hx']
    exact hy'
  | tunnel t attrs => exact ⟨hay.1.trans hax.1.symm, by rw [hay.2, hax.2]; exact .refl _⟩

theorem Action.resolved_of_path? {t : InterfaceTable} {peer : Peer} {a : Action} {x : Path}
    (h : a.path? t peer = some x) : x.hop.key.resolve t = some x.hop := by
  have hkey : ∀ {k : NextHopKey} {hop : NextHop}, k.resolve t = some hop →
      hop.key.resolve t = some hop := by
    intro k hop hr
    rw [NextHopKey.key_of_resolve hr, hr]
  cases a with
  | installLocal hop attrs =>
    obtain ⟨hop', hr, rfl⟩ := Option.map_eq_some_iff.mp h
    exact hkey hr
  | installEcmp composite attrs joined =>
    obtain ⟨hop', hr, rfl⟩ := Option.map_eq_some_iff.mp h
    exact hkey hr
  | installTunnel tunnel attrs =>
    cases h
    rfl
  | withdraw => cases h

/-- What can be installed resolves when it is asked for. -/
theorem Action.path?_of_asks {t : InterfaceTable} {a : Action} {want : Advertisement}
    (h : a.Asks (some want)) (hi : want.Regular t) (peer : Peer) :
    a ≠ .withdraw ∧ ∃ x, a.path? t peer = some x := by
  cases a with
  | withdraw => exact h.elim
  | installLocal hop attrs =>
    refine ⟨by simp, ?_⟩
    cases want with
    | single hop' attrs' =>
      obtain ⟨rfl, rfl⟩ := h
      obtain ⟨hop', hr⟩ := Option.ne_none_iff_exists'.mp hi.2.1
      exact ⟨⟨peer, hop', attrs⟩, by rw [path?, hr]; rfl⟩
    | ecmp _ _ => exact h.elim
    | tunnel _ _ => exact h.elim
  | installEcmp composite attrs joined =>
    refine ⟨by simp, ?_⟩
    cases want with
    | single _ _ => exact h.elim
    | ecmp composite' attrs' =>
      obtain ⟨rfl, _⟩ := h
      obtain ⟨⟨kind, ms, rfl⟩, _⟩ := hi
      exact ⟨_, rfl⟩
    | tunnel _ _ => exact h.elim
  | installTunnel tunnel attrs => exact ⟨by simp, _, rfl⟩

/-- A request that asks for an advertisement leaves a fresh path behind. -/
theorem Request.fresh_outcome {q : Request} {t : InterfaceTable} {want : Option Advertisement}
    (h : q.action.Asks want) (hi : Installable t want) (found : Option Path) :
    Fresh t q.peer want (q.outcome t found) := by
  have hacc : Accords (q.outcome t found) want := q.accords_outcome h hi found
  cases want with
  | none =>
    cases ho : q.outcome t found with
    | none =>
      exact ⟨trivial, fun x hx => absurd hx (Option.not_mem_none x),
        fun x hx => absurd hx (Option.not_mem_none x)⟩
    | some x =>
      rw [ho] at hacc
      exact hacc.elim
  | some a =>
    obtain ⟨hw, x, hx⟩ := Action.path?_of_asks h (hi a rfl) q.peer
    rw [q.outcome_install hw, hx] at hacc ⊢
    refine ⟨hacc, fun y hy => ?_, fun y hy => ?_⟩
    · cases hy
      exact Action.peer_of_path? hx
    · cases hy
      exact Action.resolved_of_path? hx

namespace View

/-- The best EVPN path for a prefix that the engine does not own. -/
def rival (v : View) (vrf : String) (p : Prefix) : Option Path :=
  (v.tables.paths vrf (.evpn (.type5 p))).find? fun x => decide (¬ v.params.Owns x.peer)

/-- What would leak if this were the exported path. -/
def leakWith (v : View) (vrf : String) (p : Prefix) (exported : Option Path) :
    Option Advertisement :=
  (Route.better exported (v.rival vrf p)).bind v.mirror

/-- The path comes before all that the engine does not own. -/
def Wins (v : View) (vrf : String) (p : Prefix) (x : Path) : Prop :=
  ∀ y ∈ v.rival vrf p, x.Before y

theorem leakWith_of_wins {v : View} {vrf : String} {p : Prefix} {x : Path} (h : v.Wins vrf p x) :
    v.leakWith vrf p (some x) = v.mirror x := by
  simp only [leakWith, Route.better]
  cases hr : v.rival vrf p with
  | none => rfl
  | some y =>
    dsimp only
    rw [if_pos (h y hr)]
    rfl

/-- An export that comes behind might as well not be there. -/
theorem leakWith_of_not_wins {v : View} {vrf : String} {p : Prefix} {x : Path}
    (h : ¬ v.Wins vrf p x) : v.leakWith vrf p (some x) = v.leakWith vrf p none := by
  simp only [leakWith, Route.better]
  simp only [Wins] at h
  cases hr : v.rival vrf p with
  | none =>
    rw [hr] at h
    exact absurd (fun y hy => absurd hy (Option.not_mem_none y)) h
  | some y =>
    rw [hr] at h
    dsimp only
    rw [if_neg fun hb => h fun z hz => Option.some.inj hz ▸ hb]

theorem want_toInet_eq {v : View} (hc : v.params.FromConfig) (ht : v.tables.Proper) (vrf : String)
    {p : Prefix} (hp : p.Canonical) : Duty.want v ⟨.toInet, vrf, p⟩ =
      v.leakWith vrf p (Duty.found v ⟨.fromBridges, vrf, p⟩) := by
  show v.leakedInet vrf p = _
  simp only [leakWith, rival]
  rw [leakedInet_eq ht, hp.eq, Route.find?_ne_eq_better (ht.ranked vrf _) hc.peers_ne]
  show (Route.better _ _).bind _ = (Route.better (v.tables.path? vrf (.evpn (.type5 p))
    v.params.exportPeer) _).bind _
  rw [Tables.path?_eq_find?]
  congr 2
  refine find?_congr_of_mem fun x _ => ?_
  simp [Parameters.Owns, and_comm]

theorem installable_leakWith (v : View) (vrf : String) (p : Prefix) (found : Option Path) :
    Installable v.tables.interfaces (v.leakWith vrf p found) := by
  intro a ha
  obtain ⟨x, _, hx⟩ := Option.bind_eq_some_iff.mp ha
  exact regular_mirror hx

theorem ofMembers_agrees (v : View) (ms : List MemberKey) {a b : Attributes} (h : b.Agrees a) :
    v.ofMembers ms b = v.ofMembers ms a := by
  rw [show b = { a with ecmpSequence := b.ecmpSequence } from h]
  rfl

theorem localAdvertisement_agrees (v : View) (hop : NextHop) {a b : Attributes} (h : b.Agrees a) :
    v.localAdvertisement hop b = v.localAdvertisement hop a := by
  rw [show b = { a with ecmpSequence := b.ecmpSequence } from h]
  rfl

/-- The ECMP sequence of a path has no part in what leaks of it. -/
theorem mirror_agrees (v : View) {x y : Path} (hh : y.hop = x.hop) (ha : y.attrs.Agrees x.attrs) :
    v.mirror y = v.mirror x := by
  simp only [mirror]
  rw [hh]
  split
  · rw [show y.attrs = { x.attrs with ecmpSequence := y.attrs.ecmpSequence } from ha]
    rfl
  · exact v.ofMembers_agrees _ ha
  · exact v.localAdvertisement_agrees _ ha

/-- All fresh paths of an advertisement leak alike. -/
theorem leakWith_fresh (v : View) (vrf : String) (p : Prefix) {t : InterfaceTable} {peer : Peer}
    {want : Option Advertisement} {found found' : Option Path} (h : Fresh t peer want found)
    (h' : Fresh t peer want found') : v.leakWith vrf p found' = v.leakWith vrf p found := by
  cases want with
  | none =>
    have hnone : ∀ {f : Option Path}, Fresh t peer none f → f = none := by
      intro f hf
      have ha := hf.accords
      cases f with
      | none => rfl
      | some x => exact ha.elim
    rw [hnone h, hnone h']
  | some a =>
    cases found with
    | none => exact h.accords.elim
    | some x =>
      cases found' with
      | none => exact h'.accords.elim
      | some y =>
        obtain ⟨hpeer, hhop, hattrs⟩ := h.agrees h'
        have hpref : y.attrs.preference = x.attrs.preference := congrArg (·.preference) hattrs
        have hwins : v.Wins vrf p y ↔ v.Wins vrf p x :=
          forall₂_congr fun z _ => Path.before_congr hpeer hpref rfl rfl
        by_cases hw : v.Wins vrf p x
        · rw [leakWith_of_wins hw, leakWith_of_wins (hwins.mpr hw), v.mirror_agrees hhop hattrs]
        · rw [leakWith_of_not_wins hw, leakWith_of_not_wins (mt hwins.mp hw)]

end View

end VxlanRouting
