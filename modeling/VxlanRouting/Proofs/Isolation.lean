import VxlanRouting.Proofs.Batch
import VxlanRouting.Proofs.Foreign

/-!
Prefixes do not get in each other's way. What is asked for in a run is for a prefix that a request
of the queue was for. And two runs on tables that agree on these prefixes and on the fabric VRF take
the same turns: a decision reads the routes of its own prefix, and of the fabric VRF the hardware
addresses, whatever covering or more specific routes there are.
-/
namespace VxlanRouting

namespace Tables

theorem paths_eq (db : Tables) (vrf : String) (k : RouteKey) :
    db.paths vrf k = ((db.route? vrf k).map (·.paths)).getD [] := by
  simp only [paths, route?]
  cases db.vrfs.get? vrf <;> rfl

theorem Proper.route?_congr {db db' : Tables} (h : db.Proper) (h' : db'.Proper) {vrf : String}
    {k : RouteKey} : db'.route? vrf k = db.route? vrf k ↔ db'.paths vrf k = db.paths vrf k := by
  constructor
  · intro he
    rw [paths_eq, paths_eq, he]
  · intro he
    rw [h.route?_eq, h'.route?_eq, he]

theorem paths_applyAll_of_ne (db : Tables) {l : List Request} {vrf : String} {k : RouteKey}
    (h : ∀ q ∈ l, k ≠ q.key) : (db.applyAll l).paths vrf k = db.paths vrf k := by
  induction l generalizing db with
  | nil => rfl
  | cons q l ih =>
    rw [applyAll_cons, ih _ fun r hr => h r (List.mem_cons_of_mem _ hr)]
    exact paths_apply_of_ne db q fun he => h q List.mem_cons_self (Prod.mk.inj he).2

theorem Proper.applyAll {db : Tables} (h : db.Proper) (l : List Request) :
    (db.applyAll l).Proper := by
  induction l generalizing db with
  | nil => exact h
  | cons q l ih => exact ih (h.apply q)

/-- Tables with the same VRFs, interfaces and routes of one VRF, and with the same routes to some
prefixes in all VRFs. -/
structure Alike (S : Prefix → Prop) (fabric : String) (db db' : Tables) : Prop where
  bare : ∀ vrf, db'.bare? vrf = db.bare? vrf
  interfaces : db'.interfaces = db.interfaces
  fabric : ∀ k, db'.route? fabric k = db.route? fabric k
  within : ∀ vrf k, S k.dest → db'.route? vrf k = db.route? vrf k

section

variable {S : Prefix → Prop} {fabric : String} {db db' : Tables} (h : Alike S fabric db db')

include h

/-- A request leaves the same paths on a route where there were the same. -/
theorem Alike.paths_apply (q : Request) {vrf : String} {k : RouteKey}
    (hk : db'.paths vrf k = db.paths vrf k) :
    (db'.apply q).1.paths vrf k = (db.apply q).1.paths vrf k := by
  by_cases he : (vrf, k) = (q.vrf, q.key)
  · obtain ⟨rfl, rfl⟩ := Prod.mk.inj he
    by_cases hb : db.bare? q.vrf = none
    · have hb' : db'.bare? q.vrf = none := (h.bare q.vrf).trans hb
      rw [(apply_updates db q).paths_missing hb, (apply_updates db' q).paths_missing hb', hk]
    · rw [paths_apply_self db q hb, paths_apply_self db' q (by rw [h.bare]; exact hb), hk,
        h.interfaces]
  · rw [paths_apply_of_ne db q he, paths_apply_of_ne db' q he, hk]

variable (hdb : db.Proper) (hdb' : db'.Proper)

include hdb hdb'

theorem Alike.paths {vrf : String} {k : RouteKey} (hk : S k.dest) :
    db'.paths vrf k = db.paths vrf k :=
  (hdb.route?_congr hdb').mp (h.within vrf k hk)

theorem Alike.apply (q : Request) : Alike S fabric (db.apply q).1 (db'.apply q).1 := by
  have hroute : ∀ vrf k, db'.route? vrf k = db.route? vrf k →
      (db'.apply q).1.route? vrf k = (db.apply q).1.route? vrf k := by
    intro vrf k hk
    rw [(hdb.apply q).route?_congr (hdb'.apply q)]
    exact h.paths_apply q ((hdb.route?_congr hdb').mp hk)
  refine ⟨fun vrf => ?_, ?_, fun k => hroute _ k (h.fabric k),
    fun vrf k hk => hroute vrf k (h.within vrf k hk)⟩
  · rw [bare?_apply, bare?_apply, h.bare]
  · rw [interfaces_apply, interfaces_apply, h.interfaces]

/-- A request for one of the prefixes is answered in the same way. -/
theorem Alike.notification (q : Request) (hq : S q.key.dest) :
    (db'.apply q).2 = (db.apply q).2 := by
  rw [notification_apply, notification_apply, h.bare, h.interfaces, h.paths hdb hdb' hq]

end

/-- A request for another prefix, and not for that VRF, leads to such tables. -/
theorem Proper.alike_apply {S : Prefix → Prop} {fabric : String} {db : Tables} (h : db.Proper)
    {q : Request} (hq : ¬ S q.key.dest) (hv : q.vrf ≠ fabric) :
    Alike S fabric db (db.apply q).1 := by
  have hroute : ∀ vrf k, (vrf, k) ≠ (q.vrf, q.key) →
      (db.apply q).1.route? vrf k = db.route? vrf k := by
    intro vrf k hk
    rw [h.route?_congr (h.apply q), paths_apply_of_ne db q hk]
  refine ⟨bare?_apply db q, interfaces_apply db q, fun k => hroute _ k fun he => ?_,
    fun vrf k hk => hroute vrf k fun he => ?_⟩
  · exact hv (Prod.mk.inj he).1.symm
  · rw [(Prod.mk.inj he).2] at hk
    exact hq hk

end Tables

namespace Engine

/-- The engine on other tables. -/
def withTables (e : Engine) (db : Tables) : Engine := { e with tables := db }

section

variable (e : Engine) (db : Tables)

theorem nextSequence_withTables (vrf : String) : (e.withTables db).nextSequence vrf =
    ((e.nextSequence vrf).1.withTables db, (e.nextSequence vrf).2) := by
  simp only [nextSequence]
  rw [show (e.withTables db).routers = e.routers from rfl]
  split <;> rfl

theorem sequenceFor_withTables (vrf : String) (c : NextHopKey) (found : Option Path) :
    (e.withTables db).sequenceFor vrf c found =
      ((e.sequenceFor vrf c found).1.withTables db, (e.sequenceFor vrf c found).2) := by
  simp only [sequenceFor]
  split
  · exact nextSequence_withTables e db vrf
  · split
    · rfl
    · exact nextSequence_withTables e db vrf

theorem install_withTables (vrf : String) (k : RouteKey) (peer : Peer) (found : Option Path)
    (a : Advertisement) : (e.withTables db).install vrf k peer found a =
      (e.install vrf k peer found a).withTables db := by
  cases a with
  | single hop attrs => rfl
  | tunnel t attrs => rfl
  | ecmp c attrs =>
    unfold install
    dsimp only
    rw [sequenceFor_withTables]
    rfl

variable {e db}

/-- What is asked for hangs on the installed path of the tables only. -/
theorem sync_withTables {vrf : String} {k : RouteKey} {peer : Peer}
    (h : db.path? vrf k peer = e.tables.path? vrf k peer) (want : Option Advertisement) :
    (e.withTables db).sync vrf k peer want = (e.sync vrf k peer want).withTables db := by
  simp only [sync]
  rw [show (e.withTables db).tables = db from rfl, h]
  split
  · rfl
  · rfl
  · exact install_withTables e db _ _ _ _ _
  · split
    · rfl
    · exact install_withTables e db _ _ _ _ _

/-- The prefixes with each of which its network is there too. -/
def Networked (S : Prefix → Prop) : Prop := ∀ p, S p → S p.canonical

variable {S : Prefix → Prop} (hS : Networked S) (ht : e.tables.Proper) (hdb : db.Proper)
  (h : e.tables.Alike S e.params.fabricVrf db)

include ht hdb h

theorem sameHost_withTables : e.SameHost (e.withTables db).toView := by
  refine ⟨fun name => ?_, fun a => ?_⟩
  · show e.tables.IsVm name ↔ db.IsVm name
    simp only [Tables.IsVm]
    rw [h.interfaces]
  · rw [View.routerMac?_eq ht, View.routerMac?_eq (v := (e.withTables db).toView) hdb]
    have hf : db.paths e.params.fabricVrf (.inet (.host a)) =
        e.tables.paths e.params.fabricVrf (.inet (.host a)) :=
      (ht.route?_congr hdb).mp (h.fabric _)
    show _ = (db.paths e.params.fabricVrf (.inet (.host a))).findSome? _
    rw [hf]

include hS

theorem fulfil_withTables {σ : Duty} (hσ : S σ.dest) :
    (e.withTables db).fulfil σ = (e.fulfil σ).withTables db := by
  have hwant : σ.want (e.withTables db).toView = σ.want e.toView := by
    refine Duty.want_congr (v := e.toView) (w := (e.withTables db).toView) ht hdb rfl
      (sameHost_withTables ht hdb h) σ rfl (congrArg (Option.map _) (h.bare σ.vrf)) ?_
    intro vrf k hk
    refine h.paths ht hdb ?_
    simp only [Duty.Reads] at hk
    split at hk
    · rw [hk.2]
      exact hS _ hσ
    · rw [hk.2]
      exact hS _ hσ
    · rw [hk.2]
      exact hS _ hσ
  have hfound : db.path? σ.vrf σ.key (σ.peer e.params) =
      e.tables.path? σ.vrf σ.key (σ.peer e.params) := by
    rw [Tables.path?_eq_find?, Tables.path?_eq_find?, h.paths ht hdb (by rw [σ.dest_key]; exact hσ)]
  simp only [fulfil]
  rw [hwant]
  exact sync_withTables hfound _

theorem notify_withTables (n : Notification) (hn : S n.key.dest) :
    (e.withTables db).notify n = (e.notify n).withTables db := by
  have hfed : (e.withTables db).fed? n.vrf n.key = e.fed? n.vrf n.key :=
    View.fed?_congr (v := e.toView) (w := (e.withTables db).toView) rfl (h.bare n.vrf) n.key
  rw [notify_eq e ht, notify_eq (e.withTables db) hdb, hfed]
  cases hf : e.fed? n.vrf n.key with
  | none => rfl
  | some σ =>
    refine fulfil_withTables hS ht hdb h ?_
    rcases View.fed?_cases ht hf with ⟨_, p, hk, rfl⟩ | ⟨_, p, hk, rfl⟩ |
      ⟨_, p, b, r, hk, _, _, rfl⟩ <;> rw [hk] at hn <;> exact hn

/-- A step with a request for one of the prefixes goes alike on both tables. -/
theorem step_withTables (hs : e.routers.routers.Sorted) {q : Request} (hq : S q.key.dest)
    (n : Nat) :
    ∃ db', step (e.withTables db, n) q = ((step (e, n) q).1.withTables db', (step (e, n) q).2) ∧
      (step (e, n) q).1.tables.Alike S e.params.fabricVrf db' ∧ db'.Proper := by
  refine ⟨(db.apply q).1, ?_, ?_, hdb.apply q⟩
  · have hnote := h.notification ht hdb q hq
    have halike := h.apply ht hdb q
    have ht' := ht.apply q
    have hat := Tables.notification_apply e.tables q
    have hquiet : (db.apply q).2 = none → (db.apply q).1 = db := Tables.apply_of_unnoticed
    rw [hnote] at hquiet
    cases ha : e.tables.apply q with
    | mk tables note =>
      cases hb : db.apply q with
      | mk tables' note' =>
        rw [ha] at hnote halike ht' hat hquiet
        rw [hb] at hnote halike hquiet
        cases hnote
        simp only [step]
        rw [show (e.withTables db).tables = db from rfl, ha, hb]
        cases note with
        | none =>
          have htables : tables' = db := hquiet rfl
          rw [htables]
        | some note =>
          have hkey : note.key = q.key := by
            split at hat
            · cases hat
            · exact congrArg (·.key) (Option.some.inj hat)
          have hnotify := notify_withTables (e := { e with tables }) hS ht' (hb ▸ hdb.apply q)
            halike note (by rw [hkey]; exact hq)
          exact congrArg (·, n + 1) hnotify
  · rw [(step_spec ht hs n q).1.tables]
    exact h.apply ht hdb q

theorem turn_withTables (hs : e.routers.routers.Sorted) (hq : ∀ q ∈ e.queue, S q.key.dest)
    (n : Nat) :
    ∃ db', turn (e.withTables db, n) = ((turn (e, n)).1.withTables db', (turn (e, n)).2) ∧
      (turn (e, n)).1.tables.Alike S e.params.fabricVrf db' ∧ db'.Proper := by
  cases hqueue : e.queue with
  | nil =>
    have hself : turn (e, n) = (e, n) := turn_of_nil hqueue
    have hother : turn (e.withTables db, n) = (e.withTables db, n) := turn_of_nil hqueue
    rw [hself, hother]
    exact ⟨db, rfl, h, hdb⟩
  | cons q rest =>
    rw [turn_of_queue hqueue, turn_of_queue (e := e.withTables db) hqueue]
    exact step_withTables (e := { e with queue := rest }) hS ht hdb h hs
      (hq q (by rw [hqueue]; exact List.mem_cons_self)) n

end

/-- Whatever a run takes from the queue, or leaves in it, is for a prefix that was there at
first. -/
theorem dests_taken {e : Engine} (he : e.Sound) (n : Nat) :
    ∀ q ∈ taken n (e, 0) ++ (turns n (e, 0)).1.queue, q.key.dest ∈ dests e.queue := by
  induction n with
  | zero => exact fun q hq => List.mem_map.mpr ⟨q, hq, rfl⟩
  | succ n ih =>
    obtain ⟨l, hl, hdecided⟩ := taken_succ_append_queue he n
    rw [hl]
    intro q hq
    rcases List.mem_append.mp hq with hq | hq
    · exact ih q hq
    · obtain ⟨σ, hσ, _, hkey, _⟩ := hdecided q hq
      have ⟨r, rest, hr, _⟩ := hσ
      rw [hkey, Duty.dest_key, dest_of_decides (he.akin_turns n).1 hr hσ]
      exact ih r (List.mem_append_right _ (by rw [hr]; exact List.mem_cons_self))

/-- So many turns go alike on tables that agree on the prefixes of the queue. -/
theorem turns_withTables {e : Engine} (he : e.Sound) {S : Prefix → Prop} (hS : Networked S)
    (hq : ∀ p ∈ dests e.queue, S p) {db : Tables} (hdb : db.Proper)
    (h : e.tables.Alike S e.params.fabricVrf db) (n : Nat) :
    ∃ db', turns n (e.withTables db, 0) =
        ((turns n (e, 0)).1.withTables db', (turns n (e, 0)).2) ∧
      (turns n (e, 0)).1.tables.Alike S e.params.fabricVrf db' ∧ db'.Proper := by
  induction n with
  | zero => exact ⟨db, rfl, h, hdb⟩
  | succ n ih =>
    obtain ⟨db', hturns, halike, hdb'⟩ := ih
    obtain ⟨hs, hakin⟩ := he.akin_turns n
    rw [turns_succ, turns_succ, hturns, ← hakin.params]
    rw [← hakin.params] at halike
    exact turn_withTables hS hs.proper hdb' halike hs.sorted
      (fun q hmem => hq _ (dests_taken he n q (List.mem_append_right _ hmem))) _

/-- The prefixes that the requests of a list are for, and their canonical forms, which decisions are
read from. Requests for prefixes in canonical form have no others. -/
def Within (l : List Request) (p : Prefix) : Prop :=
  p ∈ dests l ∨ ∃ p' ∈ dests l, p = p'.canonical

theorem within_iff {l : List Request} (h : ∀ p ∈ dests l, p.Canonical) (p : Prefix) :
    Within l p ↔ p ∈ dests l := by
  constructor
  · rintro (hp | ⟨p', hp', rfl⟩)
    · exact hp
    · rw [(h p' hp').eq]
      exact hp'
  · exact .inl

theorem networked_within (l : List Request) : Networked (Within l) := by
  rintro p (hp | ⟨p', hp', rfl⟩)
  · exact .inr ⟨p, hp, rfl⟩
  · exact .inr ⟨p', hp', p'.canonical_canonical.eq⟩

/-- Processing changes no route to a prefix that no request of the queue is for. And on any tables
with the same VRFs, interfaces and routes of the fabric VRF, and with the same routes to the
prefixes of the queue, it makes as many changes and leaves the same routes to these prefixes. If
these are in canonical form, as an address and a length give them, no other prefix is meant. -/
theorem process_isolated (e : Engine) (hc : e.params.FromConfig) (ht : e.tables.Filled)
    (hs : e.routers.routers.Sorted) :
    (∀ vrf k, k.dest ∉ dests e.queue →
      e.process.1.tables.route? vrf k = e.tables.route? vrf k) ∧
    ∀ db : Tables, db.Filled → e.tables.Alike (Within e.queue) e.params.fabricVrf db →
      (e.withTables db).process.2 = e.process.2 ∧ ∀ vrf k, Within e.queue k.dest →
        (e.withTables db).process.1.tables.route? vrf k = e.process.1.tables.route? vrf k := by
  have he : e.Sound := ⟨hc, ht.proper, hs⟩
  obtain ⟨hempty, n, hn, hbusy⟩ := he.process_turns
  refine ⟨fun vrf k hk => ?_, fun db hdb halike => ?_⟩
  · have htables := tables_taken he n
    rw [hn] at htables
    rw [htables, he.proper.route?_congr (he.proper.applyAll _)]
    refine Tables.paths_applyAll_of_ne _ fun q hq heq => hk ?_
    rw [heq]
    exact dests_taken he n q (List.mem_append_left _ hq)
  · have he' : (e.withTables db).Sound := ⟨hc, hdb.proper, hs⟩
    obtain ⟨hempty', n', hn', hbusy'⟩ := he'.process_turns
    have hlock := fun i =>
      turns_withTables he (networked_within e.queue) (fun p hp => .inl hp) hdb.proper halike i
    have hqueue : ∀ i, (turns i (e.withTables db, 0)).1.queue = (turns i (e, 0)).1.queue := by
      intro i
      obtain ⟨db', hi, _⟩ := hlock i
      rw [hi]
      rfl
    -- both runs end with the first turn that leaves the queue empty
    have hsame : n' = n := by
      rcases Nat.lt_trichotomy n' n with hlt | heq | hgt
      · refine absurd ?_ (hbusy n' hlt)
        rw [← hqueue, hn', hempty']
      · exact heq
      · refine absurd ?_ (hbusy' n hgt)
        rw [hqueue, hn, hempty]
    obtain ⟨db', hturns, hend, _⟩ := hlock n
    rw [← hn', hsame, hturns, ← hn]
    exact ⟨rfl, fun vrf k hk => hend.within vrf k hk⟩

end Engine

namespace Sample

/-- The network 10.0.0.0/8, which covers the one of the machine. -/
def covering : Prefix := ⟨⟨.v4, 0x0a000000, by decide⟩, 8, by decide⟩

/-- Another machine has the covering network. -/
def cover : Request :=
  ⟨"bridge", .inet covering, ⟨"gateway", .localVm⟩, .installLocal (.interface "tap" false) {}⟩

end Sample

namespace Engine

/-- A covering network in the bridge has no part in what becomes of a machine's network. -/
theorem process_isolated_cover :
    Sample.tables.route? "bridge" (.inet Sample.covering) ≠
        (Sample.tables.apply Sample.cover).1.route? "bridge" (.inet Sample.covering) ∧
      (({ Sample.engine with queue := [Sample.install] } : Engine).withTables
        (Sample.tables.apply Sample.cover).1).process.2 =
          ({ Sample.engine with queue := [Sample.install] } : Engine).process.2 := by
  refine ⟨by decide +kernel, ?_⟩
  refine ((process_isolated { Sample.engine with queue := [Sample.install] } Sample.fromConfig
    Sample.filled Sample.configured.coherent.sorted).2 _ (Sample.filled.apply Sample.cover) ?_).1
  refine Sample.filled.proper.alike_apply ?_ (by decide)
  rw [within_iff (by decide)]
  decide

end Engine

end VxlanRouting
