import VxlanRouting.Proofs.Checks
import VxlanRouting.Proofs.Sequences

/-!
The ECMP sequences of composites. A composite that is asked for keeps the sequence of the installed
one while the members stay; otherwise it takes the next one from the counter of the router that its
VRF serves. All that decisions do is to ask for paths one after another. So in the course of many,
whatever becomes of the tables meanwhile, a router gives out its sequences one by one in the order
of the requests, and no counter moves for anything else.
-/
namespace VxlanRouting

/-- The members of the installed composite; `none` if no composite is installed. -/
def installedMembers (found : Option Path) : Option (List MemberKey) :=
  found.bind (·.hop.key.members?)

namespace RouterMap

theorem router?_of_servedBy? {m : RouterMap} (hs : m.routers.Sorted) {vrf : String}
    {id : LogicalRouterId} (h : m.servedBy? vrf = some id) :
    ∃ r, m.router? id = some r ∧ r.routingVrf = some vrf := by
  obtain ⟨e, he, rfl⟩ := Option.map_eq_some_iff.mp h
  refine ⟨e.2, OrderedMap.get?_of_mem hs (List.mem_of_find?_eq_some he), ?_⟩
  simpa using List.find?_some he

theorem not_serves_of_servedBy? {m : RouterMap} {vrf : String} (h : m.servedBy? vrf = none) :
    ¬ m.Serves vrf := by
  rintro ⟨id, r, hr, hv⟩
  have hnone := List.find?_eq_none.mp (Option.map_eq_none_iff.mp h) (id, r)
    (Entries.mem_of_get? hr)
  simp [hv] at hnone

/-- The sequence of a composite with some members in a VRF, and the routers when it has got it. -/
inductive Stamps (m : RouterMap) (vrf : String) (found : Option Path) (ms : List MemberKey) :
    Nat → RouterMap → Prop
  | kept (x : Path) : found = some x → installedMembers found = some ms →
      Stamps m vrf found ms x.attrs.ecmpSequence m
  | next (id : LogicalRouterId) (r : LogicalRouter) : installedMembers found ≠ some ms →
      m.servedBy? vrf = some id → m.router? id = some r → r.routingVrf = some vrf →
      Stamps m vrf found ms (r.ecmpSequence + 1) (m.nextSequence id).1
  | unserved : installedMembers found ≠ some ms → ¬ m.Serves vrf → Stamps m vrf found ms 0 m

end RouterMap

/-- What a request for a composite says, and what has become of the routers when it was made. For
any other request they stay as they are. -/
def Request.Counted (q : Request) (db : Tables) (m m' : RouterMap) : Prop :=
  match q.action with
  | .installEcmp composite attrs joined =>
    let found := db.path? q.vrf q.key q.peer
    ∃ kind ms, composite = .composite kind ms ∧
      joined = ms.filter (· ∉ (installedMembers found).getD []) ∧
      m.Stamps q.vrf found ms attrs.ecmpSequence m'
  | .installLocal _ _ | .installTunnel _ _ | .withdraw => m' = m

/-- The sequence that a request has taken from the counter of a router: that of a composite whose
members are not those of the installed one, in a VRF that the router serves. -/
def Request.taken? (q : Request) (db : Tables) (m : RouterMap) (id : LogicalRouterId) :
    Option Nat :=
  match q.action with
  | .installEcmp composite attrs _ =>
    if installedMembers (db.path? q.vrf q.key q.peer) ≠ composite.members? ∧
        m.servedBy? q.vrf = some id then
      some attrs.ecmpSequence
    else none
  | .installLocal _ _ | .installTunnel _ _ | .withdraw => none

namespace RouterMap

/-- Requests that are made one after another, each with the tables of its time. -/
inductive Counts : RouterMap → List (Tables × Request) → RouterMap → Prop
  | nil (m : RouterMap) : Counts m [] m
  | cons {m m₁ m₂ : RouterMap} {db : Tables} {q : Request} {l : List (Tables × Request)} :
      q.Counted db m m₁ → Counts m₁ l m₂ → Counts m ((db, q) :: l) m₂

theorem Counts.append {m m₁ m₂ : RouterMap} {l l' : List (Tables × Request)}
    (h : m.Counts l m₁) (h' : m₁.Counts l' m₂) : m.Counts (l ++ l') m₂ := by
  induction h with
  | nil => exact h'
  | cons hq _ ih => exact .cons hq (ih h')

variable {m m' : RouterMap} {db : Tables} {q : Request} {l : List (Tables × Request)}

theorem bare_of_counted (hs : m.routers.Sorted) (h : q.Counted db m m') : m'.bare = m.bare := by
  simp only [Request.Counted] at h
  split at h
  · obtain ⟨_, _, _, _, hstamp⟩ := h
    -- the sequence is an index of the stamp, which has to be a variable
    generalize Attributes.ecmpSequence _ = n at hstamp
    cases hstamp with
    | kept => rfl
    | next id => exact bare_nextSequence hs id
    | unserved => rfl
  all_goals rw [h]

theorem Counts.bare (hs : m.routers.Sorted) (h : m.Counts l m') : m'.bare = m.bare := by
  induction h with
  | nil => rfl
  | cons hq _ ih =>
    have hb := bare_of_counted hs hq
    exact (ih (sorted_of_bare_eq hb hs)).trans hb

/-- A request takes the next sequence of a router and moves its counter, or does neither. -/
theorem taken?_of_counted (hs : m.routers.Sorted) (h : q.Counted db m m') {id : LogicalRouterId}
    {r : LogicalRouter} (hr : m.router? id = some r) :
    (q.taken? db m id = none ∧ m'.router? id = some r) ∨
      (q.taken? db m id = some (r.ecmpSequence + 1) ∧
        m'.router? id = some { r with ecmpSequence := r.ecmpSequence + 1 }) := by
  simp only [Request.Counted] at h
  simp only [Request.taken?]
  split at h
  · next composite attrs joined _ =>
    obtain ⟨kind, ms, rfl, _, hstamp⟩ := h
    generalize attrs.ecmpSequence = n at hstamp
    simp only [NextHopKey.members?]
    cases hstamp with
    | kept x _ hsame => exact .inl ⟨if_neg fun h => h.1 hsame, hr⟩
    | unserved _ hv =>
      exact .inl ⟨if_neg fun h => hv ⟨id, router?_of_servedBy? hs h.2⟩, hr⟩
    | next id' r' hnew hid hr' _ =>
      by_cases he : id' = id
      · subst he
        cases hr.symm.trans hr'
        right
        exact ⟨if_pos ⟨hnew, hid⟩, by rw [router?_nextSequence hr, if_pos rfl]⟩
      · left
        refine ⟨if_neg fun h => he (Option.some.inj (hid.symm.trans h.2)), ?_⟩
        rw [router?_nextSequence hr, if_neg he]
  all_goals
    rw [h]
    exact .inl ⟨rfl, hr⟩

theorem taken?_congr {m m' : RouterMap} (h : m'.bare = m.bare) (q : Request) (db : Tables)
    (id : LogicalRouterId) : q.taken? db m' id = q.taken? db m id := by
  have hserved : m'.servedBy? q.vrf = m.servedBy? q.vrf := by
    rw [← servedBy?_bare, h, servedBy?_bare]
  simp only [Request.taken?]
  rw [hserved]

/-- The sequences that some requests have taken from the counter of a router. -/
def taken (m : RouterMap) (id : LogicalRouterId) (l : List (Tables × Request)) : List Nat :=
  l.filterMap fun e => e.2.taken? e.1 m id

theorem taken_cons (m : RouterMap) (id : LogicalRouterId) (db : Tables) (q : Request)
    (l : List (Tables × Request)) :
    m.taken id ((db, q) :: l) = (q.taken? db m id).toList ++ m.taken id l := by
  simp only [taken, List.filterMap_cons]
  cases q.taken? db m id <;> rfl

/-- A router gives out the sequences that come after its counter, one by one. -/
theorem Counts.taken_eq (hs : m.routers.Sorted) (h : m.Counts l m') {id : LogicalRouterId}
    {r : LogicalRouter} (hr : m.router? id = some r) :
    m.taken id l = List.range' (r.ecmpSequence + 1) (m.taken id l).length ∧
      m'.router? id = some { r with ecmpSequence := r.ecmpSequence + (m.taken id l).length } := by
  induction h generalizing r with
  | nil => exact ⟨rfl, hr⟩
  | @cons m m₁ m₂ db q l hq _ ih =>
    have hb := bare_of_counted hs hq
    have hrest : m.taken id l = m₁.taken id l := by
      simp only [taken, taken?_congr hb]
    rcases taken?_of_counted hs hq hr with ⟨ht, hr₁⟩ | ⟨ht, hr₁⟩
    · rw [taken_cons, ht, hrest]
      exact ih (sorted_of_bare_eq hb hs) hr₁
    · obtain ⟨hrange, hend⟩ := ih (sorted_of_bare_eq hb hs) hr₁
      rw [taken_cons, ht, hrest]
      refine ⟨?_, ?_⟩
      · rw [Option.toList_some, List.singleton_append, List.length_cons, List.range'_succ]
        exact congrArg _ hrange
      · rw [hend, Option.toList_some, List.singleton_append, List.length_cons]
        simp only [Option.some.injEq, LogicalRouter.mk.injEq, true_and]
        omega

end RouterMap

namespace Engine

/-- The engine has put requests into its queue, each with its sequence, and has not changed the
tables. -/
structure Advances (e e' : Engine) : Prop where
  tables : e'.tables = e.tables
  queue : ∃ l, e'.queue = e.queue ++ l ∧ e.routers.Counts (l.map (e.tables, ·)) e'.routers

theorem Advances.refl (e : Engine) : e.Advances e := ⟨rfl, [], (List.append_nil _).symm, .nil _⟩

theorem Advances.trans {e e₁ e₂ : Engine} (h : e.Advances e₁) (h' : e₁.Advances e₂) :
    e.Advances e₂ := by
  obtain ⟨l, hq, hl⟩ := h.queue
  obtain ⟨l', hq', hl'⟩ := h'.queue
  refine ⟨h'.tables.trans h.tables, l ++ l', by rw [hq', hq, List.append_assoc], ?_⟩
  rw [h.tables] at hl'
  rw [List.map_append]
  exact hl.append hl'

theorem Advances.sorted {e e' : Engine} (h : e.Advances e') (hs : e.routers.routers.Sorted) :
    e'.routers.routers.Sorted := by
  obtain ⟨_, _, hl⟩ := h.queue
  exact RouterMap.sorted_of_bare_eq (hl.bare hs) hs

/-- Withdrawals need no sequences. -/
theorem advances_of_withdraw (e : Engine) {l : List Request} (h : ∀ q ∈ l, q.action = .withdraw) :
    e.Advances { e with queue := e.queue ++ l } := by
  refine ⟨rfl, l, rfl, ?_⟩
  induction l with
  | nil => exact .nil _
  | cons q l ih =>
    refine .cons ?_ (ih fun r hr => h r (List.mem_cons_of_mem _ hr))
    unfold Request.Counted
    rw [h q List.mem_cons_self]

theorem stamps_nextSequence {e : Engine} (hs : e.routers.routers.Sorted) {vrf : String}
    {found : Option Path} {ms : List MemberKey} (hnew : installedMembers found ≠ some ms) :
    e.routers.Stamps vrf found ms (e.nextSequence vrf).2 (e.nextSequence vrf).1.routers := by
  simp only [nextSequence]
  split
  · next hn => exact .unserved hnew (RouterMap.not_serves_of_servedBy? hn)
  · next id hid =>
    obtain ⟨r, hr, hv⟩ := RouterMap.router?_of_servedBy? hs hid
    have hstamp := RouterMap.Stamps.next id r hnew hid hr hv
    rw [← RouterMap.snd_nextSequence hr] at hstamp
    exact hstamp

theorem stamps_sequenceFor {e : Engine} (hs : e.routers.routers.Sorted) (vrf : String)
    (kind : CompositeKind) (ms : List MemberKey) (found : Option Path) :
    e.routers.Stamps vrf found ms (e.sequenceFor vrf (.composite kind ms) found).2
      (e.sequenceFor vrf (.composite kind ms) found).1.routers := by
  cases found with
  | none => exact stamps_nextSequence hs (Option.some_ne_none ms).symm
  | some x =>
    simp only [sequenceFor]
    split
    · next hsame => exact .kept x rfl hsame
    · next hnew => exact stamps_nextSequence hs hnew

theorem install_advances {e : Engine} (hs : e.routers.routers.Sorted) (vrf : String) (k : RouteKey)
    (peer : Peer) {a : Advertisement} (ha : a.Composed) :
    e.Advances (e.install vrf k peer (e.tables.path? vrf k peer) a) := by
  cases a with
  | single hop attrs => exact ⟨rfl, [_], rfl, .cons rfl (.nil _)⟩
  | tunnel t attrs => exact ⟨rfl, [_], rfl, .cons rfl (.nil _)⟩
  | ecmp composite attrs =>
    obtain ⟨ms, hms⟩ := Option.ne_none_iff_exists'.mp ha
    cases composite with
    | composite kind ms' =>
      cases hms
      obtain ⟨_, ht, _, hq⟩ :=
        sequenceFor_spec hs vrf (.composite kind ms) (e.tables.path? vrf k peer)
      have hstamp := stamps_sequenceFor hs vrf kind ms (e.tables.path? vrf k peer)
      refine ⟨ht, [_], congrArg (· ++ [_]) hq, .cons ?_ (.nil _)⟩
      exact ⟨kind, ms, rfl, rfl, hstamp⟩
    | _ => cases hms

theorem sync_advances {e : Engine} (hs : e.routers.routers.Sorted) (vrf : String) (k : RouteKey)
    (peer : Peer) {want : Option Advertisement} (hw : ∀ a ∈ want, a.Composed) :
    e.Advances (e.sync vrf k peer want) := by
  simp only [sync]
  cases hf : e.tables.path? vrf k peer with
  | none =>
    cases want with
    | none => exact .refl e
    | some a =>
      have hinstall := install_advances hs vrf k peer (hw a rfl)
      rw [hf] at hinstall
      exact hinstall
  | some x =>
    cases want with
    | none => exact e.advances_of_withdraw (l := [⟨vrf, k, peer, .withdraw⟩]) (by simp)
    | some a =>
      have hinstall := install_advances hs vrf k peer (hw a rfl)
      rw [hf] at hinstall
      dsimp only
      split
      · exact .refl e
      · exact hinstall

namespace Advances

variable {e₀ e : Engine} (hs : e₀.routers.routers.Sorted)

include hs

theorem sync (h : e₀.Advances e) (vrf : String) (k : RouteKey) (peer : Peer)
    {want : Option Advertisement} (hw : ∀ a ∈ want, a.Composed) :
    e₀.Advances (e.sync vrf k peer want) :=
  h.trans (sync_advances (h.sorted hs) vrf k peer hw)

theorem run (h : e₀.Advances e) (d : Direction) (vrf : String) (p : Prefix) :
    e₀.Advances (e.run d vrf p) := by
  rw [run_eq_fulfil]
  exact h.sync hs _ _ _ fun a ha => Duty.composed_of_want ha

theorem reconcile (h : e₀.Advances e) (vrf : String) (p : Prefix) :
    e₀.Advances (e.reconcile vrf p) :=
  ((h.run hs .fromBridges vrf p).run hs .toInet vrf p).run hs .toEvpn vrf p

theorem walk (h : e₀.Advances e) (id : LogicalRouterId) : e₀.Advances (e.walk id) := by
  simp only [Engine.walk]
  split
  · exact h
  · split
    · exact h
    · next vrf _ =>
      exact List.foldlRecOn (motive := fun e : Engine => e₀.Advances e) _ _ h
        fun _ h p _ => h.reconcile hs vrf p

theorem notify (h : e₀.Advances e) (n : Notification) : e₀.Advances (e.notify n) := by
  simp only [Engine.notify, exportFrom]
  split
  · exact h
  · split
    · split
      · exact h.run hs .toEvpn _ _
      · split
        · exact h.run hs .toInet _ _
        · exact h
    · split
      · split
        · split
          · exact h
          · exact h.run hs .fromBridges _ _
        · exact h
      · exact h

theorem updateItem (h : e₀.Advances e) (peer : Peer) (vrf : String) (p : Prefix)
    (item : RouteItem) {e' : Engine} (he : e.updateItem peer vrf p item = .ok e') :
    e₀.Advances e' := by
  simp only [Engine.updateItem] at he
  split at he
  · cases he
    exact h
  · cases hw : e.itemAdvertisement vrf item with
    | error f =>
      rw [hw] at he
      cases he
    | ok want =>
      rw [hw] at he
      cases he
      exact h.sync hs _ _ _ (composed_of_itemAdvertisement hw)

end Advances

/-- What the engine decides on. -/
inductive Decision where
  | run (d : Direction) (vrf : String) (p : Prefix)
  | notify (n : Notification)
  | walk (id : LogicalRouterId)
  | withdrawAll (vrf : String)
  | updateItem (peer : Peer) (vrf : String) (p : Prefix) (item : RouteItem)
  | withdrawItem (peer : Peer) (vrf : String) (p : Prefix) (t : TableKind)

/-- The engine when it has decided; an item that cannot be installed changes nothing. -/
def perform (e : Engine) : Decision → Engine
  | .run d vrf p => e.run d vrf p
  | .notify n => e.notify n
  | .walk id => e.walk id
  | .withdrawAll vrf => e.withdrawAll vrf
  | .updateItem peer vrf p item => (e.updateItem peer vrf p item).toOption.getD e
  | .withdrawItem peer vrf p t => e.withdrawItem peer vrf p t

theorem perform_advances {e : Engine} (hs : e.routers.routers.Sorted) (d : Decision) :
    e.Advances (e.perform d) := by
  cases d with
  | run d vrf p => exact (Advances.refl e).run hs d vrf p
  | notify n => exact (Advances.refl e).notify hs n
  | walk id => exact (Advances.refl e).walk hs id
  | withdrawAll vrf =>
    obtain ⟨hview, w, hw, hl⟩ := e.withdrawAll_withdraws vrf
    have he : e.withdrawAll vrf = { e with queue := e.queue ++ w } := by
      rw [← hw, ← hview]
    simp only [perform]
    rw [he]
    exact e.advances_of_withdraw fun q hq => (hl.own q hq).1
  | updateItem peer vrf p item =>
    simp only [perform]
    cases he : e.updateItem peer vrf p item with
    | error f => exact .refl e
    | ok e' => exact (Advances.refl e).updateItem hs peer vrf p item he
  | withdrawItem peer vrf p t => exact (Advances.refl e).sync hs _ _ _ fun a ha => (by cases ha)

/-- A moment of a course: the tables and the requests that wait as they are then, and what is
decided. -/
structure Moment where
  tables : Tables
  waiting : List Request
  decision : Decision

/-- The engine when it has decided at a moment; its parameters and routers come from before. -/
def pass (e : Engine) (t : Moment) : Engine :=
  ({ e with tables := t.tables, queue := t.waiting } : Engine).perform t.decision

/-- The requests that are made at a moment: those behind the ones that wait. -/
def asked (e : Engine) (t : Moment) : List Request :=
  (e.pass t).queue.drop t.waiting.length

/-- The engine after some moments. -/
def course (e : Engine) : List Moment → Engine
  | [] => e
  | t :: l => (e.pass t).course l

/-- All requests of a course in their order, each with the tables of its moment. -/
def record (e : Engine) : List Moment → List (Tables × Request)
  | [] => []
  | t :: l => (e.asked t).map (t.tables, ·) ++ (e.pass t).record l

/-- A decision leaves the requests that wait where they are, and numbers its own. -/
theorem counts_asked {e : Engine} (hs : e.routers.routers.Sorted) (t : Moment) :
    (e.pass t).queue = t.waiting ++ e.asked t ∧
      e.routers.Counts ((e.asked t).map (t.tables, ·)) (e.pass t).routers := by
  let e₁ : Engine := { e with tables := t.tables, queue := t.waiting }
  obtain ⟨l, hq, hl⟩ := (perform_advances (e := e₁) hs t.decision).queue
  have hasked : e.asked t = l := by
    simp only [asked, pass]
    rw [hq]
    exact List.drop_left
  rw [hasked]
  exact ⟨hq, hl⟩

theorem counts_record {e : Engine} (hs : e.routers.routers.Sorted) (l : List Moment) :
    e.routers.Counts (e.record l) (e.course l).routers := by
  induction l generalizing e with
  | nil => exact .nil _
  | cons t l ih =>
    obtain ⟨_, hl⟩ := counts_asked hs t
    exact hl.append (ih (RouterMap.sorted_of_bare_eq (hl.bare hs) hs))

/-- In the course of decisions, with any tables and any requests waiting at each, every composite
that is asked for is numbered with the counters of its time. The routers and their VNs stay as they
are, and each router gives out the sequences that come after its counter, one by one and in the
order of the requests; its counter moves by as many as these are. -/
theorem record_stamps (e : Engine) (hs : e.routers.routers.Sorted) (l : List Moment) :
    (∀ t, (e.pass t).queue = t.waiting ++ e.asked t) ∧
      e.routers.Counts (e.record l) (e.course l).routers ∧
      (e.course l).routers.bare = e.routers.bare ∧
      ∀ id r, e.routers.router? id = some r →
        e.routers.taken id (e.record l) =
            List.range' (r.ecmpSequence + 1) (e.routers.taken id (e.record l)).length ∧
          (e.routers.taken id (e.record l)).Pairwise (· < ·) ∧
          (e.course l).routers.router? id =
            some { r with
              ecmpSequence := r.ecmpSequence + (e.routers.taken id (e.record l)).length } := by
  have hcounts := counts_record hs l
  refine ⟨fun t => (counts_asked hs t).1, hcounts, hcounts.bare hs, fun id r hr => ?_⟩
  obtain ⟨hrange, hend⟩ := hcounts.taken_eq hs hr
  refine ⟨hrange, ?_, hend⟩
  rw [hrange]
  exact List.pairwise_lt_range'

end Engine

namespace Sample

def members : List MemberKey := [⟨1, .interface "tap" false⟩, ⟨2, .interface "tap2" false⟩]

/-- A machine has the network behind some interfaces of its own, both of which are there. -/
def behind (ms : List MemberKey) : Tables :=
  ({ vrfs with interfaces := tables.interfaces.put tap₂ }.apply
    ⟨"bridge", .inet subnet, ⟨"machine", .localVm⟩, .installLocal (.composite .ecmp ms) {}⟩).1

/-- Its network has been exported under the first sequence, but without a VN. -/
def exported : Tables :=
  ((behind members).apply ⟨"routing", .evpn (.type5 subnet), params.exportPeer,
    .installEcmp (.composite .localEcmp members) { ecmpSequence := 1 } []⟩).1

/-- The network is exported; then it has been installed under its first sequence, needs its VN and
leaks; then the machine has its interfaces in another order. -/
def moments : List Engine.Moment :=
  [⟨behind members, [], .run .fromBridges "routing" subnet⟩,
    ⟨exported, [leakTap], .walk router⟩,
    ⟨behind members.reverse, [], .run .fromBridges "routing" subnet⟩]

end Sample

namespace Engine

/-- Four composites are asked for; the one that only needs its VN keeps its sequence. -/
theorem record_stamps_moments :
    (Sample.engine.record Sample.moments).length = 4 ∧
      Sample.engine.routers.taken Sample.router (Sample.engine.record Sample.moments) = [1, 2, 3] ∧
      ((Sample.engine.course Sample.moments).routers.router? Sample.router).map (·.ecmpSequence) =
        some 3 := by
  obtain ⟨_, _, _, h⟩ := record_stamps Sample.engine Sample.configured.coherent.sorted
    Sample.moments
  have hr : Sample.engine.routers.router? Sample.router =
      some ⟨some "routing-vn", some "routing", ⟨[("bridge-vn", "bridge")]⟩, 0⟩ := by decide +kernel
  obtain ⟨hrange, _, hend⟩ := h Sample.router _ hr
  have hlen : (Sample.engine.routers.taken Sample.router
      (Sample.engine.record Sample.moments)).length = 3 := by decide +kernel
  rw [hlen] at hrange hend
  exact ⟨by decide +kernel, hrange, by rw [hend]; rfl⟩

end Engine

end VxlanRouting
