import VxlanRouting.Proofs.Events
import VxlanRouting.Proofs.Foreign

/-!
Calls. From outside the engine is told of events, is handed requests and route items of peers, and
is made to process its queue. What a call does to the queue is said once, for all calls that do not
process it. An event withdraws what the engine has in VRFs that are routing VRFs no more, and then
asks for what is decided. A peer's call asks for paths of this peer only.
-/
namespace VxlanRouting

/-- What is called on the engine. -/
inductive Call where
  | event (event : Event)
  | request (q : Request)
  | updateItem (peer : Peer) (vrf : String) (dest : Prefix) (item : RouteItem)
  | withdrawItem (peer : Peer) (vrf : String) (dest : Prefix) (table : TableKind)
  | process

/-- The peer that a request or an item is from. -/
def Call.peer? : Call → Option Peer
  | .request q => some q.peer
  | .updateItem peer _ _ _ => some peer
  | .withdrawItem peer _ _ _ => some peer
  | .event _ => none
  | .process => none

/-- Paths have been resolved anew at most. -/
def Tables.Renews (db db' : Tables) : Prop :=
  ∀ vrf k, ∃ f : Path → Path, db'.paths vrf k = (db.paths vrf k).map f ∧
    ∀ x, f x = x ∨ ∃ hop, x.hop.key.resolve db'.interfaces = some hop ∧ f x = { x with hop }

theorem Tables.Renews.refl (db : Tables) : db.Renews db :=
  fun _ _ => ⟨id, (List.map_id _).symm, fun _ => .inl rfl⟩

/-- Paths that are resolved anew come from where there were some before. -/
theorem Tables.Renews.path?_eq_none {db db' : Tables} (h : db.Renews db') {vrf : String}
    {k : RouteKey} {p : Peer} (hn : db.path? vrf k p = none) : db'.path? vrf k p = none := by
  obtain ⟨f, hf, hkeep⟩ := h vrf k
  rw [path?_eq_find?] at hn ⊢
  rw [hf, List.find?_eq_none]
  rintro y hy
  obtain ⟨x, hx, rfl⟩ := List.mem_map.mp hy
  have hpeer : (f x).peer = x.peer := by
    rcases hkeep x with he | ⟨hop, _, he⟩
    · rw [he]
    · rw [he]
  rw [hpeer]
  exact List.find?_eq_none.mp hn x hx

theorem Tables.paths_of_routes_nil {db : Tables} (h : ∀ v ∈ db.vrfs.vrfs, v.routes = [])
    (vrf : String) (k : RouteKey) : db.paths vrf k = [] := by
  rw [List.eq_nil_iff_forall_not_mem]
  intro x hx
  obtain ⟨v, r, _, hv, hr, _⟩ := exists_route_of_mem_paths hx
  have hmem := Vrf.mem_routes hr
  rw [h v hv] at hmem
  cases hmem

theorem View.Decided.of_level {v w : View} (h : v.Level w) (ht : v.tables.Proper) {q : Request}
    (hq : v.Decided q) : w.Decided q := by
  obtain ⟨σ, hσ, hof, hask, hbusy⟩ := hq
  refine ⟨σ, (RouterMap.serves_congr h.routers _).mpr hσ, ?_, ?_, mt (h.idle_iff ht σ).mp hbusy⟩
  · rw [h.params]
    exact hof
  · rw [h.want_eq ht]
    exact hask

namespace Engine

/-- The engine after a call. An event that fails changes nothing, and an item may end in a fault. -/
def call (e : Engine) : Call → Except Fault Engine
  | .event event => .ok (match e.handle event with
    | .ok e' => e'
    | .error _ => e)
  | .request q => .ok (e.push q)
  | .updateItem peer vrf p item => e.updateItem peer vrf p item
  | .withdrawItem peer vrf p t => .ok (e.withdrawItem peer vrf p t)
  | .process => .ok e.process.1

/-- The engine after a list of calls; the first fault ends it. -/
def calls (e : Engine) (l : List Call) : Except Fault Engine := l.foldlM call e

theorem calls_cons {e e' : Engine} {c : Call} (h : e.call c = .ok e') (l : List Call) :
    e.calls (c :: l) = e'.calls l := by
  simp only [calls]
  rw [List.foldlM_cons, h]
  rfl

theorem call_of_calls_cons {e e' : Engine} {c : Call} {l : List Call}
    (h : e.calls (c :: l) = .ok e') : ∃ e₁, e.call c = .ok e₁ ∧ e₁.calls l = .ok e' := by
  cases hc : e.call c with
  | ok e₁ =>
    rw [calls_cons hc] at h
    exact ⟨e₁, rfl, h⟩
  | error f =>
    simp only [calls] at h
    rw [List.foldlM_cons, hc] at h
    cases h

theorem calls_append {e e' : Engine} {l l' : List Call} (h : e.calls (l ++ l') = .ok e') :
    ∃ e₁, e.calls l = .ok e₁ ∧ e₁.calls l' = .ok e' := by
  induction l generalizing e with
  | nil => exact ⟨e, rfl, h⟩
  | cons c l ih =>
    obtain ⟨e₁, hc, hl⟩ := call_of_calls_cons h
    obtain ⟨e₂, h₁, h₂⟩ := ih hl
    exact ⟨e₂, by rw [calls_cons hc]; exact h₁, h₂⟩

/-- What holds between calls. -/
structure Orderly (e : Engine) : Prop where
  sound : e.Sound
  coherent : e.routers.Coherent

theorem Orderly.of_akin {e e' : Engine} (h : e.Orderly) (hs : e'.Sound)
    (ha : e.toView.Akin e'.toView) : e'.Orderly :=
  ⟨hs, h.coherent.of_bare_eq ha.routers⟩

/-- What an event does: paths are resolved anew at most, what the engine has in VRFs that are
routing VRFs no more is withdrawn, and then what is decided is asked for. -/
structure Reacts (e e' : Engine) : Prop where
  orderly : e'.Orderly
  params : e'.params = e.params
  renews : e.tables.Renews e'.tables
  queue : ∃ lost w l, e'.queue = e.queue ++ w ++ l ∧
    (∀ vrf, vrf ∈ lost ↔ e.routers.Serves vrf ∧ ¬ e'.routers.Serves vrf) ∧
    Withdrawals e.toView lost w ∧ ∀ q ∈ l, e'.Decided q

/-- What a peer's call does: it asks for paths of this peer. -/
structure Receives (e e' : Engine) (p : Peer) : Prop extends View.Level e.toView e'.toView where
  queue : ∃ l, e'.queue = e.queue ++ l ∧ ∀ q ∈ l, q.peer = p

theorem Receives.refl (e : Engine) (p : Peer) : e.Receives e p where
  toLevel := .refl _
  queue := ⟨[], (List.append_nil _).symm, List.forall_mem_nil _⟩

/-- An engine that has asked for things in an orderly view is orderly. -/
theorem Orderly.of_level {v : View} (hc : v.params.FromConfig) (ht : v.tables.Proper)
    (hm : v.routers.Coherent) {e : Engine} (h : v.Level e.toView) : e.Orderly :=
  ⟨.of_level hc ht hm.sorted h, hm.of_bare_eq h.routers⟩

section

variable {e e' : Engine} (he : e.Orderly)

include he

theorem reacts_of_rewiring {db : Tables} (hdb : e.tables.Relabels db) {m : RouterMap}
    (hm : m.Coherent) {ids : List LogicalRouterId}
    (he' : e' = (({ e with tables := db } : Engine).setRouters m).walkAll ids) : e.Reacts e' := by
  let v : View := ⟨e.params, db, m⟩
  have ht : v.tables.Proper := hdb.proper he.sound.proper
  obtain ⟨hview, w, hw, hown, hall⟩ := setRouters_withdraws { e with tables := db } m
  have hl₁ : v.Level (({ e with tables := db } : Engine).setRouters m).toView :=
    hview.symm ▸ .refl v
  have hg := he' ▸ (walkAll_grows hm ht hl₁ ids).1
  have hl : v.Level e'.toView := hl₁.trans hg.toLevel
  obtain ⟨l, hqueue, hdecided⟩ := hg.queue
  refine ⟨.of_level (v := v) he.sound.config ht hm hl, hl.params,
    fun vrf k => ⟨id, ?_, fun _ => .inl rfl⟩, e.routers.lost m, w, l, ?_, fun vrf => ?_,
    ⟨hown, fun vrf hv k p hp => ?_⟩, fun q hq => (hdecided q hq).of_level hl ht⟩
  · rw [hl.tables, List.map_id]
    exact hdb.paths vrf k
  · rw [hqueue, hw]
  · rw [RouterMap.mem_lost he.coherent.sorted hm.sorted, RouterMap.serves_congr hl.routers]
  · rw [← hdb.path?]
    exact hall vrf hv k p hp

theorem reacts_of_refresh {t : InterfaceTable} {name : String}
    (he' : e' = (e.setInterfaces t).notifyInterface name) : e.Reacts e' := by
  let db := ((e.setInterfaces t).tables.refresh name).1
  let v : View := ⟨e.params, db, e.routers⟩
  let e₁ : Engine := { e with tables := db }
  have hset : (e.setInterfaces t).tables.Proper := ⟨he.sound.proper.named, he.sound.proper.vrf⟩
  have ht : v.tables.Proper := hset.refresh name
  have hg₁ := (foldl_grows (e := e₁) (l := ((e.setInterfaces t).tables.refresh name).2) (.refl v)
    fun e h n _ => notify_grows (v := v) he.coherent ht h n).1
  have hg : Grows v e₁ e' :=
    he' ▸ hg₁.trans (walkAll_grows (v := v) he.coherent ht hg₁.toLevel _).1
  have hl : v.Level e'.toView := hg.toLevel
  obtain ⟨l, hqueue, hdecided⟩ := hg.queue
  refine ⟨.of_level (v := v) he.sound.config ht he.coherent hl, hl.params,
    fun vrf k => ⟨(·.refresh t name), ?_, fun x => ?_⟩, [], [], l, ?_, fun vrf => ?_,
    .nil _, fun q hq => (hdecided q hq).of_level hl ht⟩
  · rw [hl.tables]
    exact Tables.paths_refresh _ name vrf k
  · rw [hl.tables]
    simp only [Path.refresh]
    split
    · split
      · next hop hr => exact .inr ⟨hop, hr, rfl⟩
      · exact .inl rfl
    · exact .inl rfl
  · rw [List.append_nil]
    exact hqueue
  · rw [RouterMap.serves_congr hl.routers]
    simp [v]

theorem Reacts.refl : e.Reacts e where
  orderly := he
  params := rfl
  renews := .refl _
  queue := ⟨[], [], [], by simp, by simp, .nil _, List.forall_mem_nil _⟩

theorem handle_reacts {event : Event} (h : e.handle event = .ok e') : e.Reacts e' := by
  cases event with
  | updateVn c =>
    exact reacts_of_rewiring he (e.relabels_moveVn c.name c.vrf) (he.coherent.configure c)
      (eq_of_updateVn h)
  | deleteVn vn =>
    exact reacts_of_rewiring he (e.relabels_clearVn vn none) (he.coherent.detach vn)
      (Except.ok.inj h).symm
  | updateInterface i => exact reacts_of_refresh he (Except.ok.inj h).symm
  | deleteInterface name =>
    have h := (Except.ok.inj h).symm
    simp only [deleteInterface] at h
    split at h
    · exact reacts_of_refresh he h
    · rw [h]
      exact .refl he

/-- Getting a path to what is wanted asks for a path of its peer at most. -/
theorem sync_receives (vrf : String) (k : RouteKey) (p : Peer) (want : Option Advertisement) :
    e.Receives (e.sync vrf k p want) p := by
  by_cases ha : Accords (e.tables.path? vrf k p) want
  · rw [sync_of_accords ha]
    exact .refl e p
  · obtain ⟨q, hput, _, _, hq, _⟩ := sync_of_not_accords he.sound.sorted ha
    exact ⟨hput.toLevel, [q], hput.queue, by simpa using hq⟩

/-- A call is an event, or from a peer, or processes the queue. -/
theorem call_cases {c : Call} (h : e.call c = .ok e') :
    (c.peer? = none ∧ e.Reacts e') ∨ (∃ p, c.peer? = some p ∧ e.Receives e' p) ∨
      (c = .process ∧ e' = e.process.1) := by
  cases c with
  | event event =>
    have h := Except.ok.inj h
    refine .inl ⟨rfl, ?_⟩
    cases hev : e.handle event with
    | ok e₁ =>
      rw [hev] at h
      rw [show e₁ = e' from h] at hev
      exact handle_reacts he hev
    | error f =>
      rw [hev] at h
      exact h ▸ .refl he
  | request q =>
    rw [← Except.ok.inj h]
    exact .inr (.inl ⟨q.peer, rfl, (puts_push e q).toLevel, [q], rfl, by simp⟩)
  | updateItem peer vrf p item =>
    refine .inr (.inl ⟨peer, rfl, ?_⟩)
    simp only [call, updateItem] at h
    split at h
    · rw [← Except.ok.inj h]
      exact .refl e peer
    · cases ha : e.itemAdvertisement vrf item with
      | error f =>
        rw [ha] at h
        cases h
      | ok want =>
        rw [ha] at h
        rw [← Except.ok.inj h]
        exact sync_receives he _ _ _ _
  | withdrawItem peer vrf p t =>
    rw [← Except.ok.inj h]
    exact .inr (.inl ⟨peer, rfl, sync_receives he _ _ _ _⟩)
  | process => exact .inr (.inr ⟨rfl, (Except.ok.inj h).symm⟩)

theorem Orderly.process : e.process.1.Orderly ∧ e.toView.Akin e.process.1.toView := by
  obtain ⟨hs, ha⟩ := he.sound.process
  exact ⟨he.of_akin hs ha, ha⟩

theorem Orderly.call {c : Call} (h : e.call c = .ok e') : e'.Orderly ∧ e'.params = e.params := by
  rcases call_cases he h with ⟨_, hr⟩ | ⟨_, _, hr⟩ | ⟨_, rfl⟩
  · exact ⟨hr.orderly, hr.params⟩
  · exact ⟨.of_level he.sound.config he.sound.proper he.coherent hr.toLevel, hr.params⟩
  · exact ⟨he.process.1, he.process.2.params⟩

theorem Orderly.calls {l : List Call} (h : e.calls l = .ok e') :
    e'.Orderly ∧ e'.params = e.params := by
  induction l generalizing e with
  | nil =>
    cases h
    exact ⟨he, rfl⟩
  | cons c l ih =>
    obtain ⟨e₁, hc, hl⟩ := call_of_calls_cons h
    obtain ⟨he₁, hp₁⟩ := he.call hc
    obtain ⟨he', hp'⟩ := ih he₁ hl
    exact ⟨he', hp'.trans hp₁⟩

end

/-- An engine at its start: no VN is attached, and there is neither a request nor a path of its
own. -/
structure Initial (e : Engine) : Prop where
  config : e.params.FromConfig
  filled : e.tables.Filled
  routers : e.routers = {}
  queue : e.queue = []
  clear : ∀ vrf k p, e.params.Owns p → e.tables.path? vrf k p = none

theorem Initial.orderly {e : Engine} (h : e.Initial) : e.Orderly := by
  have hm : e.routers.Coherent := h.routers ▸ RouterMap.coherent_empty
  exact ⟨⟨h.config, h.filled.proper, hm.sorted⟩, hm⟩

end Engine

namespace Sample

/-- The engine before any VN has been configured. -/
def start : Engine :=
  { engine with
    tables := { withVrf (withVrf {} "bridge" none) "routing" (some 7) with
      interfaces := tables.interfaces },
    routers := {} }

theorem initial : start.Initial where
  config := fromConfig
  filled := .setInterfaces _ (filled_withVrf (filled_withVrf .empty _ _) _ _)
  routers := rfl
  queue := rfl
  clear vrf k p _ := by
    rw [Tables.path?_eq_find?, Tables.paths_of_routes_nil (by decide +kernel)]
    rfl

/-- A machine gets a network, and the VNs are attached. -/
def attaching : List Call :=
  [.request install, .process, .event (.updateVn routingVn), .event (.updateVn bridgeVn)]

end Sample

end VxlanRouting
