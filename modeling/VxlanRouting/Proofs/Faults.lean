import VxlanRouting.Proofs.Checks

/-!
No call ends in a fault. A path of the kind of exports is local: it leads to an interface, or to a
composite whose members are interfaces, and so are those of them that are live. Only the engine asks
for such paths, namely for machines of this host. What is exported of a source therefore is made of
interfaces, whatever other peers have installed, and the members of a route item are interfaces and
tunnels.
-/
namespace VxlanRouting

/-- The key is an interface or a composite of interfaces. -/
def NextHopKey.IsLocal : NextHopKey → Prop
  | .interface _ _ => True
  | .composite _ ms => ∀ m ∈ ms, m.key.isInterface
  | _ => False

/-- Such a next-hop, with members alive that are interfaces. -/
structure NextHop.IsLocal (h : NextHop) : Prop where
  key : h.key.IsLocal
  live : ∀ ms ∈ h.live?, ∀ m ∈ ms, m.hop.key.isInterface

theorem NextHopKey.IsLocal.of_isInterface {k : NextHopKey} (h : k.isInterface) : k.IsLocal := by
  cases k with
  | interface name policy => trivial
  | _ => cases h

/-- A live member has been resolved from one of the keys. -/
theorem MemberKey.key_of_mem_slots {t : InterfaceTable} {ms : List MemberKey} {m : LiveMember}
    (h : m ∈ (MemberKey.slots t ms).filterMap Slot.member?) : ∃ m' ∈ ms, m.hop.key = m'.key := by
  rw [slots_eq_map] at h
  obtain ⟨s, hs, hm⟩ := List.mem_filterMap.mp h
  obtain ⟨⟨label, key⟩, hm', rfl⟩ := List.mem_map.mp hs
  refine ⟨_, hm', ?_⟩
  simp only [slot] at hm
  split at hm
  · next hop hr =>
    cases hm
    exact NextHopKey.key_of_resolve hr
  · cases hm

theorem NextHopKey.IsLocal.of_resolve {k : NextHopKey} (hk : k.IsLocal) {t : InterfaceTable}
    {h : NextHop} (hr : k.resolve t = some h) : h.IsLocal := by
  have hkey : h.key = k := key_of_resolve hr
  refine ⟨hkey ▸ hk, fun ms hms m hm => ?_⟩
  cases k with
  | interface name policy =>
    obtain ⟨i, _, rfl⟩ := Option.map_eq_some_iff.mp hr
    cases hms
  | composite kind keys =>
    cases hr
    cases hms
    obtain ⟨m', hm', he⟩ := MemberKey.key_of_mem_slots hm
    rw [he]
    exact hk m' hm'
  | _ => exact hk.elim

/-- What the action installs is local. -/
def Action.IsLocal : Action → Prop
  | .installLocal hop _ => hop.IsLocal
  | .installEcmp composite _ _ => composite.IsLocal
  | .installTunnel _ _ => False
  | .withdraw => True

theorem Action.IsLocal.of_path? {a : Action} (h : a.IsLocal) {t : InterfaceTable} {peer : Peer}
    {x : Path} (hx : a.path? t peer = some x) : x.hop.IsLocal := by
  cases a with
  | installLocal hop attrs =>
    obtain ⟨hop', hr, rfl⟩ := Option.map_eq_some_iff.mp hx
    exact NextHopKey.IsLocal.of_resolve h hr
  | installEcmp composite attrs joined =>
    obtain ⟨hop', hr, rfl⟩ := Option.map_eq_some_iff.mp hx
    exact NextHopKey.IsLocal.of_resolve h hr
  | installTunnel t attrs => exact h.elim
  | withdraw => cases hx

theorem Action.isLocal_of_asks {a : Action} {want : Option Advertisement} (h : a.Asks want)
    (hw : ∀ b ∈ want, b.hopKey.IsLocal) : a.IsLocal := by
  simp only [Asks] at h
  split at h
  · trivial
  · rw [IsLocal, h.1]
    exact hw _ rfl
  · exact (hw _ rfl).elim
  · rw [IsLocal, h.1]
    exact hw _ rfl
  · exact h.elim

namespace View

theorem isLocal_of_ofMembers {v : View} {ms : List MemberKey} (hms : ∀ m ∈ ms, m.key.isInterface)
    {attrs : Attributes} {a : Advertisement} (h : v.ofMembers ms attrs = some a) :
    a.hopKey.IsLocal := by
  simp only [ofMembers] at h
  split at h
  · cases h
  · exact absurd (hms _ List.mem_cons_self) (NextHopKey.not_isInterface_tunnel _)
  · cases h
    exact .of_isInterface (hms _ List.mem_cons_self)
  · cases h
    exact hms

/-- Exports are local. -/
theorem isLocal_of_exported {v : View} {vrf : String} {p : Prefix} {a : Advertisement}
    (h : v.exported vrf p = some a) : a.hopKey.IsLocal := by
  rw [exported_eq_bind] at h
  obtain ⟨s, _, h⟩ := Option.bind_eq_some_iff.mp h
  rw [localAdvertisement_eq] at h
  exact isLocal_of_ofMembers (fun m hm => isInterface_of_isMachine (isMachine_of_mem_machines hm)) h

/-- What the engine asks for under the kind of exports is local. -/
theorem isLocal_of_asks {v : View} (hc : v.params.FromConfig) {σ : Duty} {q : Request}
    (hof : σ.Of v.params q) (hask : q.action.Asks (σ.want v))
    (hk : q.peer.kind = .localExport) : q.action.IsLocal := by
  refine Action.isLocal_of_asks hask fun a ha => ?_
  rw [hof.2.2] at hk
  obtain ⟨d, vrf, p⟩ := σ
  have hleak : v.params.leakPeer.kind ≠ .localExport := by
    rw [hc.kind_leakPeer]
    decide
  cases d with
  | fromBridges => exact isLocal_of_exported ha
  | toInet => exact absurd hk hleak
  | toEvpn => exact absurd hk hleak

end View

namespace Tables

/-- Installed paths of the kind of exports are local. -/
def ExportsLocal (db : Tables) : Prop :=
  ∀ vrf k, ∀ x ∈ db.paths vrf k, x.peer.kind = .localExport → x.hop.IsLocal

theorem ExportsLocal.apply {db : Tables} (h : db.ExportsLocal) {q : Request}
    (hq : q.peer.kind = .localExport → q.action.IsLocal) : (db.apply q).1.ExportsLocal := by
  intro vrf k x hx hk
  rcases mem_paths_apply hx with hx | hx
  · exact h vrf k x hx hk
  · rw [Action.peer_of_path? hx] at hk
    exact (hq hk).of_path? hx

theorem ExportsLocal.renews {db db' : Tables} (h : db.ExportsLocal) (hr : db.Renews db') :
    db'.ExportsLocal := by
  intro vrf k y hy hk
  obtain ⟨f, hf, hkeep⟩ := hr vrf k
  rw [hf] at hy
  obtain ⟨x, hx, rfl⟩ := List.mem_map.mp hy
  rcases hkeep x with he | ⟨hop, hres, he⟩
  · rw [he] at hk ⊢
    exact h vrf k x hx hk
  · rw [he] at hk ⊢
    exact (h vrf k x hx hk).key.of_resolve hres

/-- A search ends at a route of the VRF, whatever the address. -/
theorem Proper.route?_of_locate? {db : Tables} (h : db.Proper) {vrf : String} {t : TableKind}
    {a : Address} {n : Nat} {r : Route} (hr : db.locate? vrf t a n = some r) :
    ∃ k, db.route? vrf k = some r := by
  obtain ⟨v, hv, hl⟩ := Option.bind_eq_some_iff.mp hr
  simp only [Vrf.locate?] at hl
  split at hl
  · cases hl
  · next p hp =>
    obtain ⟨_, hhit⟩ := Option.filter_eq_some_iff.mp hl
    obtain ⟨hdest, hnet⟩ : r.dest = p ∧ r.dest.network = a := by simpa using hhit
    have hn : p.length = n := by
      simp only [Prefix.ofAddress?] at hp
      split at hp
      · cases hp
        rfl
      · cases hp
    refine ⟨.ofPrefix t p.canonical, ?_⟩
    rw [← h.locate?_eq, hn, ← hdest, hnet]
    exact hr

end Tables

namespace View

section

variable {v : View} (ht : v.tables.Proper) (hl : v.tables.ExportsLocal) (vrf : String)

include ht hl

theorem exportMembers_ok (t : TableKind) (s : Prefix) :
    ∃ ms, v.exportMembers vrf t s = .ok ms ∧ ∀ m ∈ ms, m.key.isInterface := by
  simp only [exportMembers]
  split
  · exact ⟨[], rfl, List.forall_mem_nil _⟩
  · next x hx =>
    -- the path that is found is installed, wherever the search has ended
    obtain ⟨r, hr, hx⟩ := Option.bind_eq_some_iff.mp hx
    obtain ⟨k, hk⟩ := ht.route?_of_locate? hr
    have hmem : x ∈ v.tables.paths vrf k := by
      rw [ht.route?_eq] at hk
      split at hk
      · cases hk
      · cases hk
        exact List.mem_of_find?_eq_some hx
    obtain ⟨hkey, hlive⟩ := hl vrf k x hmem (by simpa using List.find?_some hx)
    cases hh : x.hop with
    | interface name label policy =>
      refine ⟨_, rfl, fun m hm => ?_⟩
      rw [List.mem_singleton] at hm
      rw [hm]
      rfl
    | composite kind keys slots =>
      rw [hh] at hlive
      refine ⟨_, rfl, fun m hm => ?_⟩
      obtain ⟨m', hm', rfl⟩ := List.mem_map.mp hm
      exact hlive _ rfl m' hm'
    | _ =>
      rw [hh] at hkey
      exact hkey.elim

omit ht hl in
theorem isInterface_of_sessionHopMembers? {v : View} {h : NextHop} {ms : List MemberKey}
    (hms : v.sessionHopMembers? h = some ms) : ∀ m ∈ ms, m.key.isInterface := by
  simp only [sessionHopMembers?] at hms
  split at hms
  · next hs =>
    cases hms
    intro m hm
    rw [List.mem_singleton] at hm
    rw [hm]
    simp only [Tables.IsSessionInterface] at hs
    split at hs
    · rfl
    · exact hs.elim
  · split at hms
    · obtain ⟨live, _, rfl⟩ := Option.map_eq_some_iff.mp hms
      intro m hm
      obtain ⟨l, hl, rfl⟩ := List.mem_map.mp hm
      have hi : l.hop.isInterface := (List.mem_filter.mp hl).2
      simpa [NextHopKey.isInterface, NextHop.isInterface] using hi
    · cases hms

omit ht hl in
theorem isInterface_of_mem_sessionMembers {v : View} {vrf : String} {s : Prefix} {m : MemberKey}
    (h : m ∈ v.sessionMembers vrf s) : m.key.isInterface := by
  simp only [sessionMembers] at h
  cases hf : ((vrf :: (v.routers.bridgesOf vrf).map (·.2)).findSome? fun c =>
      (v.localHop? c s).bind v.sessionHopMembers?) with
  | none =>
    rw [hf] at h
    cases h
  | some ms =>
    rw [hf] at h
    obtain ⟨c, _, hc⟩ := List.exists_of_findSome?_eq_some hf
    obtain ⟨hop, _, hms⟩ := Option.bind_eq_some_iff.mp hc
    exact isInterface_of_sessionHopMembers? hms m h

theorem sourceMembers_ok (t : TableKind) (s : Prefix) :
    ∃ ms, v.sourceMembers vrf t s = .ok ms ∧ ∀ m ∈ ms, m.key.isInterface := by
  obtain ⟨ms, hok, hms⟩ := exportMembers_ok ht hl vrf t s
  simp only [sourceMembers]
  rw [hok]
  cases ms with
  | nil => exact ⟨_, rfl, fun m hm => isInterface_of_mem_sessionMembers hm⟩
  | cons m ms => exact ⟨_, rfl, hms⟩

theorem prefixMembers_ok (t : TableKind) (ss : List Prefix) :
    ∃ ms, v.prefixMembers vrf t ss = .ok ms ∧ ∀ m ∈ ms, m.key.isInterface := by
  induction ss with
  | nil => exact ⟨[], rfl, List.forall_mem_nil _⟩
  | cons s ss ih =>
    obtain ⟨ms, hok, hms⟩ := sourceMembers_ok ht hl vrf t s
    obtain ⟨rest, hok', hrest⟩ := ih
    simp only [prefixMembers]
    rw [hok, hok']
    exact ⟨_, rfl, fun m hm => (List.mem_append.mp hm).elim (hms m) (hrest m)⟩

/-- The members of a route item are interfaces of this host and tunnels. -/
theorem itemMembers_ok (item : RouteItem) :
    ∃ ms, v.itemMembers vrf item = .ok ms ∧ ∀ m ∈ ms, m.key.IsLeaf := by
  have hremote : ∀ m ∈ (item.hops.filter fun h => decide (h.address ≠ v.params.routerId)).map
      (fun h => MemberKey.mk h.label (.tunnel ⟨h.address, h.mac, h.types.preferred⟩)),
      m.key.IsLeaf := by
    intro m hm
    obtain ⟨h, _, rfl⟩ := List.mem_map.mp hm
    exact .inr rfl
  simp only [itemMembers]
  split
  · obtain ⟨ms, hok, hms⟩ := prefixMembers_ok ht hl vrf item.table
      (item.sources.filterMap fun s => (Prefix.ofSource s.toList).toOption)
    simp only [members]
    rw [hok]
    refine ⟨_, rfl, fun m hm => ?_⟩
    rcases List.mem_append.mp hm with hm | hm
    · exact NextHopKey.isLeaf_of_isInterface (hms m hm)
    · exact hremote m hm
  · exact ⟨_, rfl, hremote⟩

theorem itemAdvertisement_ok (item : RouteItem) :
    ∃ want, v.itemAdvertisement vrf item = .ok want := by
  obtain ⟨ms, hok, hms⟩ := itemMembers_ok ht hl vrf item
  rw [itemAdvertisement_eq, hok]
  exact ⟨_, checkedMembers_eq hms _⟩

end

end View

namespace Engine

/-- Paths of the kind of exports that are installed or asked for are local. -/
structure ExportsLocal (e : Engine) : Prop where
  installed : e.tables.ExportsLocal
  asked : ∀ q ∈ e.queue, q.peer.kind = .localExport → q.action.IsLocal

section

variable {e e' : Engine} (h : e.ExportsLocal)

include h

/-- An event asks for exports only, besides withdrawing some paths. -/
theorem ExportsLocal.reacts (hr : e.Reacts e') : e'.ExportsLocal := by
  obtain ⟨lost, w, l, hqueue, _, hw, hdecided⟩ := hr.queue
  refine ⟨h.installed.renews hr.renews, fun q hq hk => ?_⟩
  rw [hqueue, List.mem_append, List.mem_append] at hq
  rcases hq with (hq | hq) | hq
  · exact h.asked q hq hk
  · rw [(hw.own q hq).1]
    trivial
  · obtain ⟨σ, _, hof, hask, _⟩ := hdecided q hq
    exact View.isLocal_of_asks hr.orderly.sound.config hof hask hk

theorem ExportsLocal.receives {p : Peer} (hp : p.kind ≠ .localExport) (hr : e.Receives e' p) :
    e'.ExportsLocal := by
  obtain ⟨l, hqueue, hl⟩ := hr.queue
  refine ⟨hr.tables ▸ h.installed, fun q hq hk => ?_⟩
  rw [hqueue, List.mem_append] at hq
  rcases hq with hq | hq
  · exact h.asked q hq hk
  · rw [hl q hq] at hk
    exact absurd hk hp

theorem ExportsLocal.turn (he : e.Sound) {q : Request} {rest : List Request}
    (hq : e.queue = q :: rest) (n : Nat) : (Engine.turn (e, n)).1.ExportsLocal := by
  obtain ⟨ha, hqueue⟩ := turn_spec he hq n
  have hasked : ∀ r ∈ q :: rest, r.peer.kind = .localExport → r.action.IsLocal := hq ▸ h.asked
  refine ⟨?_, fun r hr hk => ?_⟩
  · rw [ha.tables]
    exact h.installed.apply (hasked q List.mem_cons_self)
  · rcases hqueue with ⟨hqueue, _⟩ | ⟨σ, q', hqueue, _, _, hof, hask⟩
    · rw [hqueue] at hr
      exact hasked r (List.mem_cons_of_mem q hr) hk
    · rw [hqueue, List.mem_append, List.mem_singleton] at hr
      rcases hr with hr | rfl
      · exact hasked r (List.mem_cons_of_mem q hr) hk
      · rw [← ha.params] at hof
        exact View.isLocal_of_asks (ha.params ▸ he.config) hof hask hk

theorem ExportsLocal.process (he : e.Sound) : e.process.1.ExportsLocal :=
  (he.process_induction h fun _ _ _ n hs _ hq h' => h'.turn hs hq n).2.2

/-- A call that is not from a peer of the kind of exports ends without a fault, and keeps exports
local. -/
theorem call_ok (he : e.Orderly) {c : Call} (hc : ∀ p ∈ c.peer?, p.kind ≠ .localExport) :
    ∃ e', e.call c = .ok e' ∧ e'.Orderly ∧ e'.ExportsLocal := by
  -- only the delivery of an item looks at paths that were exported
  obtain ⟨e', hok⟩ : ∃ e', e.call c = .ok e' := by
    cases c with
    | updateItem peer vrf p item =>
      simp only [call, updateItem]
      split
      · exact ⟨e, rfl⟩
      · obtain ⟨want, hw⟩ := View.itemAdvertisement_ok he.sound.proper h.installed vrf item
        rw [hw]
        exact ⟨_, rfl⟩
    | _ => exact ⟨_, rfl⟩
  refine ⟨e', hok, (he.call hok).1, ?_⟩
  rcases call_cases he hok with ⟨_, hr⟩ | ⟨p, hp, hr⟩ | ⟨_, rfl⟩
  · exact h.reacts hr
  · exact h.receives (hc p hp) hr
  · exact h.process he.sound

theorem calls_ok (he : e.Orderly) {l : List Call}
    (hl : ∀ c ∈ l, ∀ p ∈ c.peer?, p.kind ≠ .localExport) : ∃ e', e.calls l = .ok e' := by
  induction l generalizing e with
  | nil => exact ⟨e, rfl⟩
  | cons c l ih =>
    obtain ⟨e₁, hc, he₁, h₁⟩ := call_ok h he (hl c List.mem_cons_self)
    obtain ⟨e', hok⟩ := ih h₁ he₁ fun c hc => hl c (List.mem_cons_of_mem _ hc)
    exact ⟨e', by rw [calls_cons hc]; exact hok⟩

end

/-- From empty tables on, all calls run to their end with all checks, unless one of them is from a
peer of the kind of exports. -/
theorem calls_without_fault (e₀ : Engine) (h : e₀.Initial)
    (hempty : ∀ v ∈ e₀.tables.vrfs.vrfs, v.routes = []) (l : List Call)
    (hl : ∀ c ∈ l, ∀ p ∈ c.peer?, p.kind ≠ .localExport) :
    ∃ e, e₀.checkedCalls l = .ok e ∧ e₀.calls l = .ok e := by
  have hlocal : e₀.ExportsLocal := by
    refine ⟨fun vrf k x hx => ?_, fun q hq => ?_⟩
    · rw [Tables.paths_of_routes_nil hempty] at hx
      cases hx
    · rw [h.queue] at hq
      cases hq
  obtain ⟨e, hok⟩ := calls_ok hlocal h.orderly hl
  exact ⟨e, (checkedCalls_eq e₀ l).trans hok, hok⟩

end Engine

namespace Sample

def controller : Peer := ⟨"controller", .bgp⟩

/-- The controller passes on the network of the machine, with this host as its next-hop. -/
def item : RouteItem where
  table := .evpn
  hops := [⟨params.routerId, 3, .vxlan, Mac.zero⟩]
  sources := ["10.1.1.0/24"]
  params := {}

/-- The network is exported and comes back from the controller. -/
def delivered : List Call :=
  attaching ++ [.process, .updateItem controller "routing" subnet item, .process]

end Sample

namespace Engine

/-- What comes back is installed for the machine that was exported. -/
theorem calls_without_fault_delivered : ∃ e, Sample.start.checkedCalls Sample.delivered = .ok e ∧
    Sample.start.calls Sample.delivered = .ok e ∧
    (e.tables.path? "routing" (.evpn (.type5 Sample.subnet)) Sample.controller).map (·.hop) =
      some (.interface "tap" 3 false) := by
  obtain ⟨e, hchecked, hok⟩ := calls_without_fault Sample.start Sample.initial (by decide +kernel)
    Sample.delivered (by decide)
  have hpath : ((Sample.start.calls Sample.delivered).toOption.bind fun e =>
      (e.tables.path? "routing" (.evpn (.type5 Sample.subnet)) Sample.controller).map (·.hop)) =
        some (.interface "tap" 3 false) := by decide +kernel
  rw [hok] at hpath
  exact ⟨e, hchecked, hok, hpath⟩

/-- A tunnel under the kind of exports ends the delivery of the item in a fault. -/
example : (Sample.start.calls
    [.request ⟨"routing", .evpn (.type5 Sample.subnet), ⟨"other", .localExport⟩,
      .installTunnel ⟨Sample.params.routerId, Mac.zero, .vxlan⟩ {}⟩, .process,
      .updateItem Sample.controller "routing" Sample.subnet Sample.item]).toOption = none := by
  decide +kernel

end Engine

end VxlanRouting
