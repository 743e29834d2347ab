import VxlanRouting.Proofs.Termination

/-!
What the members of a route item are made of: paths of the kind of exports on routes of the VRF,
local paths of machines on Inet routes, sessions and interfaces. The path that the item installs is
of neither kind. Nor does what comes of it write to these paths: from an EVPN table it leaks to the
Inet table of the same routing VRF and back, and from an Inet table it may be exported, but then into
an EVPN table, where items for an Inet table have no sources. So an item asks for the same members
after it has been installed.
-/
namespace VxlanRouting

namespace View

/-- Views that agree in all that the members of an item for a table of a VRF are made of. -/
structure SameSources (v w : View) (vrf : String) (t : TableKind) : Prop extends
    v.SameHost w where
  params : w.params = v.params
  bridges : w.routers.bridgesOf vrf = v.routers.bridgesOf vrf
  interfaces : w.tables.interfaces = v.tables.interfaces
  sessions : w.tables.sessions = v.tables.sessions
  exports : ∀ s, ((w.tables.paths vrf (.ofPrefix t s)).find? fun x => x.peer.kind = .localExport) =
    (v.tables.paths vrf (.ofPrefix t s)).find? fun x => x.peer.kind = .localExport
  machines : ∀ c s, ((w.tables.paths c (.inet s)).find? fun x => x.peer.kind = .localVm) =
    (v.tables.paths c (.inet s)).find? fun x => x.peer.kind = .localVm

theorem SameSources.trans {u v w : View} {vrf : String} {t : TableKind}
    (h : u.SameSources v vrf t) (h' : v.SameSources w vrf t) : u.SameSources w vrf t where
  toSameHost := h.toSameHost.trans h'.toSameHost
  params := h'.params.trans h.params
  bridges := h'.bridges.trans h.bridges
  interfaces := h'.interfaces.trans h.interfaces
  sessions := h'.sessions.trans h.sessions
  exports s := (h'.exports s).trans (h.exports s)
  machines c s := (h'.machines c s).trans (h.machines c s)

theorem Level.sameSources {v w : View} (h : v.Level w) (vrf : String) (t : TableKind) :
    v.SameSources w vrf t where
  toSameHost := h.sameHost
  params := h.params
  bridges := RouterMap.bridgesOf_congr h.routers vrf
  interfaces := by rw [h.tables]
  sessions := by rw [h.tables]
  exports s := by rw [h.tables]
  machines c s := by rw [h.tables]

/-- Whether a next-hop leads to a session, interfaces and sessions tell. -/
theorem sessionHopMembers?_congr {v w : View} (hi : w.tables.interfaces = v.tables.interfaces)
    (hs : w.tables.sessions = v.tables.sessions) (hop : NextHop) :
    w.sessionHopMembers? hop = v.sessionHopMembers? hop := by
  have hsingle : ∀ h, w.tables.IsSessionInterface h ↔ v.tables.IsSessionInterface h := by
    intro h
    simp only [Tables.IsSessionInterface]
    rw [hi, hs]
  have hcomposite : w.tables.IsSessionComposite hop ↔ v.tables.IsSessionComposite hop := by
    simp only [Tables.IsSessionComposite, hsingle]
  simp only [sessionHopMembers?]
  refine ite_congr (propext (hsingle hop)) (fun _ => rfl) fun _ => ?_
  exact ite_congr (propext hcomposite) (fun _ => rfl) fun _ => rfl

section

variable {v w : View} (hv : v.tables.Proper) (hw : w.tables.Proper) {vrf : String} {t : TableKind}
  (h : v.SameSources w vrf t)

include hv hw h

theorem exportMembers_congr (s : Prefix) : w.exportMembers vrf t s = v.exportMembers vrf t s := by
  have hx : ((w.tables.locate? vrf t s.address s.length).bind fun r => r.findKind? .localExport) =
      (v.tables.locate? vrf t s.address s.length).bind fun r => r.findKind? .localExport := by
    rw [hw.locate?_findKind?, hv.locate?_findKind?, h.exports]
  simp only [exportMembers]
  rw [hx]

theorem localHop?_congr (c : String) (s : Prefix) : w.localHop? c s = v.localHop? c s := by
  simp only [localHop?]
  rw [hw.locate?_findKind?, hv.locate?_findKind?]
  show (if s.Canonical then (w.tables.paths c (.inet s)).find? _ else none).map _ =
    (if s.Canonical then (v.tables.paths c (.inet s)).find? _ else none).map _
  rw [h.machines]

theorem sessionMembers_congr (s : Prefix) : w.sessionMembers vrf s = v.sessionMembers vrf s := by
  have hsearch : (fun c => (w.localHop? c s).bind w.sessionHopMembers?) =
      fun c => (v.localHop? c s).bind v.sessionHopMembers? := by
    funext c
    rw [localHop?_congr hv hw h c s]
    exact Option.bind_congr fun hop _ => sessionHopMembers?_congr h.interfaces h.sessions hop
  simp only [sessionMembers]
  rw [h.bridges, hsearch]

theorem sourceMembers_congr (s : Prefix) : w.sourceMembers vrf t s = v.sourceMembers vrf t s := by
  simp only [sourceMembers]
  rw [exportMembers_congr hv hw h s, sessionMembers_congr hv hw h s]

theorem prefixMembers_congr (ss : List Prefix) :
    w.prefixMembers vrf t ss = v.prefixMembers vrf t ss := by
  induction ss with
  | nil => rfl
  | cons s ss ih =>
    simp only [prefixMembers]
    rw [sourceMembers_congr hv hw h s, ih]

end

/-- With the same sources, an item asks for the same members. -/
theorem itemMembers_congr {v w : View} (hv : v.tables.Proper) (hw : w.tables.Proper) {vrf : String}
    {item : RouteItem} (h : v.SameSources w vrf item.table) :
    w.itemMembers vrf item = v.itemMembers vrf item := by
  simp only [itemMembers, members]
  rw [h.params, prefixMembers_congr hv hw h]

theorem itemAdvertisement_congr {v w : View} (hv : v.tables.Proper) (hw : w.tables.Proper)
    {vrf : String} {item : RouteItem} (h : v.SameSources w vrf item.table) :
    w.itemAdvertisement vrf item = v.itemAdvertisement vrf item := by
  simp only [itemAdvertisement, itemMembers_congr hv hw h, ← ofMembers_congr h.toSameHost]

/-- No item for a table has its sources where the request writes, or where what comes of the request
writes: a machine's paths are no business of the engine, exports go from Inet tables to EVPN tables,
and what is written to an EVPN table comes back in the same VRF. -/
structure Unread (v : View) (t : TableKind) (q : Request) : Prop where
  machine : q.peer.kind ≠ .localVm
  exported : q.peer.kind = .localExport → t = .inet ∧ ∃ k, q.key = .evpn k
  leaked : t = .evpn → ∀ p, q.key = .inet p → v.Routing q.vrf
  host : q.vrf ≠ v.params.fabricVrf ∨ q.peer.kind ≠ .bgp

variable {v w : View} {q r : Request} {t : TableKind}

theorem Applies.unread (h : v.Applies w q) (hr : v.Unread t r) : w.Unread t r where
  machine := hr.machine
  exported := hr.exported
  leaked ht p hk := (h.routing_iff r.vrf).mpr (hr.leaked ht p hk)
  host := by
    rw [h.params]
    exact hr.host

/-- Applying such a request leaves the sources as they are. -/
theorem Applies.sameSources (h : v.Applies w q) (hv : v.tables.Proper) (hq : v.Unread t q)
    (vrf : String) : v.SameSources w vrf t where
  toSameHost := h.sameHost hv hq.host
  params := h.params
  bridges := h.bridgesOf vrf
  interfaces := h.interfaces
  sessions := by rw [h.tables, (Tables.apply_updates v.tables q).sessions]
  exports s := by
    by_cases hk : q.peer.kind = .localExport
    · obtain ⟨rfl, k, hkey⟩ := hq.exported hk
      rw [h.paths_of_ne]
      rw [hkey]
      simp [RouteKey.ofPrefix]
    · rw [h.tables]
      exact Tables.find?_paths_apply _ q (fun x hx => by simpa [hx] using hk) _ _
  machines c s := by
    rw [h.tables]
    exact Tables.find?_paths_apply _ q (fun x hx => by simpa [hx] using hq.machine) _ _

/-- What such a request feeds asks for such requests only. -/
theorem Unread.fed (hq : v.Unread t q) (hc : v.params.FromConfig) (hv : v.tables.Proper) {σ : Duty}
    (hfed : v.fed? q.vrf q.key = some σ) (hr : σ.Of v.params r) : v.Unread t r := by
  have howns : v.params.Owns r.peer := hr.2.2 ▸ σ.owns_peer v.params
  have hexport : r.peer.kind = .localExport → σ.direction = .fromBridges := by
    intro hk
    refine Decidable.byContradiction fun hd => ?_
    rw [hr.2.2, Duty.peer_of_direction_ne _ hd, hc.kind_leakPeer] at hk
    cases hk
  refine ⟨hc.ne_localVm_of_owns howns, fun hk => ?_, fun ht p hp => ?_,
    .inr (hc.ne_bgp_of_owns howns)⟩
  · have hd := hexport hk
    rcases fed?_cases hv hfed with ⟨_, p, _, rfl⟩ | ⟨_, p, _, rfl⟩ | ⟨hn, p, _, R, hkey, _, _, rfl⟩
    · cases hd
    · cases hd
    · refine ⟨?_, .type5 p, hr.2.1⟩
      cases t with
      | inet => rfl
      | evpn => exact absurd (hq.leaked rfl p hkey) hn
  · rw [hr.1]
    rcases fed?_cases hv hfed with ⟨hrouting, _, _, rfl⟩ | ⟨hrouting, _, _, rfl⟩ |
      ⟨_, p', _, R, _, _, _, rfl⟩
    · exact hrouting
    · exact hrouting
    · rw [hr.2.1] at hp
      cases hp

end View

namespace Engine

/-- The sources of the items for a table of a VRF are as in a view, and what waits will leave them
so. -/
structure Spares (v : View) (vrf : String) (t : TableKind) (e : Engine) : Prop where
  sources : v.SameSources e.toView vrf t
  unread : ∀ q ∈ e.queue, e.Unread t q

theorem Spares.turn {v : View} {vrf : String} {t : TableKind} {e : Engine}
    (h : Spares v vrf t e) (he : e.Sound) {q : Request} {rest : List Request}
    (hq : e.queue = q :: rest) (n : Nat) : Spares v vrf t (turn (e, n)).1 := by
  obtain ⟨ha, hqueue⟩ := turn_spec he hq n
  have hhead : e.Unread t q := h.unread q (hq ▸ List.mem_cons_self)
  have hrest : ∀ r ∈ rest, (Engine.turn (e, n)).1.Unread t r :=
    fun r hr => ha.unread (h.unread r (hq ▸ List.mem_cons_of_mem q hr))
  refine ⟨h.sources.trans (ha.sameSources he.proper hhead vrf), fun r hr => ?_⟩
  rcases hqueue with ⟨hqueue, _⟩ | ⟨σ, q', hqueue, ⟨q₀, rest₀, hq₀, _, hfed⟩, _, hof, _⟩
  · exact hrest r (hqueue ▸ hr)
  · rw [hqueue, List.mem_append, List.mem_singleton] at hr
    rcases hr with hr | rfl
    · exact hrest r hr
    · rw [hq] at hq₀
      cases hq₀
      exact ha.unread (hhead.fed he.config he.proper hfed hof)

end Engine

end VxlanRouting
