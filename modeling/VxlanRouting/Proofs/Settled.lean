import VxlanRouting.Proofs.Turns

/-!
Settled states: in every routing VRF each direction has nothing to ask for, and no other VRF has a
path of the engine. If no two attached VNs share a VRF and every VRF of record carries its VN, then
the route that a duty reads feeds this duty and no other.
-/
namespace VxlanRouting

namespace RouterMap

/-- A VN is attached to a router, with this VRF. -/
def Attached (m : RouterMap) (vn vrf : String) : Prop :=
  ∃ id r, m.router? id = some r ∧
    (r.routingVn = some vn ∧ r.routingVrf = some vrf ∨ r.bridges.get? vn = some vrf)

/-- No two attached VNs share a VRF. -/
def Apart (m : RouterMap) : Prop :=
  ∀ vn vn' vrf, m.Attached vn vrf → m.Attached vn' vrf → vn = vn'

/-- The VRF is the routing VRF of some router. -/
def Serves (m : RouterMap) (vrf : String) : Prop :=
  ∃ id r, m.router? id = some r ∧ r.routingVrf = some vrf

theorem serves_of_router? {m : RouterMap} (id : LogicalRouterId) {vrf : String}
    (h : (m.router? id).bind (·.routingVrf) = some vrf) : m.Serves vrf := by
  obtain ⟨r, hr, hv⟩ := Option.bind_eq_some_iff.mp h
  exact ⟨id, r, hr, hv⟩

/-- A VRF that feeds a routing VRF is a bridge of its router. -/
theorem bridge_of_routingVrfOf? {m : RouterMap} {b : Vrf} {vrf : String}
    (h : m.routingVrfOf? b = some vrf) : ∃ vn id r, m.router? id = some r ∧
      r.bridges.get? vn = some b.name ∧ r.routingVrf = some vrf := by
  simp only [routingVrfOf?] at h
  obtain ⟨vn, _, h⟩ := Option.bind_eq_some_iff.mp h
  obtain ⟨id, _, h⟩ := Option.bind_eq_some_iff.mp h
  obtain ⟨r, hr, h⟩ := Option.bind_eq_some_iff.mp h
  split at h
  · next hget => exact ⟨vn, id, r, hr, hget, h⟩
  · cases h

/-- The VNs of all routers with their VRFs. -/
def records (m : RouterMap) : List (String × String) :=
  m.routers.values.flatMap fun r =>
    (r.routingVn.bind fun vn => r.routingVrf.map fun vrf => (vn, vrf)).toList ++ r.bridges.entries

theorem Attached.mem_records {m : RouterMap} {vn vrf : String} (h : m.Attached vn vrf) :
    (vn, vrf) ∈ m.records := by
  obtain ⟨id, r, hr, h⟩ := h
  refine List.mem_flatMap.mpr ⟨r, List.mem_map.mpr ⟨(id, r), Entries.mem_of_get? hr, rfl⟩, ?_⟩
  rcases h with ⟨hvn, hvrf⟩ | hb
  · simp [hvn, hvrf]
  · exact List.mem_append_right _ (Entries.mem_of_get? hb)

theorem apart_of_records {m : RouterMap}
    (h : ∀ a ∈ m.records, ∀ b ∈ m.records, a.2 = b.2 → a.1 = b.1) : m.Apart :=
  fun _ _ _ ha hb => h _ ha.mem_records _ hb.mem_records rfl

theorem mem_routingVrfs {m : RouterMap} (hm : m.routers.Sorted) {vrf : String} :
    vrf ∈ m.routingVrfs ↔ m.Serves vrf := by
  simp only [routingVrfs]
  rw [mem_ascending, List.mem_filterMap]
  constructor
  · rintro ⟨r, hr, hv⟩
    obtain ⟨e, he, rfl⟩ := List.mem_map.mp hr
    exact ⟨e.1, e.2, OrderedMap.get?_of_mem hm he, hv⟩
  · rintro ⟨id, r, hr, hv⟩
    exact ⟨r, List.mem_map.mpr ⟨(id, r), Entries.mem_of_get? hr, rfl⟩, hv⟩

theorem attached_bare (m : RouterMap) (vn vrf : String) :
    m.bare.Attached vn vrf ↔ m.Attached vn vrf := by
  simp only [Attached]
  simp only [router?_bare, Option.map_eq_some_iff]
  constructor
  · rintro ⟨id, _, ⟨r, hr, rfl⟩, h⟩
    exact ⟨id, r, hr, h⟩
  · rintro ⟨id, r, hr, h⟩
    exact ⟨id, _, ⟨r, hr, rfl⟩, h⟩

theorem serves_bare (m : RouterMap) (vrf : String) : m.bare.Serves vrf ↔ m.Serves vrf := by
  simp only [Serves]
  simp only [router?_bare, Option.map_eq_some_iff]
  constructor
  · rintro ⟨id, _, ⟨r, hr, rfl⟩, h⟩
    exact ⟨id, r, hr, h⟩
  · rintro ⟨id, r, hr, h⟩
    exact ⟨id, _, ⟨r, hr, rfl⟩, h⟩

theorem apart_bare (m : RouterMap) : m.bare.Apart ↔ m.Apart := by
  simp only [Apart]
  simp only [attached_bare]

theorem apart_congr {m m' : RouterMap} (h : m'.bare = m.bare) : m'.Apart ↔ m.Apart := by
  rw [← apart_bare m', h, apart_bare]

theorem serves_congr {m m' : RouterMap} (h : m'.bare = m.bare) (vrf : String) :
    m'.Serves vrf ↔ m.Serves vrf := by
  rw [← serves_bare m', h, serves_bare]

theorem attached_congr {m m' : RouterMap} (h : m'.bare = m.bare) (vn vrf : String) :
    m'.Attached vn vrf ↔ m.Attached vn vrf := by
  rw [← attached_bare m', h, attached_bare]

/-- Counters have no part in which VRF is a router's routing VRF. -/
theorem routing_congr {m m' : RouterMap} (h : m'.bare = m.bare) (id : LogicalRouterId) :
    (m'.router? id).bind (·.routingVrf) = (m.router? id).bind (·.routingVrf) := by
  have hbare : ∀ m : RouterMap, (m.bare.router? id).bind (·.routingVrf) =
      (m.router? id).bind (·.routingVrf) := by
    intro m
    rw [router?_bare, Option.bind_map]
    rfl
  rw [← hbare m', h, hbare]

theorem Coherent.attached_routing {m : RouterMap} (h : m.Coherent) {id : LogicalRouterId}
    {r : LogicalRouter} (hr : m.router? id = some r) {vrf : String} (hv : r.routingVrf = some vrf) :
    ∃ vn, r.routingVn = some vn ∧ m.Attached vn vrf ∧ m.ownerOf? vn = some id := by
  obtain ⟨vn, hvn⟩ : ∃ vn, r.routingVn = some vn := by
    refine Option.ne_none_iff_exists'.mp fun hn => ?_
    rw [(h.sound id r hr).paired.mpr hn] at hv
    cases hv
  exact ⟨vn, hvn, ⟨id, r, hr, .inl ⟨hvn, hv⟩⟩, (h.owns vn id).mpr ⟨r, hr, .inl hvn⟩⟩

theorem Coherent.attached_bridge {m : RouterMap} (h : m.Coherent) {id : LogicalRouterId}
    {r : LogicalRouter} (hr : m.router? id = some r) {vn vrf : String}
    (hv : r.bridges.get? vn = some vrf) : m.Attached vn vrf ∧ m.ownerOf? vn = some id := by
  refine ⟨⟨id, r, hr, .inr hv⟩, (h.owns vn id).mpr ⟨r, hr, .inr ?_⟩⟩
  rw [ArrivalMap.contains, hv]
  rfl

/-- Two routers have no routing VRF in common. -/
theorem Coherent.router_unique {m : RouterMap} (h : m.Coherent) (ha : m.Apart)
    {id id' : LogicalRouterId} {r r' : LogicalRouter} (hr : m.router? id = some r)
    (hr' : m.router? id' = some r') {vrf : String} (hv : r.routingVrf = some vrf)
    (hv' : r'.routingVrf = some vrf) : id = id' := by
  obtain ⟨vn, _, hat, ho⟩ := h.attached_routing hr hv
  obtain ⟨vn', _, hat', ho'⟩ := h.attached_routing hr' hv'
  have hvn : vn = vn' := ha vn vn' vrf hat hat'
  subst hvn
  exact Option.some.inj (ho.symm.trans ho')

/-- If no second router has the same routing VRF, this VRF stands for the bridges of its router. -/
theorem bridgesOf_of_only {m : RouterMap} {id : LogicalRouterId} {r : LogicalRouter}
    (hr : m.router? id = some r) {vrf : String} (hv : r.routingVrf = some vrf)
    (honly : ∀ e ∈ m.routers.entries, e.2.routingVrf = some vrf → e.1 = id) :
    m.bridgesOf vrf = r.bridges.entries := by
  have hmem : (id, r) ∈ m.routers.entries := Entries.mem_of_get? hr
  have hserved : m.servedBy? vrf = some id := by
    simp only [servedBy?]
    cases hf : m.routers.entries.find? fun e => decide (e.2.routingVrf = some vrf) with
    | none =>
      have hn := List.find?_eq_none.mp hf (id, r) hmem
      simp [hv] at hn
    | some e =>
      have he : e.2.routingVrf = some vrf := by simpa using List.find?_some hf
      rw [Option.map_some, honly e (List.mem_of_find?_eq_some hf) he]
  simp only [bridgesOf]
  rw [hserved, Option.bind_some, hr]

theorem bridgesOf_of_sole {m : RouterMap} (h : m.routers.Sorted) {id : LogicalRouterId}
    {r : LogicalRouter} (hr : m.router? id = some r) {vrf : String} (hv : r.routingVrf = some vrf)
    (hsole : ∀ id' r', m.router? id' = some r' → r'.routingVrf = some vrf → id' = id) :
    m.bridgesOf vrf = r.bridges.entries :=
  bridgesOf_of_only hr hv fun e he hv' => hsole e.1 e.2 (OrderedMap.get?_of_mem h he) hv'

theorem Coherent.bridgesOf_eq {m : RouterMap} (h : m.Coherent) (ha : m.Apart)
    {id : LogicalRouterId} {r : LogicalRouter} (hr : m.router? id = some r) {vrf : String}
    (hv : r.routingVrf = some vrf) : m.bridgesOf vrf = r.bridges.entries :=
  bridgesOf_of_sole h.sorted hr hv fun _ _ hr' hv' => h.router_unique ha hr' hr hv' hv

/-- A bridge is nobody's routing VRF. -/
theorem Coherent.not_serves_bridge {m : RouterMap} (h : m.Coherent) (ha : m.Apart)
    {id : LogicalRouterId} {r : LogicalRouter} (hr : m.router? id = some r) {vn vrf : String}
    (hb : r.bridges.get? vn = some vrf) : ¬ m.Serves vrf := by
  rintro ⟨id', r', hr', hv'⟩
  obtain ⟨hat, ho⟩ := h.attached_bridge hr hb
  obtain ⟨vn', hvn', hat', ho'⟩ := h.attached_routing hr' hv'
  have hvn : vn = vn' := ha vn vn' vrf hat hat'
  subst hvn
  have hid : id = id' := Option.some.inj (ho.symm.trans ho')
  subst hid
  rw [hr] at hr'
  cases hr'
  rw [(h.sound id r hr).single vn hvn'] at hb
  cases hb

theorem Coherent.mem_bridgesOf {m : RouterMap} (h : m.Coherent) (ha : m.Apart) {vrf : String}
    (hs : m.Serves vrf) {vn b : String} (hb : (vn, b) ∈ m.bridgesOf vrf) :
    ∃ id r, m.router? id = some r ∧ r.routingVrf = some vrf ∧ r.bridges.get? vn = some b := by
  obtain ⟨id, r, hr, hv⟩ := hs
  rw [h.bridgesOf_eq ha hr hv] at hb
  exact ⟨id, r, hr, hv, ArrivalMap.get?_of_mem (h.sound id r hr).distinct hb⟩

end RouterMap

namespace View

/-- Every VRF of record that is there carries its VN. -/
def Carries (v : View) : Prop :=
  ∀ vn vrf b, v.routers.Attached vn vrf → v.tables.vrfs.get? vrf = some b → b.vn = some vn

theorem carries_of_records {v : View}
    (h : ∀ a ∈ v.routers.records, ∀ b ∈ v.tables.vrfs.get? a.2, b.vn = some a.1) : v.Carries :=
  fun _ _ b ha hb => h _ ha.mem_records b hb

/-- Every VRF of record is there. -/
def Backed (v : View) : Prop :=
  ∀ vn vrf, v.routers.Attached vn vrf → v.tables.vrfs.get? vrf ≠ none

theorem backed_of_records {v : View} (h : ∀ a ∈ v.routers.records, v.tables.vrfs.get? a.2 ≠ none) :
    v.Backed :=
  fun _ _ ha => h _ ha.mem_records

/-- The routers are as configuration leaves them, no two attached VNs share a VRF, and every VRF of
record carries its VN. -/
structure Wired (v : View) : Prop where
  coherent : v.routers.Coherent
  apart : v.routers.Apart
  carries : v.Carries

/-- Views that differ in paths and counters only. -/
structure Akin (v w : View) : Prop where
  params : w.params = v.params
  routers : w.routers.bare = v.routers.bare
  bare : ∀ vrf, w.tables.bare? vrf = v.tables.bare? vrf
  interfaces : w.tables.interfaces = v.tables.interfaces

theorem Akin.refl (v : View) : v.Akin v := ⟨rfl, rfl, fun _ => rfl, rfl⟩

theorem Akin.trans {u v w : View} (h : u.Akin v) (h' : v.Akin w) : u.Akin w :=
  ⟨h'.params.trans h.params, h'.routers.trans h.routers,
    fun vrf => (h'.bare vrf).trans (h.bare vrf), h'.interfaces.trans h.interfaces⟩

theorem Level.akin {v w : View} (h : v.Level w) : v.Akin w :=
  ⟨h.params, h.routers, fun vrf => by rw [h.tables], by rw [h.tables]⟩

theorem Applies.akin {v w : View} {q : Request} (h : v.Applies w q) : v.Akin w :=
  ⟨h.params, h.routers, h.bare?, h.interfaces⟩

theorem carries_iff (v : View) : v.Carries ↔
    ∀ vn vrf b, v.routers.Attached vn vrf → v.tables.bare? vrf = some b → b.vn = some vn := by
  simp only [Carries, Tables.bare?]
  constructor
  · intro h vn vrf b ha hb
    obtain ⟨x, hx, rfl⟩ := Option.map_eq_some_iff.mp hb
    exact h vn vrf x ha hx
  · intro h vn vrf x ha hx
    exact h vn vrf x.bare ha (by rw [hx]; rfl)

theorem Wired.of_akin {v w : View} (hw : v.Wired) (h : v.Akin w) : w.Wired := by
  refine ⟨hw.coherent.of_bare_eq h.routers, ?_, ?_⟩
  · exact (RouterMap.apart_congr h.routers).mpr hw.apart
  · rw [carries_iff]
    intro vn vrf b hat hb
    rw [h.bare] at hb
    have hat := (RouterMap.attached_congr h.routers vn vrf).mp hat
    exact (carries_iff v).mp hw.carries vn vrf b hat hb

/-- A served VRF that is there plays the role of a routing VRF. -/
theorem Wired.routing_of_serves {v : View} (h : v.Wired) (ht : v.tables.Proper) {vrf : String}
    (hs : v.routers.Serves vrf) {b : Vrf} (hb : v.tables.bare? vrf = some b) :
    v.routers.IsRouting b := by
  obtain ⟨id, r, hr, hv⟩ := hs
  obtain ⟨vn, hvn, hat, ho⟩ := h.coherent.attached_routing hr hv
  have hcarry : b.vn = some vn := (carries_iff v).mp h.carries vn vrf b hat hb
  have hname : b.name = vrf := ht.name_bare? hb
  exact ⟨vn, hcarry, id, ho, r, hr, hvn, by rw [hname]; exact hv⟩

theorem serves_of_routing {v : View} (ht : v.tables.Proper) {vrf : String} (h : v.Routing vrf) :
    v.routers.Serves vrf := by
  obtain ⟨b, hb, vn, _, id, _, r, hr, _, hv⟩ := h
  rw [ht.name_bare? hb] at hv
  exact ⟨id, r, hr, hv⟩

/-- A bridge that is there feeds the routing VRF of its router. -/
theorem Wired.bridge_of_mem {v : View} (h : v.Wired) (ht : v.tables.Proper) {vrf vn br : String}
    (hs : v.routers.Serves vrf) (hm : (vn, br) ∈ v.routers.bridgesOf vrf) {b : Vrf}
    (hb : v.tables.bare? br = some b) :
    ¬ v.routers.IsRouting b ∧ v.routers.IsBridge b ∧ v.routers.routingVrfOf? b = some vrf := by
  obtain ⟨id, r, hr, hv, hget⟩ := h.coherent.mem_bridgesOf h.apart hs hm
  obtain ⟨hat, ho⟩ := h.coherent.attached_bridge hr hget
  have hcarry : b.vn = some vn := (carries_iff v).mp h.carries vn br b hat hb
  have hname : b.name = br := ht.name_bare? hb
  have hn : ¬ v.routers.IsRouting b := by
    intro hrouting
    exact h.coherent.not_serves_bridge h.apart hr hget (serves_of_routing ht ⟨b, hb, hrouting⟩)
  refine ⟨hn, ⟨by rw [hcarry]; simp, hn⟩, ?_⟩
  simp only [RouterMap.routingVrfOf?]
  rw [hcarry]
  simp only [Option.bind_eq_bind, Option.bind_some, ho, hr]
  rw [hname, if_pos hget, hv]

/-- The duties that the engine has: those of served VRFs, for prefixes in canonical form. -/
def Has (v : View) (σ : Duty) : Prop := v.routers.Serves σ.vrf ∧ σ.dest.Canonical

theorem Akin.has_iff {v w : View} (h : v.Akin w) (σ : Duty) : w.Has σ ↔ v.Has σ := by
  simp only [Has]
  rw [RouterMap.serves_congr h.routers]

/-- The route that a duty reads feeds this duty. -/
theorem Wired.fed?_of_reads {v : View} (h : v.Wired) (ht : v.tables.Proper) {σ : Duty}
    (hσ : v.Has σ) {vrf : String} {k : RouteKey} (hr : σ.Reads v.routers vrf k)
    (hb : v.tables.bare? vrf ≠ none) : v.fed? vrf k = some σ := by
  obtain ⟨b, hb⟩ := Option.ne_none_iff_exists'.mp hb
  have hname : b.name = vrf := ht.name_bare? hb
  have hdest : σ.dest.canonical = σ.dest := hσ.2.eq
  obtain ⟨d, R, p⟩ := σ
  simp only [Duty.Reads] at hr
  simp only [fed?]
  rw [hb, Option.bind_some]
  cases d with
  | fromBridges =>
    obtain ⟨⟨vn, hm⟩, rfl⟩ := hr
    obtain ⟨hn, hbr, hof⟩ := h.bridge_of_mem ht hσ.1 hm hb
    rw [if_neg hn, if_pos hbr]
    show (v.routers.routingVrfOf? b).map _ = _
    rw [hof, Option.map_some, hdest]
  | toInet =>
    obtain ⟨rfl, rfl⟩ := hr
    rw [if_pos (h.routing_of_serves ht hσ.1 hb)]
    show (if (EvpnKey.type5 p.canonical).IsType5 then _ else none) = _
    rw [if_pos ⟨rfl, rfl⟩, hname]
    show some (⟨.toInet, vrf, p.canonical⟩ : Duty) = _
    rw [hdest]
  | toEvpn =>
    obtain ⟨rfl, rfl⟩ := hr
    rw [if_pos (h.routing_of_serves ht hσ.1 hb)]
    show some (⟨.toEvpn, b.name, p.canonical⟩ : Duty) = _
    rw [hname, hdest]

/-- Changes feed duties of served VRFs only. -/
theorem serves_of_fed? {v : View} (ht : v.tables.Proper) {vrf : String} {k : RouteKey} {σ : Duty}
    (h : v.fed? vrf k = some σ) : v.routers.Serves σ.vrf := by
  rcases fed?_cases ht h with ⟨hr, _, _, rfl⟩ | ⟨hr, _, _, rfl⟩ | ⟨_, p, b, R, _, _, hof, rfl⟩
  · exact serves_of_routing ht hr
  · exact serves_of_routing ht hr
  · obtain ⟨_, id, r, hr, _, hv⟩ := RouterMap.bridge_of_routingVrfOf? hof
    exact ⟨id, r, hr, hv⟩

end View

namespace Engine

/-- Each direction has nothing to ask for in any routing VRF, for any prefix in canonical form, and
no other VRF has a path of the engine. A prefix with further bits set does not count: it is looked
up as its canonical form, but would be installed under a key of its own. -/
structure Settled (e : Engine) : Prop where
  quiet : ∀ vrf, e.routers.Serves vrf → ∀ p : Prefix, p.Canonical →
    (e.exportPrefix vrf p).queue = e.queue ∧ (e.leakToInet vrf p).queue = e.queue ∧
      (e.leakToEvpn vrf p).queue = e.queue
  foreign : ∀ vrf, ¬ e.routers.Serves vrf → ∀ k, ∀ x ∈ e.tables.paths vrf k,
    ¬ e.params.Owns x.peer

/-- Each direction has nothing to ask for in any routing VRF, for any prefix in canonical form. -/
def Quiet (e : Engine) : Prop :=
  ∀ vrf, e.routers.Serves vrf → ∀ p : Prefix, p.Canonical →
    (e.exportPrefix vrf p).queue = e.queue ∧ (e.leakToInet vrf p).queue = e.queue ∧
      (e.leakToEvpn vrf p).queue = e.queue

theorem quiet_iff {e : Engine} (hs : e.routers.routers.Sorted) :
    e.Quiet ↔ ∀ σ, e.Has σ → σ.Idle e.toView := by
  constructor
  · intro h σ hσ
    obtain ⟨h₁, h₂, h₃⟩ := h σ.vrf hσ.1 σ.dest hσ.2
    rw [← queue_fulfil_eq_iff hs]
    obtain ⟨d, vrf, p⟩ := σ
    cases d
    · exact h₁
    · exact h₂
    · exact h₃
  · intro hidle vrf hv p hp
    refine ⟨?_, ?_, ?_⟩
    · exact (queue_fulfil_eq_iff hs ⟨.fromBridges, vrf, p⟩).mpr (hidle _ ⟨hv, hp⟩)
    · exact (queue_fulfil_eq_iff hs ⟨.toInet, vrf, p⟩).mpr (hidle _ ⟨hv, hp⟩)
    · exact (queue_fulfil_eq_iff hs ⟨.toEvpn, vrf, p⟩).mpr (hidle _ ⟨hv, hp⟩)

/-- A state is settled if its duties are idle and its other VRFs are clear. -/
theorem settled_iff {e : Engine} (hs : e.routers.routers.Sorted) :
    e.Settled ↔ (∀ σ, e.Has σ → σ.Idle e.toView) ∧
      ∀ vrf, ¬ e.routers.Serves vrf → ∀ k p, e.params.Owns p → e.tables.path? vrf k p = none := by
  have hforeign : ∀ vrf, (∀ k, ∀ x ∈ e.tables.paths vrf k, ¬ e.params.Owns x.peer) ↔
      ∀ k p, e.params.Owns p → e.tables.path? vrf k p = none := by
    intro vrf
    constructor
    · intro h k p hp
      rw [Tables.path?_eq_find?]
      refine List.find?_eq_none.mpr fun x hx => ?_
      have hne : x.peer ≠ p := fun he => h k x hx (he ▸ hp)
      simpa using hne
    · intro h k x hx hp
      have hn := h k x.peer hp
      rw [Tables.path?_eq_find?] at hn
      simpa using List.find?_eq_none.mp hn x hx
  rw [← quiet_iff hs]
  constructor
  · exact fun h => ⟨h.quiet, fun vrf hv => (hforeign vrf).mp (h.foreign vrf hv)⟩
  · exact fun ⟨hquiet, hclear⟩ => ⟨hquiet, fun vrf hv => (hforeign vrf).mpr (hclear vrf hv)⟩

/-- The prefixes that have routes. -/
def prefixes (e : Engine) : List Prefix :=
  e.tables.vrfs.vrfs.flatMap fun v => v.routes.map (·.1.dest)

theorem dest_mem_prefixes {e : Engine} {vrf : String} {k : RouteKey}
    (h : e.tables.route? vrf k ≠ none) : k.dest ∈ e.prefixes := by
  obtain ⟨r, hr⟩ := Option.ne_none_iff_exists'.mp h
  obtain ⟨v, hv, hr⟩ := Option.bind_eq_some_iff.mp hr
  have hmem : v ∈ e.tables.vrfs.vrfs := List.mem_map.mpr ⟨(vrf, v), Entries.mem_of_get? hv, rfl⟩
  exact List.mem_flatMap.mpr ⟨v, hmem, List.mem_map.mpr ⟨(k, r), Vrf.mem_routes hr, rfl⟩⟩

/-- A duty for a prefix that nobody has is idle. -/
theorem idle_of_not_mem {e : Engine} (ht : e.tables.Aligned) {σ : Duty} (hσ : σ.dest.Canonical)
    (h : σ.dest ∉ e.prefixes) : σ.Idle e.toView := by
  have hnone : ∀ vrf k, k.dest = σ.dest → e.tables.route? vrf k = none := by
    intro vrf k hk
    exact Classical.byContradiction fun hr => h (hk ▸ dest_mem_prefixes hr)
  exact Duty.idle_of_no_route ht (fun vrf k hr => hnone vrf k (Duty.dest_of_reads hσ hr))
    (hnone σ.vrf σ.key σ.dest_key)

/-- To know that a state is settled, it is enough to look at the prefixes that have routes. -/
theorem settled_of_prefixes {e : Engine} (ht : e.tables.Proper) (hs : e.routers.routers.Sorted)
    (hidle : ∀ vrf ∈ e.routers.routingVrfs, ∀ p ∈ e.prefixes,
      Duty.Idle e.toView ⟨.fromBridges, vrf, p⟩ ∧ Duty.Idle e.toView ⟨.toInet, vrf, p⟩ ∧
        Duty.Idle e.toView ⟨.toEvpn, vrf, p⟩)
    (hforeign : ∀ v ∈ e.tables.vrfs.vrfs, v.name ∉ e.routers.routingVrfs → ∀ r ∈ v.routes,
      ∀ x ∈ r.2.paths, ¬ e.params.Owns x.peer) : e.Settled := by
  rw [settled_iff hs]
  refine ⟨fun σ hσ => ?_, fun vrf hvrf k p hp => ?_⟩
  · by_cases hmem : σ.dest ∈ e.prefixes
    · have hi := hidle σ.vrf ((RouterMap.mem_routingVrfs hs).mpr hσ.1) σ.dest hmem
      obtain ⟨d, vrf, dest⟩ := σ
      cases d
      · exact hi.1
      · exact hi.2.1
      · exact hi.2.2
    · exact idle_of_not_mem ht.aligned hσ.2 hmem
  · rw [Tables.path?_eq_find?]
    refine List.find?_eq_none.mpr fun x hx => ?_
    have hne : x.peer ≠ p := by
      rintro rfl
      obtain ⟨v, r, hv, hmem, hr, hx⟩ := Tables.exists_route_of_mem_paths hx
      have hname : v.name ∉ e.routers.routingVrfs := by
        rw [ht.named vrf v hv, RouterMap.mem_routingVrfs hs]
        exact hvrf
      exact hforeign v hmem hname (k, r) (Vrf.mem_routes hr) x hx hp
    simpa using hne

end Engine

namespace Sample

theorem apart : engine.routers.Apart := RouterMap.apart_of_records (by decide +kernel)

theorem carries : engine.Carries := View.carries_of_records (by decide +kernel)

theorem settled : engine.Settled :=
  Engine.settled_of_prefixes filled.proper configured.coherent.sorted (by decide +kernel)
    (by decide +kernel)

end Sample

end VxlanRouting
