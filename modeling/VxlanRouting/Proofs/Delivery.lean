import VxlanRouting.Proofs.Faults
import VxlanRouting.Proofs.Frames
import VxlanRouting.Proofs.ItemSources
import VxlanRouting.Proofs.PathMap

/-!
The delivery of a route item. After an item has been delivered and the queue processed, the peer has
on the route what the members of the item make: nothing, an interface, a tunnel or a composite of
all members in their order. The same item asks for nothing then, because its sources are as they
were; and when it is withdrawn, the path goes.
-/
namespace VxlanRouting

/-- A leaf by its form. -/
theorem NextHopKey.IsLeaf.cases {k : NextHopKey} (h : k.IsLeaf) :
    (∃ name policy, k = .interface name policy) ∨ ∃ t, k = .tunnel t := by
  simp only [IsLeaf] at h
  cases k with
  | interface name policy => exact .inl ⟨name, policy, rfl⟩
  | tunnel t => exact .inr ⟨t, rfl⟩
  | _ => simp [hopKind] at h

namespace View

/-- The check stops a member on its own that is no leaf, and nothing else. -/
theorem eq_of_checkedMembers {v : View} {ms : List MemberKey} {attrs : Attributes}
    {want : Option Advertisement} (h : v.checkedMembers ms attrs = .ok want) :
    want = v.ofMembers ms attrs ∧ ∀ m, ms = [m] → m.key.IsLeaf := by
  simp only [checkedMembers] at h
  split at h
  · next m =>
    split at h
    · next hk =>
      cases h
      refine ⟨rfl, fun m' hm' => ?_⟩
      cases hm'
      exact .inl hk
    · next hk =>
      cases h
      refine ⟨rfl, fun m' hm' => ?_⟩
      cases hm'
      exact .inr hk
    · cases h
  · next hn =>
    cases h
    exact ⟨rfl, fun m hm => absurd hm (hn m)⟩

theorem ofMembers_of_more (v : View) (m m' : MemberKey) (ms : List MemberKey) (attrs : Attributes) :
    v.ofMembers (m :: m' :: ms) attrs = some (.ecmp (.composite
      (if (m :: m' :: ms).all (·.key.isInterface) then .localEcmp else .ecmp) (m :: m' :: ms))
      (attrs.advertised .vxlan)) := by
  obtain ⟨label, key⟩ := m
  cases key <;> rfl

/-- What members make can be installed if the interfaces that they name are there. -/
theorem installable_ofMembers {v : View} {ms : List MemberKey}
    (hleaf : ∀ m, ms = [m] → m.key.IsLeaf)
    (hi : ∀ m ∈ ms, ∀ name policy, m.key = .interface name policy →
      v.tables.interfaces.get? name ≠ none) (attrs : Attributes) :
    Installable v.tables.interfaces (v.ofMembers ms attrs) := by
  intro a ha
  refine regular_ofMembers_of_single (fun m hm => ?_) (Option.mem_def.mp ha)
  rcases (hleaf m hm).cases with ⟨name, policy, hk⟩ | ht
  · refine .inl ⟨name, policy, hk, ?_⟩
    have hthere := hi m (hm ▸ List.mem_cons_self) name policy hk
    rw [hk, NextHopKey.resolve]
    simpa using hthere
  · exact .inr ht

/-- The path that members make: none for no member; the interface or the tunnel for a member on its
own; and for more of them a composite of all, a local one if all of them are interfaces. -/
inductive Delivered (v : View) (attrs : Attributes) : List MemberKey → Option Path → Prop
  | nothing : Delivered v attrs [] none
  | interface {label : Nat} {name : String} {policy : Bool} {x : Path}
      (hop : x.hop.key = .interface name policy) (given : x.attrs = attrs.advertised .vxlan) :
      Delivered v attrs [⟨label, .interface name policy⟩] (some x)
  | tunnel {label : Nat} {t : Tunnel} {x : Path}
      (hop : x.hop = .tunnel (v.tunnelTo t.dest t.mac t.types))
      (given : x.attrs =
        { attrs.advertised t.types with vni := (Vni.ofNat? label).or attrs.vni }) :
      Delivered v attrs [⟨label, .tunnel t⟩] (some x)
  | composite {ms : List MemberKey} {kind : CompositeKind} {x : Path} (many : 2 ≤ ms.length)
      (hop : x.hop.key = .composite kind ms)
      (locality : kind = .localEcmp ↔ ∀ m ∈ ms, m.key.isInterface = true)
      (given : x.attrs.Agrees (attrs.advertised .vxlan)) : Delivered v attrs ms (some x)

theorem Delivered.eq_none_iff {v : View} {attrs : Attributes} {ms : List MemberKey}
    {found : Option Path} (h : v.Delivered attrs ms found) : found = none ↔ ms = [] := by
  cases h with
  | nothing => simp
  | interface => simp
  | tunnel => simp
  | composite many =>
    constructor
    · intro h
      cases h
    · rintro rfl
      simp at many

/-- A path that accords with what members make is as described. -/
theorem delivered_of_accords {v : View} {ms : List MemberKey} {attrs : Attributes}
    {found : Option Path} (hleaf : ∀ m, ms = [m] → m.key.IsLeaf)
    (h : Accords found (v.ofMembers ms attrs)) : v.Delivered attrs ms found := by
  rcases ms with _ | ⟨⟨label, key⟩, _ | ⟨m, l⟩⟩
  · rw [accords_none h]
    exact .nothing
  · rcases (hleaf _ rfl).cases with ⟨name, policy, hk⟩ | ⟨t, hk⟩
    · have hk : key = .interface name policy := hk
      subst hk
      obtain ⟨x, rfl, hop, given⟩ := accords_some h
      exact .interface hop given
    · have hk : key = .tunnel t := hk
      subst hk
      obtain ⟨x, rfl, hop, given⟩ := accords_some h
      exact .tunnel hop given
  · rw [ofMembers_of_more] at h
    obtain ⟨x, rfl, hop, given⟩ := accords_some h
    refine .composite (by simp) hop ?_ given
    rw [← List.all_eq_true]
    split
    · next hall => simp [hall]
    · next hall => simp [hall]

end View

namespace Engine

/-- Processing leaves other peers than the engine's own what the queue made them await. -/
theorem Sound.path?_process_of_foreign {e : Engine} (he : e.Sound) {peer : Peer}
    (hpeer : ¬ e.params.Owns peer) (vrf : String) (k : RouteKey) :
    e.process.1.tables.path? vrf k peer = e.awaited vrf k peer := by
  refine he.path?_process fun σ _ heq => hpeer ?_
  simp only [Prod.mk.injEq] at heq
  rw [heq.2.2]
  exact σ.owns_peer e.params

/-- What is asked for under another peer than the engine's own is there after processing. -/
theorem accords_process_sync {e : Engine} (he : e.Sound) (hq : e.queue = []) {vrf : String}
    (hv : e.tables.bare? vrf ≠ none) {peer : Peer} (hpeer : ¬ e.params.Owns peer) (k : RouteKey)
    {want : Option Advertisement} (hi : Installable e.tables.interfaces want) :
    Accords ((e.sync vrf k peer want).process.1.tables.path? vrf k peer) want := by
  by_cases ha : Accords (e.tables.path? vrf k peer) want
  · rw [sync_of_accords ha, he.path?_process_of_foreign hpeer]
    simp only [awaited]
    rw [hq]
    exact ha
  · obtain ⟨q, hput, rfl, rfl, rfl, hask⟩ := sync_of_not_accords he.sorted ha
    have he' : (e.sync q.vrf q.key q.peer want).Sound :=
      .of_level he.config he.proper he.sorted hput.toLevel
    rw [he'.path?_process_of_foreign (hput.params ▸ hpeer)]
    simp only [awaited]
    rw [hput.queue, hq, hput.tables]
    show Accords ((e.tables.apply q).1.path? q.vrf q.key q.peer) want
    rw [Tables.path?_apply_self _ q hv]
    exact Request.accords_outcome hask hi _

/-- Asking for the path of an item spares the sources of the items for its table. -/
theorem spares_sync {e : Engine} (he : e.Sound) (hq : e.queue = []) {vrf : String}
    (hf : vrf ≠ e.params.fabricVrf) {peer : Peer} (hpeer : peer.kind = .bgp) (t : TableKind)
    (p : Prefix) (want : Option Advertisement) :
    Spares e.toView vrf t (e.sync vrf (.ofPrefix t p) peer want) := by
  by_cases ha : Accords (e.tables.path? vrf (.ofPrefix t p) peer) want
  · rw [sync_of_accords ha]
    refine ⟨(View.Level.refl _).sameSources vrf t, ?_⟩
    rw [hq]
    exact List.forall_mem_nil _
  · obtain ⟨q, hput, hqv, hqk, hqp, _⟩ := sync_of_not_accords he.sorted ha
    refine ⟨hput.toLevel.sameSources vrf t, fun r hr => ?_⟩
    rw [hput.queue, hq, List.nil_append, List.mem_singleton] at hr
    subst hr
    refine ⟨?_, fun hk => ?_, fun ht s hk => ?_, .inl ?_⟩
    · rw [hqp, hpeer]
      decide
    · rw [hqp, hpeer] at hk
      cases hk
    · subst ht
      rw [hqk] at hk
      cases hk
    · rw [hqv, hput.params]
      exact hf

/-- An engine that has got the path of a control node to what is wanted, and has come to rest. -/
structure Delivers (e e' : Engine) (vrf : String) (t : TableKind) (p : Prefix) (peer : Peer)
    (want : Option Advertisement) : Prop where
  sound : e'.Sound
  queue : e'.queue = []
  akin : e.toView.Akin e'.toView
  sources : e.toView.SameSources e'.toView vrf t
  accords : Accords (e'.tables.path? vrf (.ofPrefix t p) peer) want

section

variable {e : Engine} (he : e.Sound) (hq : e.queue = []) {vrf : String}
  (hv : e.tables.bare? vrf ≠ none) (hf : vrf ≠ e.params.fabricVrf) {peer : Peer}
  (hpeer : peer.kind = .bgp)

include he hq hv hf hpeer

theorem delivers_sync (t : TableKind) (p : Prefix) {want : Option Advertisement}
    (hi : Installable e.tables.interfaces want) :
    e.Delivers (e.sync vrf (.ofPrefix t p) peer want).process.1 vrf t p peer want := by
  have howns : ¬ e.params.Owns peer := fun h => he.config.ne_bgp_of_owns h hpeer
  have hlevel := level_sync he.sorted vrf (.ofPrefix t p) peer want
  have he₁ : (e.sync vrf (.ofPrefix t p) peer want).Sound :=
    .of_level he.config he.proper he.sorted hlevel
  obtain ⟨he₂, hakin, hspares⟩ := he₁.process_induction (spares_sync he hq hf hpeer t p want)
    fun _ _ _ n hs _ hq h => h.turn hs hq n
  exact ⟨he₂, he₁.process_turns.1, hlevel.akin.trans hakin, hspares.sources,
    accords_process_sync he hq hv howns (.ofPrefix t p) hi⟩

/-- What is withdrawn is gone after processing. -/
theorem path?_process_withdrawItem (t : TableKind) (p : Prefix) :
    (e.withdrawItem peer vrf p t).process.1.tables.path? vrf (.ofPrefix t p) peer = none :=
  accords_none (delivers_sync he hq hv hf hpeer t p fun _ ha => by cases ha).accords

end

theorem updateItem_eq {e : Engine} {vrf : String} (hv : e.tables.vrfs.get? vrf ≠ none)
    {item : RouteItem} {want : Option Advertisement} (hw : e.itemAdvertisement vrf item = .ok want)
    (peer : Peer) (p : Prefix) :
    e.updateItem peer vrf p item = .ok (e.sync vrf (.ofPrefix item.table p) peer want) := by
  obtain ⟨v, hv⟩ := Option.ne_none_iff_exists'.mp hv
  simp only [updateItem]
  rw [hv, hw]
  rfl

/-- The same item asks for nothing once it has been delivered. -/
theorem Delivers.updateItem_eq_self {e e' : Engine} {vrf : String} {item : RouteItem} {p : Prefix}
    {peer : Peer} {want : Option Advertisement} (h : e.Delivers e' vrf item.table p peer want)
    (ht : e.tables.Proper) (hv : e.tables.vrfs.get? vrf ≠ none)
    (hw : e.itemAdvertisement vrf item = .ok want) : e'.updateItem peer vrf p item = .ok e' := by
  have hv' : e'.tables.vrfs.get? vrf ≠ none := by
    rw [Ne, Tables.get?_eq_none_iff_bare?, h.akin.bare, ← Tables.get?_eq_none_iff_bare?]
    exact hv
  have hw' : e'.itemAdvertisement vrf item = .ok want := by
    rw [View.itemAdvertisement_congr ht h.sound.proper h.sources, hw]
  rw [updateItem_eq hv' hw', sync_of_accords h.accords]

/-- A control node delivers an item to a VRF other than the fabric VRF. Once the queue has been
processed, the node has one path on the route of the item, which is as decided, or none if the item
has no members; the same item asks for nothing; and withdrawing the item takes the path away. -/
theorem delivered_item (e : Engine) (hc : e.params.FromConfig) (ht : e.tables.Filled)
    (hs : e.routers.routers.Sorted) (hq : e.queue = []) {peer : Peer} (hpeer : peer.kind = .bgp)
    {vrf : String} (hv : e.tables.vrfs.get? vrf ≠ none) (hf : vrf ≠ e.params.fabricVrf)
    (p : Prefix) (item : RouteItem) {ms : List MemberKey} {want : Option Advertisement}
    (hm : e.itemMembers vrf item = .ok ms) (hw : e.itemAdvertisement vrf item = .ok want)
    (hi : ∀ m ∈ ms, ∀ name policy, m.key = .interface name policy →
      e.tables.interfaces.get? name ≠ none) :
    ∃ e₁ e₂ found, e.updateItem peer vrf p item = .ok e₁ ∧ e₁.process.1 = e₂ ∧ e₂.queue = [] ∧
      e₂.tables.path? vrf (.ofPrefix item.table p) peer = found ∧
      (found = none ↔ ms = []) ∧ Accords found want ∧
      e.Delivered item.params.attrs ms found ∧
      (∀ x ∈ e₂.tables.paths vrf (.ofPrefix item.table p), x.peer = peer → found = some x) ∧
      e₂.updateItem peer vrf p item = .ok e₂ ∧
      (e₂.withdrawItem peer vrf p item.table).process.1.tables.path? vrf
        (.ofPrefix item.table p) peer = none := by
  have he : e.Sound := ⟨hc, ht.proper, hs⟩
  have hb : e.tables.bare? vrf ≠ none := mt Tables.get?_eq_none_iff_bare?.mpr hv
  obtain ⟨rfl, hleaf⟩ : want = e.ofMembers ms item.params.attrs ∧
      ∀ m, ms = [m] → m.key.IsLeaf := by
    rw [View.itemAdvertisement_eq, hm] at hw
    exact View.eq_of_checkedMembers hw
  have h := delivers_sync he hq hb hf hpeer item.table p
    (View.installable_ofMembers hleaf hi item.params.attrs)
  have hdelivered := View.delivered_of_accords hleaf h.accords
  refine ⟨_, _, _, updateItem_eq hv hw peer p, rfl, h.queue, rfl, hdelivered.eq_none_iff, h.accords,
    hdelivered, fun x hx hxp => ?_, h.updateItem_eq_self ht.proper hv hw, ?_⟩
  · have hfind := (h.sound.proper.mem_paths_iff _ _ x).mp hx
    rw [hxp] at hfind
    exact hfind
  · refine path?_process_withdrawItem h.sound h.queue ?_ ?_ hpeer item.table p
    · rw [h.akin.bare]
      exact hb
    · rw [h.akin.params]
      exact hf

/-- The network of a machine comes back from the control node. -/
theorem delivered_item_passedOn : ∃ e₁ e₂ x,
    Sample.passedOn.updateItem Sample.controller "routing" Sample.subnet Sample.item = .ok e₁ ∧
      e₁.process.1 = e₂ ∧
      e₂.tables.path? "routing" (.evpn (.type5 Sample.subnet)) Sample.controller = some x ∧
      x.hop.key = .interface "tap" false ∧
      e₂.updateItem Sample.controller "routing" Sample.subnet Sample.item = .ok e₂ := by
  have hpeer : Sample.controller.kind = .bgp := rfl
  have hthere : Sample.passedOn.tables.vrfs.get? "routing" ≠ none := by decide +kernel
  have hm : Sample.passedOn.itemMembers "routing" Sample.item =
      .ok [⟨3, .interface "tap" false⟩] := rfl
  have hw : Sample.passedOn.itemAdvertisement "routing" Sample.item =
      .ok (Sample.passedOn.ofMembers [⟨3, .interface "tap" false⟩] Sample.item.params.attrs) := rfl
  have htap : Sample.passedOn.tables.interfaces.get? "tap" ≠ none := by decide +kernel
  obtain ⟨e₁, e₂, found, hok, hprocess, _, hfound, _, haccords, _, _, hagain, _⟩ :=
    delivered_item Sample.passedOn Sample.fromConfig Sample.filled_passedOn
      Sample.configured.coherent.sorted rfl hpeer hthere (by decide +kernel)
      Sample.subnet Sample.item hm hw (by
        intro m hmem name policy hk
        rw [List.mem_singleton] at hmem
        subst hmem
        cases hk
        exact htap)
  obtain ⟨x, rfl, hop, _⟩ := accords_some haccords
  exact ⟨e₁, e₂, x, hok, hprocess, hfound, hop, hagain⟩

end Engine

end VxlanRouting
