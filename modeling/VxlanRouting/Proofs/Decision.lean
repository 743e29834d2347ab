import VxlanRouting.Advertisement
import VxlanRouting.Config
import VxlanRouting.Proofs.Location
import VxlanRouting.Proofs.Routers

/-!
What decisions look at. A prefix is exported from the first bridge that has paths to it; what leaks
is read from the paths of one route. Beyond these paths a decision knows the interfaces of machines,
the hardware addresses of other routers, the identifier of the routing VRF and the attached bridges.
What is decided on can always be installed, and is in a form that a path which carries it tells.
-/
namespace VxlanRouting

/-- Parameters that a sound configuration gives. -/
def Parameters.FromConfig (p : Parameters) : Prop := ∃ c : Config, c.parameters = .ok p

namespace Parameters.FromConfig

theorem ok_of_parameters {c : Config} {p : Parameters} (h : c.parameters = .ok p) :
    p.exportPeer.kind = .localExport ∧ p.leakPeer.kind = .vxlanBgp := by
  unfold Config.parameters at h
  split at h
  · cases h
  · split at h
    · cases h
    · dsimp only at h
      split at h <;> cases h
      exact ⟨rfl, rfl⟩

variable {p : Parameters}

theorem kind_exportPeer (h : p.FromConfig) : p.exportPeer.kind = .localExport := by
  obtain ⟨c, hc⟩ := h
  exact (ok_of_parameters hc).1

theorem kind_leakPeer (h : p.FromConfig) : p.leakPeer.kind = .vxlanBgp := by
  obtain ⟨c, hc⟩ := h
  exact (ok_of_parameters hc).2

theorem peers_ne (h : p.FromConfig) : p.exportPeer ≠ p.leakPeer := by
  intro he
  have hk : p.exportPeer.kind = p.leakPeer.kind := by rw [he]
  rw [h.kind_exportPeer, h.kind_leakPeer] at hk
  cases hk

end Parameters.FromConfig

/-- The engine is the owner of this peer's paths. -/
def Parameters.Owns (p : Parameters) (x : Peer) : Prop := x = p.exportPeer ∨ x = p.leakPeer

instance (p : Parameters) (x : Peer) : Decidable (p.Owns x) := inferInstanceAs (Decidable (_ ∨ _))

/-- The engine has neither machines nor control nodes as its peers. -/
theorem Parameters.FromConfig.kind_of_owns {p : Parameters} (h : p.FromConfig) {x : Peer}
    (hx : p.Owns x) : x.kind = .localExport ∨ x.kind = .vxlanBgp := by
  rcases hx with rfl | rfl
  · exact .inl h.kind_exportPeer
  · exact .inr h.kind_leakPeer

theorem Parameters.FromConfig.ne_bgp_of_owns {p : Parameters} (h : p.FromConfig) {x : Peer}
    (hx : p.Owns x) : x.kind ≠ .bgp := by
  rcases h.kind_of_owns hx with hk | hk <;> rw [hk] <;> simp

theorem Parameters.FromConfig.ne_localVm_of_owns {p : Parameters} (h : p.FromConfig) {x : Peer}
    (hx : p.Owns x) : x.kind ≠ .localVm := by
  rcases h.kind_of_owns hx with hk | hk <;> rw [hk] <;> simp

theorem find?_congr_of_mem {α : Type} {f g : α → Bool} {l : List α} (h : ∀ x ∈ l, f x = g x) :
    l.find? f = l.find? g := by
  induction l with
  | nil => rfl
  | cons x l ih =>
    rw [List.find?_cons, List.find?_cons, h x List.mem_cons_self,
      ih fun y hy => h y (List.mem_cons_of_mem _ hy)]

theorem Path.controlTunnel?_of_kind_ne {x : Path} (h : x.peer.kind ≠ .bgp) :
    x.controlTunnel? = none := by
  simp only [controlTunnel?]
  split
  · exact if_neg h
  · rfl

namespace View

/-- The same machines on this host and the same hardware addresses of other routers. -/
structure SameHost (v w : View) : Prop where
  vm : ∀ name, v.tables.IsVm name ↔ w.tables.IsVm name
  mac : ∀ a, v.routerMac? a = w.routerMac? a

theorem SameHost.refl (v : View) : v.SameHost v := ⟨fun _ => Iff.rfl, fun _ => rfl⟩

theorem SameHost.trans {u v w : View} (h : u.SameHost v) (h' : v.SameHost w) : u.SameHost w :=
  ⟨fun n => (h.vm n).trans (h'.vm n), fun a => (h.mac a).trans (h'.mac a)⟩

/-- The lookup of a hardware address is a search through the paths of a host route. -/
theorem routerMac?_eq {v : View} (h : v.tables.Proper) (a : Address) :
    v.routerMac? a = (v.tables.paths v.params.fabricVrf (.inet (.host a))).findSome? fun x =>
      (x.controlTunnel?.map (·.mac)).filter (· ≠ Mac.zero) := by
  simp only [routerMac?]
  rw [h.route?_eq]
  by_cases he : v.tables.paths v.params.fabricVrf (.inet (.host a)) = []
  · rw [if_pos he, he]
    rfl
  · rw [if_neg he]

theorem tunnelTo_congr {v w : View} (h : v.SameHost w) (a : Address) (m : Mac) (t : TunnelTypes) :
    v.tunnelTo a m t = w.tunnelTo a m t := by
  simp only [tunnelTo]
  rw [h.mac]

theorem ofMembers_congr {v w : View} (h : v.SameHost w) (ms : List MemberKey) (a : Attributes) :
    v.ofMembers ms a = w.ofMembers ms a := by
  simp only [ofMembers, tunnelAdvertisement]
  simp only [tunnelTo_congr h]

theorem usableMembers_congr {v w : View} (h : ∀ name, v.tables.IsVm name ↔ w.tables.IsVm name)
    (tunnels : Bool) (slots : List Slot) :
    v.usableMembers tunnels slots = w.usableMembers tunnels slots := by
  simp only [usableMembers]
  congr 1
  refine List.filter_congr fun m _ => ?_
  have hu : v.IsUsable tunnels m.hop ↔ w.IsUsable tunnels m.hop := by
    simp only [IsUsable]
    split
    · exact h _
    · exact Iff.rfl
    · exact Iff.rfl
  simp [hu]

theorem localAdvertisement_congr {v w : View} (h : v.SameHost w) (hop : NextHop)
    (a : Attributes) : v.localAdvertisement hop a = w.localAdvertisement hop a := by
  simp only [localAdvertisement]
  split
  · simp only [h.vm]
  · rw [usableMembers_congr h.vm, ofMembers_congr h]
  · rfl

/-- What leaks of an EVPN path. -/
def mirror (v : View) (x : Path) : Option Advertisement :=
  match x.hop with
  | .tunnel t => some (.tunnel (v.tunnelTo t.dest t.mac t.types) (x.attrs.advertised t.types))
  | .composite _ _ slots => v.ofMembers (v.usableMembers true slots) x.attrs
  | h => v.localAdvertisement h x.attrs

theorem mirror_congr {v w : View} (h : v.SameHost w) (x : Path) : v.mirror x = w.mirror x := by
  simp only [mirror]
  split
  · rw [tunnelTo_congr h]
  · rw [usableMembers_congr h.vm, ofMembers_congr h]
  · rw [localAdvertisement_congr h]

end View

namespace Tables

/-- The best path of a machine in the first bridge of a list that has paths, with the VN of that
bridge. -/
def source? (db : Tables) (bridges : List (String × String)) (k : RouteKey) :
    Option (String × Path) :=
  (bridges.find? fun b => decide (db.paths b.2 k ≠ [])).bind fun b =>
    ((db.paths b.2 k).find? fun x => x.peer.kind = .localVm).map fun x => (b.1, x)

theorem source?_cons (db : Tables) (b : String × String) (l : List (String × String))
    (k : RouteKey) : db.source? (b :: l) k =
      if db.paths b.2 k = [] then db.source? l k
      else ((db.paths b.2 k).find? fun x => x.peer.kind = .localVm).map fun x => (b.1, x) := by
  simp only [source?]
  rw [List.find?_cons]
  by_cases he : db.paths b.2 k = []
  · simp [he]
  · simp [he]

/-- In the last bridge only the paths of machines matter: whether it has others is all the same. -/
theorem source?_congr {db db' : Tables} {bridges : List (String × String)} {k : RouteKey}
    (hvm : ∀ b ∈ bridges, ((db'.paths b.2 k).find? fun x => x.peer.kind = .localVm) =
      (db.paths b.2 k).find? fun x => x.peer.kind = .localVm)
    (hfront : ∀ b ∈ bridges.dropLast, db'.paths b.2 k = db.paths b.2 k) :
    db'.source? bridges k = db.source? bridges k := by
  induction bridges with
  | nil => rfl
  | cons b l ih =>
    cases l with
    | nil =>
      have hlast : ∀ db : Tables, db.source? [b] k =
          ((db.paths b.2 k).find? fun x => x.peer.kind = .localVm).map fun x => (b.1, x) := by
        intro db
        rw [source?_cons]
        split
        · next he => rw [he]; rfl
        · rfl
      rw [hlast, hlast, hvm b List.mem_cons_self]
    | cons c l =>
      have hb : db'.paths b.2 k = db.paths b.2 k := hfront b List.mem_cons_self
      rw [source?_cons db', source?_cons db, hb]
      rw [ih (fun x hx => hvm x (List.mem_cons_of_mem _ hx))
        fun x hx => hfront x (List.mem_cons_of_mem _ hx)]

end Tables

namespace View

/-- The local path that a routing VRF exports for a prefix, with the VN of its bridge. -/
def source? (v : View) (vrf : String) (p : Prefix) : Option (String × Path) :=
  v.tables.source? (v.routers.bridgesOf vrf) (.inet p.canonical)

theorem origin?_eq {v : View} (h : v.tables.Proper) (vrf : String) (p : Prefix) :
    v.routers.origin? v.tables.vrfs vrf p.network p.length =
      (v.routers.bridgesOf vrf).find? fun b =>
        decide (v.tables.paths b.2 (.inet p.canonical) ≠ []) := by
  simp only [RouterMap.origin?]
  congr 1
  funext b
  have hl : ((v.tables.vrfs.get? b.2).bind fun x => x.locate? .inet p.network p.length) =
      v.tables.locate? b.2 .inet p.network p.length := rfl
  rw [hl, h.locate?_eq, h.route?_eq]
  show _ = decide (v.tables.paths b.2 (.ofPrefix .inet p.canonical) ≠ [])
  split
  · next he => simp [he]
  · next he => simp [he]

theorem exported_eq {v : View} (h : v.tables.Proper) (vrf : String) (p : Prefix) :
    v.exported vrf p = (v.source? vrf p).bind fun s => (v.tables.bare? vrf).bind fun r =>
      v.localAdvertisement s.2.hop { s.2.attrs with destVns := [s.1], vni := r.vni } := by
  simp only [exported, source?, Tables.source?]
  rw [origin?_eq h]
  simp only [Option.bind_eq_bind, Option.bind_assoc]
  congr 1
  funext b
  have hb := h.locate?_bind b.2 .inet p (fun l => l.find? fun x => x.peer.kind = .localVm) rfl
  simp only [Route.findKind?]
  rw [← Option.bind_assoc, hb]
  show _ = (((v.tables.paths b.2 (.ofPrefix .inet p.canonical)).find? _).map _).bind _
  rw [Option.bind_map]
  congr 1
  funext x
  simp only [Tables.bare?]
  cases v.tables.vrfs.get? vrf <;> rfl

theorem leakedInet_eq {v : View} (h : v.tables.Proper) (vrf : String) (p : Prefix) :
    v.leakedInet vrf p = ((v.tables.paths vrf (.evpn (.type5 p.canonical))).find? fun x =>
      decide (x.peer ≠ v.params.leakPeer)).bind v.mirror := by
  have hb := h.locate?_bind vrf .evpn p
    (fun l => (l.find? fun x => decide (x.peer ≠ v.params.leakPeer)).bind v.mirror) rfl
  exact hb

theorem leakedEvpn_eq {v : View} (h : v.tables.Proper) (vrf : String) (p : Prefix) :
    v.leakedEvpn vrf p = ((v.tables.paths vrf (.inet p.canonical)).findSome? fun x =>
      x.controlTunnel?.map fun t => (x, t)).map fun s =>
        .tunnel (v.tunnelTo s.2.dest s.2.mac .vxlan) (s.1.attrs.advertised .vxlan) := by
  have hb := h.locate?_bind vrf .inet p (fun l => (l.findSome? fun x =>
    x.controlTunnel?.map fun t => (x, t)).map fun s =>
      Advertisement.tunnel (v.tunnelTo s.2.dest s.2.mac .vxlan) (s.1.attrs.advertised .vxlan)) rfl
  rw [show (.inet p.canonical : RouteKey) = .ofPrefix .inet p.canonical from rfl, ← hb]
  simp only [leakedEvpn]
  simp only [Option.bind_eq_bind, Option.map_eq_bind]
  rfl

theorem source?_congr {v w : View} {vrf : String} {p : Prefix}
    (hb : w.routers.bridgesOf vrf = v.routers.bridgesOf vrf)
    (hread : ∀ b ∈ v.routers.bridgesOf vrf,
      w.tables.paths b.2 (.inet p.canonical) = v.tables.paths b.2 (.inet p.canonical)) :
    w.source? vrf p = v.source? vrf p := by
  simp only [source?]
  rw [hb]
  refine Tables.source?_congr (fun b hm => ?_) fun b hm => hread b (List.dropLast_subset _ hm)
  rw [hread b hm]

theorem exported_congr {v w : View} (hv : v.tables.Proper) (hw : w.tables.Proper)
    (hl : ∀ hop a, v.localAdvertisement hop a = w.localAdvertisement hop a) {vrf : String}
    {p : Prefix} (hs : w.source? vrf p = v.source? vrf p)
    (hvni : (w.tables.bare? vrf).map (·.vni) = (v.tables.bare? vrf).map (·.vni)) :
    w.exported vrf p = v.exported vrf p := by
  have hbind : ∀ u : View, u.tables.Proper → u.exported vrf p = (u.source? vrf p).bind fun s =>
      ((u.tables.bare? vrf).map (·.vni)).bind fun vni =>
        u.localAdvertisement s.2.hop { s.2.attrs with destVns := [s.1], vni } := by
    intro u hu
    rw [exported_eq hu]
    simp only [Option.bind_map]
    rfl
  rw [hbind w hw, hbind v hv, hs, hvni]
  refine Option.bind_congr fun s _ => Option.bind_congr fun vni _ => ?_
  exact (hl _ _).symm

theorem leakedInet_congr {v w : View} (hv : v.tables.Proper) (hw : w.tables.Proper)
    (hh : v.SameHost w) {vrf : String} {p : Prefix}
    (hf : ((w.tables.paths vrf (.evpn (.type5 p.canonical))).find? fun x =>
        decide (x.peer ≠ w.params.leakPeer)) =
      (v.tables.paths vrf (.evpn (.type5 p.canonical))).find? fun x =>
        decide (x.peer ≠ v.params.leakPeer)) :
    w.leakedInet vrf p = v.leakedInet vrf p := by
  rw [leakedInet_eq hw, leakedInet_eq hv, hf]
  exact Option.bind_congr fun x _ => (mirror_congr hh x).symm

theorem leakedEvpn_congr {v w : View} (hv : v.tables.Proper) (hw : w.tables.Proper)
    (hh : v.SameHost w) {vrf : String} {p : Prefix}
    (hf : ((w.tables.paths vrf (.inet p.canonical)).findSome? fun x =>
        x.controlTunnel?.map fun t => (x, t)) =
      (v.tables.paths vrf (.inet p.canonical)).findSome? fun x =>
        x.controlTunnel?.map fun t => (x, t)) :
    w.leakedEvpn vrf p = v.leakedEvpn vrf p := by
  rw [leakedEvpn_eq hw, leakedEvpn_eq hv, hf]
  refine Option.map_congr fun s _ => ?_
  rw [tunnelTo_congr hh]

end View

/-- The form of what is decided on: a single interface that is there, a composite or a tunnel, none
with an ECMP sequence of its own. -/
def Advertisement.Regular (t : InterfaceTable) : Advertisement → Prop
  | .single hop attrs => (∃ name policy, hop = .interface name policy) ∧ hop.resolve t ≠ none ∧
      attrs.ecmpSequence = 0
  | .ecmp composite attrs => (∃ kind ms, composite = .composite kind ms) ∧ attrs.ecmpSequence = 0
  | .tunnel _ attrs => attrs.ecmpSequence = 0

/-- The key of the next hop that is advertised. -/
def Advertisement.hopKey : Advertisement → NextHopKey
  | .single hop _ => hop
  | .ecmp composite _ => composite
  | .tunnel t _ => .tunnel t

theorem Advertisement.Matches.key_eq {a : Advertisement} {x : Path} (h : a.Matches x) :
    x.hop.key = a.hopKey := by
  cases a with
  | single hop attrs => exact h.1
  | ecmp composite attrs => exact h.1
  | tunnel tunnel attrs =>
    rw [h.1]
    rfl

theorem Attributes.eq_of_agrees {x a b : Attributes} (ha : x.Agrees a) (hb : x.Agrees b)
    (hs : a.ecmpSequence = b.ecmpSequence) : a = b := by
  have h : { a with ecmpSequence := x.ecmpSequence } = { b with ecmpSequence := x.ecmpSequence } :=
    Eq.trans (Eq.symm ha) hb
  cases a
  cases b
  simp_all

/-- A path tells which regular advertisement it carries: the kind and the next hop by its key, and
the attributes up to the ECMP sequence. -/
theorem Advertisement.Regular.eq_of_matches {t t' : InterfaceTable} {a b : Advertisement}
    (ha : a.Regular t) (hb : b.Regular t') {x : Path} (hxa : a.Matches x) (hxb : b.Matches x) :
    a = b := by
  have hkey : a.hopKey = b.hopKey := hxa.key_eq.symm.trans hxb.key_eq
  cases a with
  | single hop attrs =>
    obtain ⟨⟨name, policy, rfl⟩, -, -⟩ := ha
    cases b with
    | single hop' attrs' =>
      have hattrs : attrs = attrs' := hxa.2.symm.trans hxb.2
      rw [hattrs]
      exact congrArg (Advertisement.single · attrs') hkey
    | ecmp composite' attrs' =>
      obtain ⟨⟨kind, ms, rfl⟩, -⟩ := hb
      cases hkey
    | tunnel tunnel' attrs' => cases hkey
  | ecmp composite attrs =>
    obtain ⟨⟨kind, ms, rfl⟩, hs⟩ := ha
    cases b with
    | single hop' attrs' =>
      obtain ⟨⟨name, policy, rfl⟩, -, -⟩ := hb
      cases hkey
    | ecmp composite' attrs' =>
      have hattrs : attrs = attrs' := Attributes.eq_of_agrees hxa.2 hxb.2 (hs.trans hb.2.symm)
      rw [hattrs]
      exact congrArg (Advertisement.ecmp · attrs') hkey
    | tunnel tunnel' attrs' => cases hkey
  | tunnel tunnel attrs =>
    cases b with
    | single hop' attrs' =>
      obtain ⟨⟨name, policy, rfl⟩, -, -⟩ := hb
      cases hkey
    | ecmp composite' attrs' =>
      obtain ⟨⟨kind, ms, rfl⟩, -⟩ := hb
      cases hkey
    | tunnel tunnel' attrs' =>
      have hattrs : attrs = attrs' := hxa.2.symm.trans hxb.2
      cases hkey
      rw [hattrs]

theorem NextHopKey.resolve_of_isVm {db : Tables} {name : String} (h : db.IsVm name)
    (policy : Bool) : (NextHopKey.interface name policy).resolve db.interfaces ≠ none := by
  obtain ⟨i, hi, _⟩ := h
  rw [resolve, Option.mem_def.mp hi]
  simp

namespace View

/-- A member that an advertisement may have: an interface that is there, or a tunnel. -/
def Offers (v : View) (m : MemberKey) : Prop :=
  (∃ name policy, m.key = .interface name policy ∧ v.tables.IsVm name) ∨ ∃ t, m.key = .tunnel t

theorem offers_of_mem_usableMembers {v : View} {tunnels : Bool} {slots : List Slot}
    {m : MemberKey} (h : m ∈ v.usableMembers tunnels slots) : v.Offers m := by
  obtain ⟨l, hl, rfl⟩ := List.mem_map.mp h
  have hu : v.IsUsable tunnels l.hop := by simpa using (List.mem_filter.mp hl).2
  simp only [IsUsable] at hu
  split at hu
  · next name label policy he => exact .inl ⟨name, policy, by rw [LiveMember.toKey, he]; rfl, hu⟩
  · next t he => exact .inr ⟨t, by rw [LiveMember.toKey, he]; rfl⟩
  · exact hu.elim

/-- What members make is regular, unless it is a single one that is neither an interface that is
there nor a tunnel. -/
theorem regular_ofMembers_of_single {v : View} {ms : List MemberKey}
    (hms : ∀ m, ms = [m] → (∃ name policy, m.key = .interface name policy ∧
      m.key.resolve v.tables.interfaces ≠ none) ∨ ∃ t, m.key = .tunnel t)
    {attrs : Attributes} {a : Advertisement} (h : v.ofMembers ms attrs = some a) :
    a.Regular v.tables.interfaces := by
  simp only [ofMembers] at h
  split at h
  · cases h
  · cases h
    exact rfl
  · next label hop hn =>
    cases h
    rcases hms ⟨label, hop⟩ rfl with ⟨name, policy, hk, hr⟩ | ⟨t, hk⟩
    · exact ⟨⟨name, policy, hk⟩, hr, rfl⟩
    · exact absurd hk (hn t)
  · cases h
    exact ⟨⟨_, _, rfl⟩, rfl⟩

theorem regular_ofMembers {v : View} {ms : List MemberKey} (hms : ∀ m ∈ ms, v.Offers m)
    {attrs : Attributes} {a : Advertisement} (h : v.ofMembers ms attrs = some a) :
    a.Regular v.tables.interfaces := by
  refine regular_ofMembers_of_single (fun m hm => ?_) h
  rcases hms m (hm ▸ List.mem_cons_self) with ⟨name, policy, hk, hvm⟩ | ht
  · exact .inl ⟨name, policy, hk, hk ▸ NextHopKey.resolve_of_isVm hvm policy⟩
  · exact .inr ht

theorem regular_localAdvertisement {v : View} {hop : NextHop} {attrs : Attributes}
    {a : Advertisement} (h : v.localAdvertisement hop attrs = some a) :
    a.Regular v.tables.interfaces := by
  simp only [localAdvertisement] at h
  split at h
  · split at h
    · next name label policy hvm =>
      cases h
      exact ⟨⟨name, policy, rfl⟩, NextHopKey.resolve_of_isVm hvm policy, rfl⟩
    · cases h
  · exact regular_ofMembers (fun m hm => offers_of_mem_usableMembers hm) h
  · cases h

theorem regular_mirror {v : View} {x : Path} {a : Advertisement} (h : v.mirror x = some a) :
    a.Regular v.tables.interfaces := by
  simp only [mirror] at h
  split at h
  · cases h
    exact rfl
  · exact regular_ofMembers (fun m hm => offers_of_mem_usableMembers hm) h
  · exact regular_localAdvertisement h

end View

end VxlanRouting
