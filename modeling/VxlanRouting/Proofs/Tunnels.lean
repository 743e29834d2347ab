import VxlanRouting.Proofs.Drain
import VxlanRouting.Proofs.Machines

/-!
What decisions know of the hardware addresses of other routers. A decision looks one up only for the
tunnel that it passes on by itself, and only if that tunnel has none; so it stays when the address
of another router becomes known, and once its path is as decided, the tunnel there carries what the
lookup gives.
-/
namespace VxlanRouting

/-- The tunnel among the members of an advertisement, if there is no other member. -/
def MemberKey.soleTunnel? : List MemberKey → Option Tunnel
  | [⟨_, .tunnel t⟩] => some t
  | _ => none

namespace View

/-- The same machines on this host, and the same hardware addresses of all other routers but one. -/
structure SameHostBut (v w : View) (a : Address) : Prop where
  vm : ∀ name, v.tables.IsVm name ↔ w.tables.IsVm name
  mac : ∀ b, b ≠ a → v.routerMac? b = w.routerMac? b

theorem SameHostBut.sameHost {v w : View} {a : Address} (h : v.SameHostBut w a)
    (ha : v.routerMac? a = w.routerMac? a) : v.SameHost w := by
  refine ⟨h.vm, fun b => ?_⟩
  by_cases hb : b = a
  · rw [hb, ha]
  · exact h.mac b hb

/-- The tunnel that leaks of a path by itself. -/
def leakedTunnel? (v : View) (x : Path) : Option Tunnel :=
  match x.hop with
  | .tunnel t => some t
  | .composite _ _ slots => MemberKey.soleTunnel? (v.usableMembers true slots)
  | _ => none

theorem tunnelTo_congr_but {v w : View} {a : Address} (h : v.SameHostBut w a) {t : Tunnel}
    (ht : ¬ (t.dest = a ∧ t.mac = Mac.zero)) (types : TunnelTypes) :
    v.tunnelTo t.dest t.mac types = w.tunnelTo t.dest t.mac types := by
  simp only [tunnelTo]
  split
  · next hz => rw [h.mac t.dest fun ha => ht ⟨ha, hz⟩]
  · rfl

theorem ofMembers_congr_but {v w : View} {a : Address} (h : v.SameHostBut w a)
    {ms : List MemberKey}
    (ht : ∀ t, MemberKey.soleTunnel? ms = some t → ¬ (t.dest = a ∧ t.mac = Mac.zero))
    (attrs : Attributes) : v.ofMembers ms attrs = w.ofMembers ms attrs := by
  simp only [ofMembers]
  split
  · rfl
  · next label t =>
    simp only [tunnelAdvertisement]
    rw [tunnelTo_congr_but h (ht t rfl)]
  · rfl
  · rfl

theorem localAdvertisement_congr_but {v w : View} {a : Address} (h : v.SameHostBut w a)
    (hop : NextHop) (attrs : Attributes) :
    v.localAdvertisement hop attrs = w.localAdvertisement hop attrs := by
  simp only [localAdvertisement]
  split
  · simp only [h.vm]
  · rw [usableMembers_congr h.vm]
    exact ofMembers_of_isInterface v w
      (fun m hm => isInterface_of_isMachine (isMachine_of_mem_usableMembers hm)) attrs
  · rfl

theorem mirror_congr_but {v w : View} {a : Address} (h : v.SameHostBut w a) {x : Path}
    (ht : ∀ t, v.leakedTunnel? x = some t → ¬ (t.dest = a ∧ t.mac = Mac.zero)) :
    v.mirror x = w.mirror x := by
  simp only [mirror]
  simp only [leakedTunnel?] at ht
  split
  · next t hx =>
    rw [hx] at ht
    rw [tunnelTo_congr_but h (ht t rfl)]
  · next slots hx =>
    rw [hx] at ht
    rw [← usableMembers_congr h.vm, ofMembers_congr_but h ht]
  · exact localAdvertisement_congr_but h _ _

/-- A tunnel leaks as the tunnel to its destination, with the address that is looked up. -/
theorem mirror_of_leakedTunnel? {v : View} {x : Path} {t : Tunnel}
    (h : v.leakedTunnel? x = some t) : ∃ types attrs,
      v.mirror x = some (.tunnel (v.tunnelTo t.dest t.mac types) attrs) := by
  simp only [leakedTunnel?] at h
  simp only [mirror]
  generalize x.hop = hop at h ⊢
  cases hop with
  | tunnel u =>
    cases h
    exact ⟨_, _, rfl⟩
  | composite kind keys slots =>
    dsimp only at h ⊢
    simp only [MemberKey.soleTunnel?] at h
    split at h
    · next label u hms =>
      cases h
      rw [hms]
      exact ⟨_, _, rfl⟩
    · cases h
  | interface _ _ _ => cases h
  | vrf _ => cases h
  | receive => cases h
  | discard => cases h

end View

namespace Duty

/-- The tunnel that the decision passes on by itself. -/
def tunnel? (v : View) (σ : Duty) : Option Tunnel :=
  match σ.direction with
  | .fromBridges => none
  | .toInet => ((v.tables.paths σ.vrf (.evpn (.type5 σ.dest.canonical))).find? fun x =>
      decide (x.peer ≠ v.params.leakPeer)).bind v.leakedTunnel?
  | .toEvpn => ((v.tables.paths σ.vrf (.inet σ.dest.canonical)).findSome? fun x =>
      x.controlTunnel?.map fun t => (x, t)).map (·.2)

/-- The decision looks up the hardware address of the router: it passes on a tunnel there which has
none. -/
def Seeks (v : View) (σ : Duty) (a : Address) : Prop :=
  ∃ t, σ.tunnel? v = some t ∧ t.dest = a ∧ t.mac = Mac.zero

theorem tunnel?_congr {v w : View} (hp : w.params = v.params)
    (hvm : ∀ name, v.tables.IsVm name ↔ w.tables.IsVm name) (σ : Duty)
    (hread : ∀ vrf k, σ.Reads v.routers vrf k → w.tables.paths vrf k = v.tables.paths vrf k) :
    σ.tunnel? w = σ.tunnel? v := by
  simp only [tunnel?]
  simp only [Reads] at hread
  cases hd : σ.direction <;> rw [hd] at hread <;> dsimp only at hread ⊢
  · rw [hp, hread _ _ ⟨rfl, rfl⟩]
    refine Option.bind_congr fun x _ => ?_
    simp only [View.leakedTunnel?]
    simp only [View.usableMembers_congr hvm]
  · rw [hread _ _ ⟨rfl, rfl⟩]

/-- What is passed on from a bridge is no tunnel, so no address is looked up for it. -/
theorem Seeks.direction_ne {v : View} {σ : Duty} {a : Address} (h : σ.Seeks v a) :
    σ.direction ≠ .fromBridges := by
  intro hd
  obtain ⟨t, ht, _⟩ := h
  simp only [tunnel?] at ht
  rw [hd] at ht
  cases ht

/-- A decision that does not look up the changed address stays if the routes that it reads do. -/
theorem want_congr_but {v w : View} {a : Address} (hv : v.tables.Proper) (hw : w.tables.Proper)
    (hp : w.params = v.params) (hh : v.SameHostBut w a) {σ : Duty}
    (hmac : σ.Seeks v a → v.routerMac? a = w.routerMac? a)
    (hb : w.routers.bridgesOf σ.vrf = v.routers.bridgesOf σ.vrf)
    (hvni : (w.tables.bare? σ.vrf).map (·.vni) = (v.tables.bare? σ.vrf).map (·.vni))
    (hread : ∀ vrf k, σ.Reads v.routers vrf k → w.tables.paths vrf k = v.tables.paths vrf k) :
    σ.want w = σ.want v := by
  by_cases hσ : σ.Seeks v a
  · exact want_congr hv hw hp (hh.sameHost (hmac hσ)) σ hb hvni hread
  simp only [want]
  simp only [Seeks, tunnel?] at hσ
  simp only [Reads] at hread
  cases hd : σ.direction <;> rw [hd] at hread hσ <;> dsimp only at hread hσ ⊢
  · refine View.exported_congr hv hw (View.localAdvertisement_congr_but hh) ?_ hvni
    exact View.source?_congr hb fun b hm => hread b.2 _ ⟨⟨b.1, hm⟩, rfl⟩
  · rw [View.leakedInet_eq hw, View.leakedInet_eq hv, hp, hread _ _ ⟨rfl, rfl⟩]
    refine Option.bind_congr fun x hx => (View.mirror_congr_but hh fun t ht hseek => hσ ?_).symm
    exact ⟨t, by rw [hx, Option.bind_some, ht], hseek⟩
  · rw [View.leakedEvpn_eq hw, View.leakedEvpn_eq hv, hread _ _ ⟨rfl, rfl⟩]
    refine Option.map_congr fun s hs => ?_
    rw [View.tunnelTo_congr_but hh fun hseek => hσ ⟨s.2, by rw [hs, Option.map_some], hseek⟩]

theorem want_of_tunnel? {v : View} (ht : v.tables.Proper) {σ : Duty} {t : Tunnel}
    (h : σ.tunnel? v = some t) : ∃ types attrs,
      σ.want v = some (.tunnel (v.tunnelTo t.dest t.mac types) attrs) := by
  simp only [tunnel?] at h
  simp only [want]
  cases hd : σ.direction <;> rw [hd] at h <;> dsimp only at h ⊢
  · cases h
  · obtain ⟨x, hx, hl⟩ := Option.bind_eq_some_iff.mp h
    rw [View.leakedInet_eq ht, hx]
    exact View.mirror_of_leakedTunnel? hl
  · obtain ⟨s, hs, rfl⟩ := Option.map_eq_some_iff.mp h
    rw [View.leakedEvpn_eq ht, hs]
    exact ⟨_, _, rfl⟩

/-- A path that is as decided leads to the tunnel's destination, with the address that is known. -/
theorem hop_of_idle {v : View} (ht : v.tables.Proper) {σ : Duty} (hi : σ.Idle v) {t : Tunnel}
    (h : σ.tunnel? v = some t) :
    ∃ x types, σ.found v = some x ∧ x.hop = .tunnel (v.tunnelTo t.dest t.mac types) := by
  obtain ⟨types, attrs, hw⟩ := want_of_tunnel? ht h
  simp only [Idle] at hi
  rw [hw] at hi
  cases hf : σ.found v with
  | none =>
    rw [hf] at hi
    exact hi.elim
  | some x =>
    rw [hf] at hi
    exact ⟨x, types, rfl, hi.1⟩

end Duty

end VxlanRouting
