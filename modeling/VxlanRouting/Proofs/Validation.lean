import VxlanRouting.Proofs.Coverage
import VxlanRouting.Proofs.Decision
import VxlanRouting.Proofs.Refusals
import VxlanRouting.Proofs.SourceText

/-!
Sound configurations. The checks come one after the other and the first that fails is reported: the
router identifier, the names in their order, and last the names of the two peers, of which either
may be the default. A configuration that passes all of them gives the parameters that it states,
with the defaults for the rest, and under these the two peers of the engine can be told from each
other, from machines and from control nodes.
-/
namespace VxlanRouting

open Text

/-- Nothing is left of a text that shows nothing, and of no other. -/
theorem Text.trim_eq_nil_iff {s : List Char} : trim s = [] ↔ ∀ c ∈ s, isBlank c = true := by
  constructor
  · intro h
    obtain ⟨before, after, hb, ha, hs⟩ := exists_trim s
    rw [h, List.append_nil] at hs
    rw [hs]
    exact fun c hc => (List.mem_append.mp hc).elim (hb c) (ha c)
  · intro h
    have htrim : trim (s ++ [] ++ []) = [] :=
      trim_append h (List.forall_mem_nil _) (List.forall_mem_nil _)
    rwa [List.append_nil, List.append_nil] at htrim

theorem Text.not_isBlankText {s : String} (c : Char) (hm : c ∈ s.toList)
    (hc : isBlank c = false) : ¬ IsBlankText s := by
  intro h
  rw [h c hm] at hc
  cases hc

/-! ### Router identifiers -/

namespace Address

/-- The network of the group addresses of a family: 224.0.0.0/4 or ff00::/8. -/
def groupNetwork : Family → Prefix
  | .v4 => ⟨⟨.v4, 0xe0000000, by decide⟩, 4, by decide⟩
  | .v6 => ⟨⟨.v6, 0xff000000000000000000000000000000, by decide⟩, 8, by decide⟩

theorem isMulticast_iff (a : Address) : a.IsMulticast ↔ (groupNetwork a.family).Covers a := by
  obtain ⟨f, n, hn⟩ := a
  rw [Prefix.covers_iff_spans, Prefix.Spans]
  cases f with
  | v4 =>
    have hfirst : (groupNetwork .v4).network.value = 0xe0000000 := by decide +kernel
    have hlast : (groupNetwork .v4).last.value = 0xefffffff := by decide +kernel
    simp only [IsMulticast, hfirst, hlast, Nat.shiftRight_eq_div_pow]
    exact ⟨fun h => ⟨rfl, by omega⟩, fun h => by omega⟩
  | v6 =>
    have hfirst : (groupNetwork .v6).network.value = 0xff000000000000000000000000000000 := by
      decide +kernel
    have hlast : (groupNetwork .v6).last.value = 0xffffffffffffffffffffffffffffffff := by
      decide +kernel
    simp only [IsMulticast, hfirst, hlast, Nat.shiftRight_eq_div_pow]
    exact ⟨fun h => ⟨rfl, by omega⟩, fun h => by omega⟩

/-- The address is one that a router may have: some bit is set, and it is no group's. -/
def IsSingle (a : Address) : Prop := a.value ≠ 0 ∧ ¬ (groupNetwork a.family).Covers a

theorem isSingle_iff {a : Address} :
    a.IsSingle ↔ ¬ (a = .unspecified a.family ∨ a.IsMulticast) := by
  have hclear : a = .unspecified a.family ↔ a.value = 0 :=
    ⟨fun h => congrArg Address.value h, fun h => ext_value rfl h⟩
  rw [IsSingle, not_or, hclear, isMulticast_iff]

end Address

/-! ### Names -/

/-- The place of a name in the order of the checks. -/
def ConfigName.rank : ConfigName → Nat
  | .fabricVrf => 0
  | .exportPeer => 1
  | .leakPeer => 2

namespace Config

/-- A name, if it is given. -/
def given (c : Config) : ConfigName → Option String
  | .fabricVrf => c.fabricVrf
  | .exportPeer => c.exportPeerName
  | .leakPeer => c.leakPeerName

/-- The name is given and shows nothing. -/
def BlankAt (c : Config) (n : ConfigName) : Prop := ∃ s ∈ c.given n, IsBlankText s

instance (c : Config) (n : ConfigName) : Decidable (c.BlankAt n) :=
  decidable_of_iff ((c.given n).any (fun s => decide (IsBlankText s)) = true)
    (by simp [BlankAt, Option.any_eq_true, Option.mem_def])

theorem not_blankAt {c : Config} {n : ConfigName} (h : c.given n = none) : ¬ c.BlankAt n := by
  simp [BlankAt, h]

theorem blankAt_iff {c : Config} {n : ConfigName} {s : String} (h : c.given n = some s) :
    c.BlankAt n ↔ IsBlankText s := by
  simp [BlankAt, h]

theorem blankName?_eq_ite (c : Config) : c.blankName? =
    if c.BlankAt .fabricVrf then some .fabricVrf
    else if c.BlankAt .exportPeer then some .exportPeer
    else if c.BlankAt .leakPeer then some .leakPeer
    else none := by
  have hblank (n : ConfigName) :
      (c.given n).any (fun s => decide (IsBlankText s)) = decide (c.BlankAt n) := by
    rw [Bool.eq_iff_iff]
    simp [BlankAt, Option.any_eq_true, Option.mem_def]
  have hall : c.blankName? = (([.fabricVrf, .exportPeer, .leakPeer].map fun n =>
      (n, c.given n)).find? fun e => e.2.any fun s => decide (IsBlankText s)).map (·.1) := rfl
  rw [hall, List.find?_map, Option.map_map]
  simp only [Function.comp_def, List.find?_cons, List.find?_nil, hblank]
  by_cases h₁ : c.BlankAt .fabricVrf
  · simp [h₁]
  · by_cases h₂ : c.BlankAt .exportPeer
    · simp [h₁, h₂]
    · by_cases h₃ : c.BlankAt .leakPeer <;> simp [h₁, h₂, h₃]

theorem blankName?_eq_none_iff {c : Config} : c.blankName? = none ↔ ∀ n, ¬ c.BlankAt n := by
  rw [blankName?_eq_ite]
  constructor
  · intro h n
    split at h
    · cases h
    · split at h
      · cases h
      · split at h
        · cases h
        · cases n <;> assumption
  · intro h
    rw [if_neg (h _), if_neg (h _), if_neg (h _)]

theorem blankName?_eq_some_iff {c : Config} {n : ConfigName} : c.blankName? = some n ↔
    c.BlankAt n ∧ ∀ m : ConfigName, m.rank < n.rank → ¬ c.BlankAt m := by
  rw [blankName?_eq_ite]
  constructor
  · intro h
    split at h
    · next h₁ =>
      cases h
      exact ⟨h₁, fun m hm => absurd hm (Nat.not_lt_zero _)⟩
    · next h₁ =>
      split at h
      · next h₂ =>
        cases h
        refine ⟨h₂, fun m hm => ?_⟩
        cases m <;> simp_all [ConfigName.rank]
      · next h₂ =>
        split at h
        · next h₃ =>
          cases h
          refine ⟨h₃, fun m hm => ?_⟩
          cases m <;> simp_all [ConfigName.rank]
        · cases h
  · rintro ⟨hn, hfirst⟩
    cases n with
    | fabricVrf => rw [if_pos hn]
    | exportPeer => rw [if_neg (hfirst .fabricVrf (by decide)), if_pos hn]
    | leakPeer =>
      rw [if_neg (hfirst .fabricVrf (by decide)), if_neg (hfirst .exportPeer (by decide)),
        if_pos hn]

/-- The name of the peer that owns what is exported. -/
def exportName (c : Config) : String := c.exportPeerName.getD Parameters.defaultExportPeer.name

/-- The name of the peer that owns what leaks. -/
def leakName (c : Config) : String := c.leakPeerName.getD Parameters.defaultLeakPeer.name

/-- What a configuration states, with the defaults for what it does not. -/
def stated (c : Config) : Parameters where
  routerId := c.routerId
  fabricVrf := c.fabricVrf.getD Parameters.defaultFabricVrf
  exportPeer := ⟨c.exportName, .localExport⟩
  leakPeer := ⟨c.leakName, .vxlanBgp⟩

/-- What a configuration states, before the defaults are filled in. -/
def draft (c : Config) : Parameters.Draft where
  routerId := some c.routerId
  fabricVrf := c.fabricVrf
  exportPeer := c.exportPeerName.map (⟨·, .localExport⟩)
  leakPeer := c.leakPeerName.map (⟨·, .vxlanBgp⟩)

theorem build_draft (c : Config) : c.draft.build = .ok c.stated := by
  obtain ⟨id, fabricVrf, exportName, leakName⟩ := c
  cases fabricVrf <;> cases exportName <;> cases leakName <;> rfl

/-- Why a configuration is refused. -/
inductive Refused (c : Config) : ConfigError → Prop
  | badRouterId (id : ¬ c.routerId.IsSingle) : Refused c (.badRouterId c.routerId)
  | blank {n : ConfigName} (id : c.routerId.IsSingle) (found : c.BlankAt n)
      (first : ∀ m : ConfigName, m.rank < n.rank → ¬ c.BlankAt m) : Refused c (.blank n)
  | sameNames (id : c.routerId.IsSingle) (shown : ∀ n, ¬ c.BlankAt n)
      (same : c.exportName = c.leakName) : Refused c .sameNames

/-- Why a configuration is sound. -/
structure Sound (c : Config) : Prop where
  id : c.routerId.IsSingle
  shown : ∀ n, ¬ c.BlankAt n
  apart : c.exportName ≠ c.leakName

theorem parameters_eq_error_iff {c : Config} {cause : ConfigError} :
    c.parameters = .error cause ↔ c.Refused cause := by
  simp only [parameters]
  constructor
  · intro h
    split at h
    · next hid =>
      cases h
      exact .badRouterId fun hs => Address.isSingle_iff.mp hs hid
    · next hid =>
      have hid := Address.isSingle_iff.mpr hid
      split at h
      · next n hn =>
        cases h
        obtain ⟨hn, hfirst⟩ := blankName?_eq_some_iff.mp hn
        exact .blank hid hn hfirst
      · next hn =>
        split at h
        · next hs =>
          cases h
          exact .sameNames hid (blankName?_eq_none_iff.mp hn) hs
        · cases h
  · intro h
    cases h with
    | badRouterId hid => rw [if_pos (Classical.not_not.mp (mt Address.isSingle_iff.mpr hid))]
    | blank hid hn hfirst =>
      rw [if_neg (Address.isSingle_iff.mp hid), blankName?_eq_some_iff.mpr ⟨hn, hfirst⟩]
    | sameNames hid hn hs =>
      rw [if_neg (Address.isSingle_iff.mp hid), blankName?_eq_none_iff.mpr hn]
      exact if_pos hs

theorem parameters_eq_ok_iff {c : Config} {p : Parameters} :
    c.parameters = .ok p ↔ c.Sound ∧ p = c.stated := by
  simp only [parameters]
  constructor
  · intro h
    split at h
    · cases h
    · next hid =>
      split at h
      · cases h
      · next hn =>
        split at h
        · cases h
        · next hs =>
          cases h
          exact ⟨⟨Address.isSingle_iff.mpr hid, blankName?_eq_none_iff.mp hn, hs⟩, rfl⟩
  · rintro ⟨hc, rfl⟩
    rw [if_neg (Address.isSingle_iff.mp hc.id), blankName?_eq_none_iff.mpr hc.shown]
    exact if_neg hc.apart

end Config

/-! ### The checks as they are made -/

namespace Steps

/-- Refuses a name that is blank; one that is not given is not looked at. -/
def checked (n : ConfigName) (given : Option String) : Except String (Option String) :=
  match given with
  | none => .ok none
  | some s => if trim s.toList = [] then .error (ConfigError.blank n).message else .ok (some s)

/-- Fills the defaults in, and compares the names of the peers. -/
def complete (d : Parameters.Draft) : Except String Parameters :=
  match d.build with
  | .error cause => .error ("Invalid configuration: " ++ cause.message)
  | .ok p =>
    if p.exportPeer.name = p.leakPeer.name then .error ConfigError.sameNames.message else .ok p

/-- The parameters of a configuration, check by check. -/
def parameters (c : Config) : Except String Parameters := do
  if c.routerId = .unspecified c.routerId.family ∨ c.routerId.IsMulticast then
    throw (ConfigError.badRouterId c.routerId).message
  let fabricVrf ← checked .fabricVrf c.fabricVrf
  let exportName ← checked .exportPeer c.exportPeerName
  let leakName ← checked .leakPeer c.leakPeerName
  complete {
    routerId := some c.routerId
    fabricVrf
    exportPeer := exportName.map (⟨·, .localExport⟩)
    leakPeer := leakName.map (⟨·, .vxlanBgp⟩) }

theorem checked_given (c : Config) (n : ConfigName) : checked n (c.given n) =
    if c.BlankAt n then .error (ConfigError.blank n).message else .ok (c.given n) := by
  cases hg : c.given n with
  | none =>
    rw [if_neg (Config.not_blankAt hg)]
    rfl
  | some s =>
    have hblank : trim s.toList = [] ↔ c.BlankAt n :=
      trim_eq_nil_iff.trans (Config.blankAt_iff hg).symm
    simp only [checked, hblank]

/-- Check by check, the same configurations are refused for the same reasons. -/
theorem parameters_eq (c : Config) :
    Steps.parameters c = c.parameters.mapError ConfigError.message := by
  have hf : checked .fabricVrf c.fabricVrf = _ := checked_given c .fabricVrf
  have he : checked .exportPeer c.exportPeerName = _ := checked_given c .exportPeer
  have hl : checked .leakPeer c.leakPeerName = _ := checked_given c .leakPeer
  have hcomplete : complete c.draft =
      if c.exportName = c.leakName then .error ConfigError.sameNames.message
      else .ok c.stated := by
    simp only [complete, c.build_draft]
    rfl
  simp only [Steps.parameters, hf, he, hl]
  cases hr : c.parameters with
  | error cause =>
    cases Config.parameters_eq_error_iff.mp hr with
    | badRouterId hid =>
      rw [if_pos (Classical.not_not.mp (mt Address.isSingle_iff.mpr hid))]
      rfl
    | @blank n hid hn hfirst =>
      rw [if_neg (Address.isSingle_iff.mp hid)]
      cases n with
      | fabricVrf =>
        rw [if_pos hn]
        rfl
      | exportPeer =>
        rw [if_neg (hfirst .fabricVrf (by decide)), if_pos hn]
        rfl
      | leakPeer =>
        rw [if_neg (hfirst .fabricVrf (by decide)), if_neg (hfirst .exportPeer (by decide)),
          if_pos hn]
        rfl
    | sameNames hid hn hs =>
      rw [if_neg (Address.isSingle_iff.mp hid), if_neg (hn _), if_neg (hn _), if_neg (hn _)]
      rw [if_pos hs] at hcomplete
      exact hcomplete
  | ok p =>
    obtain ⟨hc, rfl⟩ := Config.parameters_eq_ok_iff.mp hr
    rw [if_neg (Address.isSingle_iff.mp hc.id), if_neg (hc.shown _), if_neg (hc.shown _),
      if_neg (hc.shown _)]
    rw [if_neg hc.apart] at hcomplete
    exact hcomplete

end Steps

/-- The parameters that configurations give are those of a router that one host may have, with names
that show something and two peers of different names and of the engine's own kinds. -/
theorem Parameters.fromConfig_iff {p : Parameters} : p.FromConfig ↔
    p.routerId.IsSingle ∧ ¬ IsBlankText p.fabricVrf ∧ ¬ IsBlankText p.exportPeer.name ∧
      ¬ IsBlankText p.leakPeer.name ∧ p.exportPeer.name ≠ p.leakPeer.name ∧
      p.exportPeer.kind = .localExport ∧ p.leakPeer.kind = .vxlanBgp := by
  constructor
  · rintro ⟨c, hc⟩
    obtain ⟨hs, rfl⟩ := Config.parameters_eq_ok_iff.mp hc
    -- A name is the one that is given, or a default.
    have hshown (n : ConfigName) (s : String) (hd : ¬ IsBlankText s) :
        ¬ IsBlankText ((c.given n).getD s) := by
      cases hg : c.given n with
      | none => exact hd
      | some t => exact mt (Config.blankAt_iff hg).mpr (hs.shown n)
    exact ⟨hs.id, hshown .fabricVrf _ (not_isBlankText 'd' (by decide) (by decide)),
      hshown .exportPeer _ (not_isBlankText 'r' (by decide) (by decide)),
      hshown .leakPeer _ (not_isBlankText 'r' (by decide) (by decide)), hs.apart, rfl, rfl⟩
  · rintro ⟨hid, hf, he, hl, hne, hek, hlk⟩
    obtain ⟨id, fabricVrf, ⟨exportName, _⟩, ⟨leakName, _⟩⟩ := p
    cases hek
    cases hlk
    let c : Config := ⟨id, some fabricVrf, some exportName, some leakName⟩
    refine ⟨c, Config.parameters_eq_ok_iff.mpr ⟨⟨hid, fun n => ?_, hne⟩, rfl⟩⟩
    cases n with
    | fabricVrf => exact mt (Config.blankAt_iff (c := c) rfl).mp hf
    | exportPeer => exact mt (Config.blankAt_iff (c := c) rfl).mp he
    | leakPeer => exact mt (Config.blankAt_iff (c := c) rfl).mp hl

/-- A configuration gives parameters exactly if its router identifier has a bit set and is no
group's, each name that it gives has a character that is not blank, and the two peers, by their own
names or the default ones, are not named alike. The parameters are then what it states, names as
they are given, with the defaults for the rest; the peers of the engine are two, and neither is a
machine or a control node. Made one after the other, the checks come to the same. -/
theorem Config.parameters_exact (c : Config) :
    ((∃ p, c.parameters = .ok p) ↔
      c.routerId.value ≠ 0 ∧ ¬ (Address.groupNetwork c.routerId.family).Covers c.routerId ∧
        (∀ n, ∀ s ∈ c.given n, ∃ x ∈ s.toList, isBlank x = false) ∧
        c.exportPeerName.getD "routing-vrf-interface-peer" ≠
          c.leakPeerName.getD "routing-vrf-vxlan-bgp-peer") ∧
    (∀ p, c.parameters = .ok p →
      p.routerId = c.routerId ∧
      p.fabricVrf = c.fabricVrf.getD "default-domain:default-project:ip-fabric:__default__" ∧
      p.exportPeer = ⟨c.exportPeerName.getD "routing-vrf-interface-peer", .localExport⟩ ∧
      p.leakPeer = ⟨c.leakPeerName.getD "routing-vrf-vxlan-bgp-peer", .vxlanBgp⟩ ∧
      p.exportPeer ≠ p.leakPeer ∧ ∀ x, p.Owns x → x.kind ≠ .bgp ∧ x.kind ≠ .localVm) ∧
    Steps.parameters c = c.parameters.mapError ConfigError.message := by
  have hshown : (∀ n, ¬ c.BlankAt n) ↔ ∀ n, ∀ s ∈ c.given n, ∃ x ∈ s.toList, isBlank x = false := by
    simp [Config.BlankAt, IsBlankText]
  refine ⟨?_, fun p hp => ?_, Steps.parameters_eq c⟩
  · rw [← hshown]
    constructor
    · rintro ⟨p, hp⟩
      obtain ⟨⟨hid, hn, hne⟩, _⟩ := Config.parameters_eq_ok_iff.mp hp
      exact ⟨hid.1, hid.2, hn, hne⟩
    · rintro ⟨hv, hg, hn, hne⟩
      exact ⟨_, Config.parameters_eq_ok_iff.mpr ⟨⟨⟨hv, hg⟩, hn, hne⟩, rfl⟩⟩
  · have hc : p.FromConfig := ⟨c, hp⟩
    have hne : p.exportPeer ≠ p.leakPeer := hc.peers_ne
    have hown (x : Peer) (hx : p.Owns x) : x.kind ≠ .bgp ∧ x.kind ≠ .localVm :=
      ⟨hc.ne_bgp_of_owns hx, hc.ne_localVm_of_owns hx⟩
    obtain ⟨_, rfl⟩ := Config.parameters_eq_ok_iff.mp hp
    exact ⟨rfl, rfl, rfl, rfl, hne, hown⟩

/-- Blanks around a name stay; a peer that takes the default name of the other is refused. -/
theorem Config.parameters_exact_padded :
    (∃ p, (⟨⟨.v6, 1, by decide⟩, some " underlay ", none, some "leaks"⟩ : Config).parameters =
      .ok p ∧ p.fabricVrf = " underlay " ∧ p.exportPeer.name = "routing-vrf-interface-peer") ∧
    ¬ ∃ p, (⟨⟨.v6, 1, by decide⟩, none, some "routing-vrf-vxlan-bgp-peer", none⟩ :
      Config).parameters = .ok p := by
  let c : Config := ⟨⟨.v6, 1, by decide⟩, some " underlay ", none, some "leaks"⟩
  obtain ⟨p, hp⟩ : ∃ p, c.parameters = .ok p := (parameters_exact c).1.mpr (by
    refine ⟨by decide, by decide +kernel, fun n s hs => ?_, by decide⟩
    cases n with
    | fabricVrf =>
      cases hs
      exact ⟨'u', by decide, by decide⟩
    | exportPeer => cases hs
    | leakPeer =>
      cases hs
      exact ⟨'l', by decide, by decide⟩)
  obtain ⟨_, hf, he, _⟩ := (parameters_exact c).2.1 p hp
  refine ⟨⟨p, hp, hf, by rw [he]; rfl⟩, fun h => ?_⟩
  exact ((parameters_exact _).1.mp h).2.2.2 rfl

end VxlanRouting
