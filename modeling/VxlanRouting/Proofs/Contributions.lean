import VxlanRouting.Proofs.Change
import VxlanRouting.Proofs.PathHistory

/-!
What each source adds to the members of a composite. The members of a list of sources are those of
the sources one by one, and a source that is no prefix adds nothing. One that is a prefix adds what
the export of exactly this prefix stands for; if that is nothing, it adds the interfaces of the
first VRF, among the one asked for and the bridges of its router, behind whose route a machine
speaks BGP.
-/
namespace VxlanRouting

namespace Route

theorem Least.unique {l : List Path} {f : Path → Prop} {x y : Path} (hx : Least l f (.some x))
    (hy : Least l f (.some y)) : x = y := by
  cases hx with
  | some hx hfx hbx =>
    cases hy with
    | some hy hfy hby =>
      by_cases he : x = y
      · exact he
      · exact absurd (hby x hx hfx he) (Path.before_asymm (hbx y hy hfy (Ne.symm he)))

/-- On ranked paths, the search for a kind finds the best path of the kind. -/
theorem Ranked.find?_eq_some_iff {l : List Path} (h : Ranked l) {f : Path → Prop}
    [DecidablePred f] {x : Path} : (l.find? fun y => f y) = some x ↔ Least l f (some x) := by
  have hleast := h.least_find? f
  constructor
  · intro hx
    rwa [hx] at hleast
  · intro hx
    cases hfound : l.find? fun y => decide (f y) with
    | none =>
      rw [hfound] at hleast
      cases hleast with
      | none hnone =>
        cases hx with
        | some hmem hf => exact absurd hf (hnone x hmem)
    | some y =>
      rw [hfound] at hleast
      exact congrArg some (hleast.unique hx)

end Route

/-- The path is the best one of a kind of peer on the route to exactly this prefix. A prefix with
bits that do not count has no route. -/
def Tables.Binds (db : Tables) (vrf : String) (t : TableKind) (s : Prefix) (k : PeerKind)
    (x : Path) : Prop :=
  s.Canonical ∧
    Route.Least (db.paths vrf (.ofPrefix t s)) (fun y => y.peer.kind = k) (some x)

theorem Tables.Proper.binds_iff {db : Tables} (h : db.Proper) {vrf : String} {t : TableKind}
    {s : Prefix} {k : PeerKind} {x : Path} :
    ((db.locate? vrf t s.address s.length).bind fun r => r.findKind? k) = some x ↔
      db.Binds vrf t s k x := by
  rw [h.locate?_findKind?, Option.ite_none_right_eq_some]
  exact and_congr_right fun _ => (h.ranked vrf (.ofPrefix t s)).find?_eq_some_iff

/-- The members that an exported next-hop stands for: itself, or each of its live members. -/
inductive NextHop.StandsFor : NextHop → List MemberKey → Prop
  | interface (name : String) (label : Nat) (policy : Bool) :
      StandsFor (.interface name label policy) [⟨label, .interface name policy⟩]
  | composite (kind : CompositeKind) (keys : List MemberKey) (slots : List Slot) :
      StandsFor (.composite kind keys slots)
        ((slots.filterMap Slot.member?).map LiveMember.toKey)

namespace View

/-- The interfaces, without label, of a next-hop that leads to a session. -/
inductive Speaks (v : View) : NextHop → List MemberKey → Prop
  | interface {h : NextHop} : v.tables.IsSessionInterface h → Speaks v h [⟨noLabel, h.key⟩]
  | composite {h : NextHop} {ms : List LiveMember} : h.live? = some ms →
      (∃ m ∈ ms, v.tables.IsSessionInterface m.hop) →
      Speaks v h ((ms.filter (·.hop.isInterface)).map fun m => ⟨noLabel, m.hop.key⟩)

/-- The export of a source in a table of a VRF stands for these members. -/
def ExportFor (v : View) (vrf : String) (t : TableKind) (s : Prefix) (ms : List MemberKey) :
    Prop :=
  ∃ x, v.tables.Binds vrf t s .localExport x ∧ x.hop.StandsFor ms

/-- There is no export of a source, or it stands for no members. -/
def Unexported (v : View) (vrf : String) (t : TableKind) (s : Prefix) : Prop :=
  ∀ x, v.tables.Binds vrf t s .localExport x → x.hop.StandsFor []

/-- A machine that speaks BGP has the source in the VRF, behind these interfaces. -/
def SessionFor (v : View) (vrf : String) (s : Prefix) (ms : List MemberKey) : Prop :=
  ∃ x, v.tables.Binds vrf .inet s .localVm x ∧ v.Speaks x.hop ms

/-- The VRFs that are searched for sessions: the one asked for, then the bridges of its router in
the order in which they were attached. -/
def searched (v : View) (vrf : String) : List String := vrf :: (v.routers.bridgesOf vrf).map (·.2)

/-- What a source adds to the members. -/
inductive Contributes (v : View) (vrf : String) (t : TableKind) (s : Prefix) :
    List MemberKey → Prop
  | exported {ms : List MemberKey} : v.ExportFor vrf t s ms → ms ≠ [] → Contributes v vrf t s ms
  | session {before behind : List String} {c : String} {ms : List MemberKey} :
      v.Unexported vrf t s → v.searched vrf = before ++ c :: behind →
      (∀ b ∈ before, ∀ ms, ¬ v.SessionFor b s ms) → v.SessionFor c s ms →
      Contributes v vrf t s ms
  | nothing : v.Unexported vrf t s → (∀ c ∈ v.searched vrf, ∀ ms, ¬ v.SessionFor c s ms) →
      Contributes v vrf t s []

theorem sessionHopMembers?_eq_some_iff {v : View} {h : NextHop} {ms : List MemberKey} :
    v.sessionHopMembers? h = some ms ↔ v.Speaks h ms := by
  have hlive : v.tables.IsSessionInterface h → h.live? = none := by
    intro hi
    cases h with
    | composite _ _ _ => exact hi.elim
    | _ => rfl
  simp only [sessionHopMembers?]
  split
  · next hi =>
    constructor
    · rintro ⟨⟩
      exact .interface hi
    · intro hs
      cases hs with
      | interface _ => rfl
      | composite hl _ =>
        rw [hlive hi] at hl
        cases hl
  · next hi =>
    split
    · next hc =>
      rw [Option.map_eq_some_iff]
      constructor
      · rintro ⟨live, hl, rfl⟩
        obtain ⟨live', hl', hc⟩ := hc
        rw [Option.mem_def, hl] at hl'
        cases hl'
        exact .composite hl hc
      · intro hs
        cases hs with
        | interface hi' => exact absurd hi' hi
        | composite hl _ => exact ⟨_, hl, rfl⟩
    · next hc =>
      refine iff_of_false (Option.some_ne_none ms).symm fun hs => ?_
      cases hs with
      | interface hi' => exact hi hi'
      | composite hl hs => exact hc ⟨_, hl, hs⟩

section

variable {v : View} (hv : v.tables.Proper) {vrf : String} {t : TableKind} {s : Prefix}
  {ms : List MemberKey}

include hv

theorem sessionAt_eq_some_iff :
    (v.localHop? vrf s).bind v.sessionHopMembers? = some ms ↔ v.SessionFor vrf s ms := by
  simp only [localHop?, SessionFor]
  rw [Option.bind_eq_some_iff]
  simp only [Option.map_eq_some_iff]
  constructor
  · rintro ⟨_, ⟨x, hx, rfl⟩, hms⟩
    exact ⟨x, hv.binds_iff.mp hx, sessionHopMembers?_eq_some_iff.mp hms⟩
  · rintro ⟨x, hx, hms⟩
    exact ⟨_, ⟨x, hv.binds_iff.mpr hx, rfl⟩, sessionHopMembers?_eq_some_iff.mpr hms⟩

theorem sessionAt_eq_none_iff :
    (v.localHop? vrf s).bind v.sessionHopMembers? = none ↔ ∀ ms, ¬ v.SessionFor vrf s ms := by
  rw [Option.eq_none_iff_forall_ne_some]
  exact forall_congr' fun ms => not_congr (sessionAt_eq_some_iff hv)

/-- The search for sessions ends at the first VRF that has one. -/
theorem sessionMembers_eq_iff : v.sessionMembers vrf s = ms ↔
    (∃ before c behind, v.searched vrf = before ++ c :: behind ∧
      (∀ b ∈ before, ∀ ms, ¬ v.SessionFor b s ms) ∧ v.SessionFor c s ms) ∨
    ((∀ c ∈ v.searched vrf, ∀ ms, ¬ v.SessionFor c s ms) ∧ ms = []) := by
  have hsearch : v.sessionMembers vrf s = ((v.searched vrf).findSome? fun c =>
      (v.localHop? c s).bind v.sessionHopMembers?).getD [] := rfl
  rw [hsearch]
  constructor
  · rintro rfl
    cases hf : (v.searched vrf).findSome? fun c => (v.localHop? c s).bind v.sessionHopMembers? with
    | none =>
      refine .inr ⟨fun c hc => (sessionAt_eq_none_iff hv).mp ?_, rfl⟩
      exact List.findSome?_eq_none_iff.mp hf c hc
    | some ms =>
      obtain ⟨before, c, behind, hs, hc, hb⟩ := List.findSome?_eq_some_iff.mp hf
      exact .inl ⟨before, c, behind, hs, fun b hmem => (sessionAt_eq_none_iff hv).mp (hb b hmem),
        (sessionAt_eq_some_iff hv).mp hc⟩
  · rintro (⟨before, c, behind, hs, hb, hc⟩ | ⟨hnone, rfl⟩)
    · have hfirst : ∀ b ∈ before, (v.localHop? b s).bind v.sessionHopMembers? = none :=
        fun b hmem => (sessionAt_eq_none_iff hv).mpr (hb b hmem)
      rw [List.findSome?_eq_some_iff.mpr ⟨before, c, behind, hs,
        (sessionAt_eq_some_iff hv).mpr hc, hfirst⟩]
      rfl
    · rw [List.findSome?_eq_none_iff.mpr fun c hc => (sessionAt_eq_none_iff hv).mpr (hnone c hc)]
      rfl

/-- The members of an export are those that it stands for; without one there are none. -/
theorem exportMembers_eq_ok_iff : v.exportMembers vrf t s = .ok ms ↔
    v.ExportFor vrf t s ms ∨ ((∀ x, ¬ v.tables.Binds vrf t s .localExport x) ∧ ms = []) := by
  simp only [exportMembers, ExportFor, ← hv.binds_iff]
  cases (v.tables.locate? vrf t s.address s.length).bind fun r => r.findKind? .localExport with
  | none =>
    constructor
    · rintro ⟨⟩
      exact .inr ⟨fun _ => (Option.some_ne_none _).symm, rfl⟩
    · rintro (⟨x, hx, _⟩ | ⟨_, rfl⟩)
      · cases hx
      · rfl
  | some x =>
    obtain ⟨peer, hop, attrs⟩ := x
    dsimp only
    constructor
    · intro h
      refine .inl ⟨_, rfl, ?_⟩
      cases hop with
      | interface name label policy => cases h; exact .interface name label policy
      | composite kind keys slots => cases h; exact .composite kind keys slots
      | _ => cases h
    · rintro (⟨y, hy, hs⟩ | ⟨hn, _⟩)
      · cases hy
        cases hs <;> rfl
      · exact absurd rfl (hn _)

theorem exportMembers_eq_nil_iff :
    v.exportMembers vrf t s = .ok [] ↔ v.Unexported vrf t s := by
  rw [exportMembers_eq_ok_iff hv]
  constructor
  · rintro (⟨x, hx, hs⟩ | ⟨hn, _⟩) y hy
    · rwa [← hx.2.unique hy.2]
    · exact absurd hy (hn y)
  · intro h
    by_cases hx : ∃ x, v.tables.Binds vrf t s .localExport x
    · obtain ⟨x, hx⟩ := hx
      exact .inl ⟨x, hx, h x hx⟩
    · exact .inr ⟨not_exists.mp hx, rfl⟩

theorem sourceMembers_eq_ok_iff :
    v.sourceMembers vrf t s = .ok ms ↔ v.Contributes vrf t s ms := by
  have hnil : v.exportMembers vrf t s = .ok [] ↔ v.Unexported vrf t s :=
    exportMembers_eq_nil_iff hv
  constructor
  · intro h
    simp only [sourceMembers] at h
    split at h
    · cases h
    · next he =>
      have hun := hnil.mp he
      rcases (sessionMembers_eq_iff hv).mp (Except.ok.inj h) with
        ⟨before, c, behind, hs, hb, hc⟩ | ⟨hnone, rfl⟩
      · exact .session hun hs hb hc
      · exact .nothing hun hnone
    · next ms' hne he =>
      cases h
      rcases (exportMembers_eq_ok_iff hv).mp he with hexp | ⟨_, rfl⟩
      · exact .exported hexp (by rintro rfl; exact hne rfl)
      · exact absurd rfl hne
  · have hsession (hun : v.Unexported vrf t s) :
        v.sourceMembers vrf t s = .ok (v.sessionMembers vrf s) := by
      simp only [sourceMembers]
      rw [hnil.mpr hun]
    intro h
    cases h with
    | exported hexp hne =>
      simp only [sourceMembers]
      rw [(exportMembers_eq_ok_iff hv).mpr (.inl hexp)]
      cases ms with
      | nil => exact absurd rfl hne
      | cons m ms => rfl
    | session hun hs hb hc =>
      rw [hsession hun, (sessionMembers_eq_iff hv).mpr (.inl ⟨_, _, _, hs, hb, hc⟩)]
    | nothing hun hnone =>
      rw [hsession hun, (sessionMembers_eq_iff hv).mpr (.inr ⟨hnone, rfl⟩)]

end

/-- The members of a source and of all that come after it. -/
theorem prefixMembers_cons_eq_ok_iff {v : View} {vrf : String} {t : TableKind} {s : Prefix}
    {ss : List Prefix} {ls : List MemberKey} : v.prefixMembers vrf t (s :: ss) = .ok ls ↔
      ∃ ms rest, v.sourceMembers vrf t s = .ok ms ∧ v.prefixMembers vrf t ss = .ok rest ∧
        ls = ms ++ rest := by
  simp only [prefixMembers]
  cases v.sourceMembers vrf t s with
  | error f => simp
  | ok ms =>
    cases v.prefixMembers vrf t ss with
    | error f => simp
    | ok rest => simp [eq_comm]

theorem prefixMembers_append_eq_ok_iff {v : View} {vrf : String} {t : TableKind}
    {ss ss' : List Prefix} {ls : List MemberKey} :
    v.prefixMembers vrf t (ss ++ ss') = .ok ls ↔
      ∃ ms ms', v.prefixMembers vrf t ss = .ok ms ∧ v.prefixMembers vrf t ss' = .ok ms' ∧
        ls = ms ++ ms' := by
  induction ss generalizing ls with
  | nil =>
    constructor
    · exact fun h => ⟨[], ls, rfl, h, rfl⟩
    · rintro ⟨_, _, ⟨⟩, h, rfl⟩
      exact h
  | cons s ss ih =>
    rw [List.cons_append, prefixMembers_cons_eq_ok_iff]
    constructor
    · rintro ⟨ms, rest, hs, hrest, rfl⟩
      obtain ⟨ms₁, ms₂, h₁, h₂, rfl⟩ := ih.mp hrest
      refine ⟨ms ++ ms₁, ms₂, ?_, h₂, (List.append_assoc _ _ _).symm⟩
      exact prefixMembers_cons_eq_ok_iff.mpr ⟨ms, ms₁, hs, h₁, rfl⟩
    · rintro ⟨_, ms', h, h', rfl⟩
      obtain ⟨ms, rest, hs, hrest, rfl⟩ := prefixMembers_cons_eq_ok_iff.mp h
      exact ⟨ms, rest ++ ms', hs, ih.mpr ⟨rest, ms', hrest, h', rfl⟩, List.append_assoc _ _ _⟩

theorem prefixMembers_singleton (v : View) (vrf : String) (t : TableKind) (s : Prefix) :
    v.prefixMembers vrf t [s] = v.sourceMembers vrf t s := by
  simp only [prefixMembers]
  cases v.sourceMembers vrf t s with
  | error f => rfl
  | ok ms => simp

theorem members_singleton {v : View} {vrf : String} {t : TableKind} {s : String} {p : Prefix}
    (h : Prefix.ofSource s.toList = .ok p) : v.members vrf t [s] = v.sourceMembers vrf t p := by
  simp only [members]
  rw [List.filterMap_cons_some (by rw [h]; rfl), List.filterMap_nil, prefixMembers_singleton]

/-- The members of sources are built source by source: those of one list after another are those of
the first and then those of the second, and a source that is no prefix adds none. In tables that
requests have filled, a source that is a prefix adds the members of its export if there are any, and
else those of the first VRF with a session for it. -/
theorem members_source_by_source (v : View) (vrf : String) (t : TableKind) :
    (∀ l l' ms, v.members vrf t (l ++ l') = .ok ms ↔
      ∃ ms₁ ms₂, v.members vrf t l = .ok ms₁ ∧ v.members vrf t l' = .ok ms₂ ∧ ms = ms₁ ++ ms₂) ∧
      (∀ s e, Prefix.ofSource s.toList = .error e → v.members vrf t [s] = .ok []) ∧
      (v.tables.Filled → ∀ s p, Prefix.ofSource s.toList = .ok p →
        ∀ ms, v.members vrf t [s] = .ok ms ↔ v.Contributes vrf t p ms) := by
  refine ⟨fun l l' ms => ?_, fun s e he => ?_, fun ht s p hp ms => ?_⟩
  · simp only [members]
    rw [List.filterMap_append]
    exact prefixMembers_append_eq_ok_iff
  · simp only [members]
    rw [List.filterMap_cons_none (by rw [he]; rfl)]
    rfl
  · rw [members_singleton hp]
    exact sourceMembers_eq_ok_iff ht.proper

end View

namespace Sample

def speakerAddress : Address := ⟨.v4, 0x0a010105, by decide⟩

/-- The interface of a machine that speaks BGP. -/
def speaker : Interface := ⟨"tap", .vm { primaryV4 := some speakerAddress }, 3⟩

/-- The network of the machine, not exported. -/
def speaking : View where
  params := params
  routers := routers
  tables := { (({ vrfs with interfaces := ⟨[("tap", speaker)]⟩ } : Tables).apply install).1 with
    sessions := ⟨[⟨"tap", speakerAddress⟩]⟩ }

theorem filled_speaking : speaking.tables.Filled :=
  .setSessions _ ((filled_vrfs.setInterfaces _).apply install)

end Sample

namespace View

/-- In the routing VRF, the machine's network stands for its interface; a text that is no prefix
does not matter. -/
theorem members_source_by_source_speaking :
    Sample.speaking.members "routing" .evpn ["10.1.1.0/24", "garbage"] =
      .ok [⟨noLabel, .interface "tap" false⟩] := by
  obtain ⟨happend, hbad, hgood⟩ := members_source_by_source Sample.speaking "routing" .evpn
  have hunexported : Sample.speaking.Unexported "routing" .evpn Sample.subnet := by
    rintro x ⟨_, hx⟩
    cases hx with
    | some hmem => cases hmem
  have hrouting : ∀ ms, ¬ Sample.speaking.SessionFor "routing" Sample.subnet ms := by
    rintro ms ⟨x, ⟨_, hx⟩, _⟩
    cases hx with
    | some hmem => cases hmem
  have hbridge : Sample.speaking.SessionFor "bridge" Sample.subnet
      [⟨noLabel, .interface "tap" false⟩] := by
    refine ⟨⟨⟨"machine", .localVm⟩, .interface "tap" 3 false, {}⟩, ⟨by decide, ?_⟩,
      .interface (by decide)⟩
    refine .some (by decide +kernel) rfl fun y hy _ hne => absurd ?_ hne
    have hpaths : Sample.speaking.tables.paths "bridge" (.inet Sample.subnet) =
        [⟨⟨"machine", .localVm⟩, .interface "tap" 3 false, {}⟩] := by decide +kernel
    rw [RouteKey.ofPrefix, hpaths] at hy
    exact List.mem_singleton.mp hy
  have hnet : Sample.speaking.members "routing" .evpn ["10.1.1.0/24"] =
      .ok [⟨noLabel, .interface "tap" false⟩] := by
    refine (hgood Sample.filled_speaking _ Sample.subnet (by rfl) _).mpr ?_
    have hsearched : Sample.speaking.searched "routing" = ["routing"] ++ "bridge" :: [] := rfl
    refine .session hunexported hsearched (fun b hb => ?_) hbridge
    rw [List.mem_singleton.mp hb]
    exact hrouting
  exact (happend ["10.1.1.0/24"] ["garbage"] _).mpr
    ⟨_, [], hnet, hbad "garbage" (.unknownFamily "garbage") (by rfl), rfl⟩

end View

end VxlanRouting
