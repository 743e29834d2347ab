import VxlanRouting.Proofs.Calls

/-!
Checks. Three places of the program take something for granted and end it if they are wrong: a
member on its own is an interface or a tunnel, an ECMP advertisement is of a composite, and an
exported path leads to an interface or a composite. Here every call is made with these checks in
all places. The first two never fail, because advertisements are made of members that are
interfaces or tunnels, so that a call with checks is the call. Only the third one depends on what
is installed.
-/
namespace VxlanRouting

/-- The key is an interface or a tunnel. -/
def NextHopKey.IsLeaf (k : NextHopKey) : Prop := k.hopKind = .interface ∨ k.hopKind = .tunnel

theorem NextHopKey.isLeaf_of_isInterface {k : NextHopKey} (h : k.isInterface) : k.IsLeaf :=
  .inl (by simpa [isInterface] using h)

/-- What the advertisement calls a composite is one. -/
def Advertisement.Composed : Advertisement → Prop
  | .ecmp composite _ => composite.members? ≠ none
  | .single _ _ | .tunnel _ _ => True

namespace View

theorem isLeaf_of_offers {v : View} {m : MemberKey} (h : v.Offers m) : m.key.IsLeaf := by
  rcases h with ⟨name, policy, hk, _⟩ | ⟨t, hk⟩
  · exact .inl (by rw [hk]; rfl)
  · exact .inr (by rw [hk]; rfl)

theorem composed_of_ofMembers {v : View} {ms : List MemberKey} {attrs : Attributes}
    {a : Advertisement} (h : v.ofMembers ms attrs = some a) : a.Composed := by
  simp only [ofMembers] at h
  split at h
  · cases h
  · cases h
    trivial
  · cases h
    trivial
  · cases h
    simp [Advertisement.Composed, NextHopKey.members?]

theorem composed_of_localAdvertisement {v : View} {hop : NextHop} {attrs : Attributes}
    {a : Advertisement} (h : v.localAdvertisement hop attrs = some a) : a.Composed := by
  rw [localAdvertisement_eq] at h
  exact composed_of_ofMembers h

theorem composed_of_mirror {v : View} {x : Path} {a : Advertisement} (h : v.mirror x = some a) :
    a.Composed := by
  simp only [mirror] at h
  split at h
  · cases h
    trivial
  · exact composed_of_ofMembers h
  · exact composed_of_localAdvertisement h

/-- The advertisement of members, with the check of a member on its own. -/
def checkedMembers (v : View) (ms : List MemberKey) (attrs : Attributes) :
    Except Fault (Option Advertisement) :=
  match ms with
  | [m] =>
    match m.key.hopKind with
    | .interface | .tunnel => .ok (v.ofMembers [m] attrs)
    | k => .error (.memberKind k)
  | ms => .ok (v.ofMembers ms attrs)

theorem checkedMembers_eq {v : View} {ms : List MemberKey} (h : ∀ m ∈ ms, m.key.IsLeaf)
    (attrs : Attributes) : v.checkedMembers ms attrs = .ok (v.ofMembers ms attrs) := by
  simp only [checkedMembers]
  split
  · next m =>
    rcases h m List.mem_cons_self with hk | hk <;> rw [hk]
  · rfl

/-- A route item goes through the same check. -/
theorem itemAdvertisement_eq (v : View) (vrf : String) (item : RouteItem) :
    v.itemAdvertisement vrf item =
      (v.itemMembers vrf item).bind fun ms => v.checkedMembers ms item.params.attrs := by
  simp only [itemAdvertisement]
  cases v.itemMembers vrf item with
  | error f => rfl
  | ok ms =>
    rcases ms with _ | ⟨m, _ | ⟨m', ms⟩⟩
    · rfl
    · rfl
    · rfl

def checkedLocal (v : View) (h : NextHop) (attrs : Attributes) :
    Except Fault (Option Advertisement) :=
  match h with
  | .composite _ _ slots => v.checkedMembers (v.usableMembers false slots) attrs
  | h => .ok (v.localAdvertisement h attrs)

theorem checkedLocal_eq (v : View) (h : NextHop) (attrs : Attributes) :
    v.checkedLocal h attrs = .ok (v.localAdvertisement h attrs) := by
  cases h with
  | composite kind keys slots =>
    exact checkedMembers_eq (fun m hm => isLeaf_of_offers (offers_of_mem_usableMembers hm)) attrs
  | _ => rfl

/-- The next-hop that is exported for a prefix, and the attributes that it gets. -/
def exportSource? (v : View) (vrf : String) (p : Prefix) : Option (NextHop × Attributes) := do
  let (vn, bridge) ← v.routers.origin? v.tables.vrfs vrf p.network p.length
  let r ← v.tables.locate? bridge .inet p.network p.length
  let x ← r.findKind? .localVm
  let routing ← v.tables.vrfs.get? vrf
  some (x.hop, { x.attrs with destVns := [vn], vni := routing.vni })

theorem exported_eq_bind (v : View) (vrf : String) (p : Prefix) :
    v.exported vrf p = (v.exportSource? vrf p).bind fun s => v.localAdvertisement s.1 s.2 := by
  simp only [exported, exportSource?, Option.bind_eq_bind, Option.bind_assoc, Option.bind_some]

def checkedExported (v : View) (vrf : String) (p : Prefix) : Except Fault (Option Advertisement) :=
  match v.exportSource? vrf p with
  | none => .ok none
  | some s => v.checkedLocal s.1 s.2

def checkedMirror (v : View) (x : Path) : Except Fault (Option Advertisement) :=
  match x.hop with
  | .composite _ _ slots => v.checkedMembers (v.usableMembers true slots) x.attrs
  | _ => .ok (v.mirror x)

theorem checkedMirror_eq (v : View) (x : Path) : v.checkedMirror x = .ok (v.mirror x) := by
  simp only [checkedMirror, mirror]
  cases x.hop with
  | composite kind keys slots =>
    exact checkedMembers_eq (fun m hm => isLeaf_of_offers (offers_of_mem_usableMembers hm)) _
  | _ => rfl

/-- The path that leaks into the Inet table of a routing VRF. -/
def leakSource? (v : View) (vrf : String) (p : Prefix) : Option Path := do
  let r ← v.tables.locate? vrf .evpn p.network p.length
  r.paths.find? fun x => decide (x.peer ≠ v.params.leakPeer)

theorem leakedInet_eq_bind (v : View) (vrf : String) (p : Prefix) :
    v.leakedInet vrf p = (v.leakSource? vrf p).bind v.mirror := by
  simp only [leakedInet, leakSource?, Option.bind_eq_bind, Option.bind_assoc]
  rfl

def checkedInet (v : View) (vrf : String) (p : Prefix) : Except Fault (Option Advertisement) :=
  match v.leakSource? vrf p with
  | none => .ok none
  | some x => v.checkedMirror x

end View

namespace Duty

/-- What is decided, with the check of a member on its own. -/
def checkedWant (v : View) (σ : Duty) : Except Fault (Option Advertisement) :=
  match σ.direction with
  | .fromBridges => v.checkedExported σ.vrf σ.dest
  | .toInet => v.checkedInet σ.vrf σ.dest
  | .toEvpn => .ok (v.leakedEvpn σ.vrf σ.dest)

theorem checkedWant_eq (v : View) (σ : Duty) : σ.checkedWant v = .ok (σ.want v) := by
  simp only [checkedWant, want]
  cases σ.direction with
  | fromBridges =>
    simp only [View.checkedExported]
    rw [View.exported_eq_bind]
    cases v.exportSource? σ.vrf σ.dest with
    | none => rfl
    | some s => exact v.checkedLocal_eq s.1 s.2
  | toInet =>
    simp only [View.checkedInet]
    rw [View.leakedInet_eq_bind]
    cases v.leakSource? σ.vrf σ.dest with
    | none => rfl
    | some x => exact v.checkedMirror_eq x
  | toEvpn => rfl

theorem composed_of_want {v : View} {σ : Duty} {a : Advertisement} (h : a ∈ σ.want v) :
    a.Composed := by
  rw [Option.mem_def] at h
  simp only [want] at h
  split at h
  · rw [View.exported_eq_bind] at h
    obtain ⟨s, _, h⟩ := Option.bind_eq_some_iff.mp h
    exact View.composed_of_localAdvertisement h
  · rw [View.leakedInet_eq_bind] at h
    obtain ⟨x, _, h⟩ := Option.bind_eq_some_iff.mp h
    exact View.composed_of_mirror h
  · simp only [View.leakedEvpn, Option.bind_eq_bind] at h
    obtain ⟨r, _, h⟩ := Option.bind_eq_some_iff.mp h
    obtain ⟨s, _, h⟩ := Option.bind_eq_some_iff.mp h
    cases h
    trivial

end Duty

namespace Engine

/-- Asks for an advertisement, with the check that an ECMP advertisement is of a composite. -/
def checkedInstall (e : Engine) (vrf : String) (k : RouteKey) (peer : Peer) (found : Option Path) :
    Advertisement → Except Fault Engine
  | .ecmp composite attrs =>
    match composite.members? with
    | none => .error .noComposite
    | some _ => .ok (e.install vrf k peer found (.ecmp composite attrs))
  | a => .ok (e.install vrf k peer found a)

def checkedSync (e : Engine) (vrf : String) (k : RouteKey) (peer : Peer)
    (want : Option Advertisement) : Except Fault Engine :=
  match e.tables.path? vrf k peer, want with
  | none, none => .ok e
  | some _, none => .ok (e.push ⟨vrf, k, peer, .withdraw⟩)
  | none, some a => e.checkedInstall vrf k peer none a
  | some x, some a => if a.Matches x then .ok e else e.checkedInstall vrf k peer (some x) a

theorem checkedInstall_eq (e : Engine) (vrf : String) (k : RouteKey) (peer : Peer)
    (found : Option Path) {a : Advertisement} (h : a.Composed) :
    e.checkedInstall vrf k peer found a = .ok (e.install vrf k peer found a) := by
  cases a with
  | ecmp composite attrs =>
    obtain ⟨ms, hms⟩ := Option.ne_none_iff_exists'.mp h
    simp only [checkedInstall]
    rw [hms]
  | _ => rfl

theorem checkedSync_eq (e : Engine) (vrf : String) (k : RouteKey) (peer : Peer)
    {want : Option Advertisement} (h : ∀ a ∈ want, a.Composed) :
    e.checkedSync vrf k peer want = .ok (e.sync vrf k peer want) := by
  simp only [checkedSync, sync]
  cases e.tables.path? vrf k peer with
  | none =>
    cases want with
    | none => rfl
    | some a => exact checkedInstall_eq e vrf k peer none (h a rfl)
  | some x =>
    cases want with
    | none => rfl
    | some a =>
      dsimp only
      split
      · rfl
      · exact checkedInstall_eq e vrf k peer (some x) (h a rfl)

def checkedFulfil (e : Engine) (σ : Duty) : Except Fault Engine := do
  e.checkedSync σ.vrf σ.key (σ.peer e.params) (← σ.checkedWant e.toView)

theorem checkedFulfil_eq (e : Engine) (σ : Duty) : e.checkedFulfil σ = .ok (e.fulfil σ) := by
  simp only [checkedFulfil, fulfil]
  rw [Duty.checkedWant_eq]
  exact checkedSync_eq e _ _ _ fun a ha => Duty.composed_of_want ha

def checkedExportFrom (e : Engine) (bridge : String) (p : Prefix) : Except Fault Engine :=
  match (e.tables.vrfs.get? bridge).bind e.routers.routingVrfOf? with
  | none => .ok e
  | some vrf => e.checkedFulfil ⟨.fromBridges, vrf, p⟩

def checkedNotify (e : Engine) (n : Notification) : Except Fault Engine :=
  match e.tables.vrfs.get? n.vrf with
  | none => .ok e
  | some v =>
    if e.routers.IsRouting v then
      match n.key with
      | .inet p => e.checkedFulfil ⟨.toEvpn, v.name, p⟩
      | .evpn k => if k.IsType5 then e.checkedFulfil ⟨.toInet, v.name, k.dest⟩ else .ok e
    else if e.routers.IsBridge v then
      match n.key with
      | .inet p => e.checkedExportFrom v.name p
      | .evpn _ => .ok e
    else .ok e

theorem checkedExportFrom_eq (e : Engine) (bridge : String) (p : Prefix) :
    e.checkedExportFrom bridge p = .ok (e.exportFrom bridge p) := by
  simp only [checkedExportFrom, exportFrom]
  cases (e.tables.vrfs.get? bridge).bind e.routers.routingVrfOf? with
  | none => rfl
  | some vrf => exact checkedFulfil_eq e _

theorem checkedNotify_eq (e : Engine) (n : Notification) :
    e.checkedNotify n = .ok (e.notify n) := by
  simp only [checkedNotify, notify]
  cases e.tables.vrfs.get? n.vrf with
  | none => rfl
  | some v =>
    dsimp only
    by_cases hr : e.routers.IsRouting v
    · rw [if_pos hr, if_pos hr]
      cases n.key with
      | inet p => exact checkedFulfil_eq e _
      | evpn k =>
        dsimp only
        by_cases h5 : k.IsType5
        · rw [if_pos h5, if_pos h5]
          exact checkedFulfil_eq e _
        · rw [if_neg h5, if_neg h5]
    · rw [if_neg hr, if_neg hr]
      by_cases hb : e.routers.IsBridge v
      · rw [if_pos hb, if_pos hb]
        cases n.key with
        | inet p => exact checkedExportFrom_eq e _ _
        | evpn k => rfl
      · rw [if_neg hb, if_neg hb]

/-- Passing over a list with checks that never fail is passing over it. -/
theorem foldlM_eq_ok {α β : Type} {f : β → α → Except Fault β} {g : β → α → β}
    (h : ∀ b a, f b a = .ok (g b a)) (l : List α) (b : β) : l.foldlM f b = .ok (l.foldl g b) := by
  have hf : f = fun b a => pure (g b a) := funext fun b => funext (h b)
  rw [hf, List.foldlM_pure]
  rfl

def checkedStep (s : Engine × Nat) (q : Request) : Except Fault (Engine × Nat) :=
  match s.1.tables.apply q with
  | (_, none) => .ok s
  | (tables, some n) =>
    (({ s.1 with tables } : Engine).checkedNotify n).map fun e => (e, s.2 + 1)

def checkedRound (s : Engine × Nat) : Except Fault (Engine × Nat) :=
  s.1.queue.foldlM checkedStep ({ s.1 with queue := [] }, s.2)

def checkedRounds : Nat → Engine × Nat → Except Fault (Engine × Nat)
  | 0, s => .ok s
  | fuel + 1, s => if s.1.queue = [] then .ok s else (checkedRound s).bind (checkedRounds fuel)

def checkedProcess (e : Engine) : Except Fault (Engine × Nat) := checkedRounds roundLimit (e, 0)

theorem checkedStep_eq (s : Engine × Nat) (q : Request) : checkedStep s q = .ok (step s q) := by
  simp only [checkedStep, step]
  cases s.1.tables.apply q with
  | mk tables note =>
    cases note with
    | none => rfl
    | some n =>
      dsimp only
      rw [checkedNotify_eq]
      rfl

theorem checkedRounds_eq (fuel : Nat) (s : Engine × Nat) :
    checkedRounds fuel s = .ok (rounds fuel s) := by
  induction fuel generalizing s with
  | zero => rfl
  | succ fuel ih =>
    simp only [checkedRounds, rounds]
    split
    · rfl
    · have hround : checkedRound s = .ok (round s) := foldlM_eq_ok checkedStep_eq _ _
      rw [hround]
      exact ih (round s)

theorem checkedProcess_eq (e : Engine) : e.checkedProcess = .ok e.process :=
  checkedRounds_eq roundLimit (e, 0)

def checkedReconcile (e : Engine) (vrf : String) (p : Prefix) : Except Fault Engine := do
  let e ← e.checkedFulfil ⟨.fromBridges, vrf, p⟩
  let e ← e.checkedFulfil ⟨.toInet, vrf, p⟩
  e.checkedFulfil ⟨.toEvpn, vrf, p⟩

theorem checkedReconcile_eq (e : Engine) (vrf : String) (p : Prefix) :
    e.checkedReconcile vrf p = .ok (e.reconcile vrf p) := by
  simp only [checkedReconcile, checkedFulfil_eq]
  rfl

def checkedWalk (e : Engine) (id : LogicalRouterId) : Except Fault Engine :=
  match e.routers.router? id with
  | none => .ok e
  | some r =>
    match r.routingVrf with
    | none => .ok e
    | some vrf => (e.knownPrefixes r vrf).foldlM (fun e p => e.checkedReconcile vrf p) e

theorem checkedWalk_eq (e : Engine) (id : LogicalRouterId) :
    e.checkedWalk id = .ok (e.walk id) := by
  simp only [checkedWalk, walk]
  cases e.routers.router? id with
  | none => rfl
  | some r =>
    dsimp only
    cases r.routingVrf with
    | none => rfl
    | some vrf => exact foldlM_eq_ok (fun e p => checkedReconcile_eq e vrf p) _ _

def checkedWalkAll (e : Engine) (ids : List LogicalRouterId) : Except Fault Engine :=
  ids.foldlM checkedWalk e

theorem checkedWalkAll_eq (e : Engine) (ids : List LogicalRouterId) :
    e.checkedWalkAll ids = .ok (e.walkAll ids) := foldlM_eq_ok checkedWalk_eq ids e

def checkedNotifyInterface (e : Engine) (name : String) : Except Fault Engine := do
  let (tables, changed) := e.tables.refresh name
  let e ← changed.foldlM checkedNotify { e with tables }
  e.checkedWalkAll e.routers.ids

theorem checkedNotifyInterface_eq (e : Engine) (name : String) :
    e.checkedNotifyInterface name = .ok (e.notifyInterface name) := by
  simp only [checkedNotifyInterface, foldlM_eq_ok checkedNotify_eq]
  exact checkedWalkAll_eq _ _

/-- An event with checks; one that fails changes nothing. -/
def checkedHandle (e : Engine) : Event → Except Fault Engine
  | .updateVn c =>
    match e.tables.vrfs.get? c.vrf with
    | none => .ok e
    | some _ =>
      let (routers, affected) := e.routers.configure c
      ((e.moveVn c.name c.vrf).setRouters routers).checkedWalkAll affected
  | .deleteVn vn =>
    let (routers, left) := e.routers.detach vn
    ((e.clearVn vn none).setRouters routers).checkedWalkAll left.toList
  | .updateInterface i =>
    (e.setInterfaces (e.tables.interfaces.put i)).checkedNotifyInterface i.name
  | .deleteInterface name =>
    if e.tables.interfaces.contains name then
      (e.setInterfaces (e.tables.interfaces.erase name)).checkedNotifyInterface name
    else .ok e

/-- A call with checks. -/
def checkedCall (e : Engine) : Call → Except Fault Engine
  | .event event => e.checkedHandle event
  | .request q => .ok (e.push q)
  | .updateItem peer vrf p item =>
    match e.tables.vrfs.get? vrf with
    | none => .ok e
    | some _ => do
      e.checkedSync vrf (.ofPrefix item.table p) peer (← e.itemAdvertisement vrf item)
  | .withdrawItem peer vrf p t => e.checkedSync vrf (.ofPrefix t p) peer none
  | .process => e.checkedProcess.map (·.1)

def checkedCalls (e : Engine) (l : List Call) : Except Fault Engine := l.foldlM checkedCall e

theorem composed_of_itemAdvertisement {v : View} {vrf : String} {item : RouteItem}
    {want : Option Advertisement} (h : v.itemAdvertisement vrf item = .ok want) :
    ∀ a ∈ want, a.Composed := by
  have hmembers : ∃ ms, want = v.ofMembers ms item.params.attrs := by
    simp only [View.itemAdvertisement] at h
    split at h
    · cases h
    · next m _ =>
      split at h
      · exact ⟨[m], (Except.ok.inj h).symm⟩
      · exact ⟨[m], (Except.ok.inj h).symm⟩
      · cases h
    · next ms _ _ => exact ⟨ms, (Except.ok.inj h).symm⟩
  obtain ⟨ms, rfl⟩ := hmembers
  exact fun a ha => View.composed_of_ofMembers ha

/-- Checks take no part in a call: they fail where the call does. -/
theorem checkedCall_eq (e : Engine) (c : Call) : e.checkedCall c = e.call c := by
  cases c with
  | event event =>
    cases event with
    | updateVn c =>
      simp only [checkedCall, checkedHandle, call, handle, updateVn]
      cases e.tables.vrfs.get? c.vrf with
      | none => rfl
      | some v => exact checkedWalkAll_eq _ _
    | deleteVn vn => exact checkedWalkAll_eq _ _
    | updateInterface i => exact checkedNotifyInterface_eq _ _
    | deleteInterface name =>
      simp only [checkedCall, checkedHandle, call, handle, deleteInterface]
      split
      · exact checkedNotifyInterface_eq _ _
      · rfl
  | request q => rfl
  | updateItem peer vrf p item =>
    simp only [checkedCall, call, updateItem]
    cases e.tables.vrfs.get? vrf with
    | none => rfl
    | some v =>
      dsimp only
      cases h : e.itemAdvertisement vrf item with
      | error f => rfl
      | ok want => exact checkedSync_eq e _ _ _ (composed_of_itemAdvertisement h)
  | withdrawItem peer vrf p t => exact checkedSync_eq e _ _ _ fun a ha => by cases ha
  | process =>
    show e.checkedProcess.map (·.1) = _
    rw [checkedProcess_eq]
    rfl

theorem checkedCalls_eq (e : Engine) (l : List Call) : e.checkedCalls l = e.calls l := by
  have hcall : checkedCall = call := funext fun e => funext (checkedCall_eq e)
  simp only [checkedCalls, calls]
  rw [hcall]

end Engine

end VxlanRouting
