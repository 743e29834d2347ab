import VxlanRouting.Proofs.Frames
import VxlanRouting.Proofs.Orphans

/-!
Installed next-hops and the interfaces. A path holds a copy of what its key resolved to, however
deep in a composite. As long as interfaces change by events only and paths are installed by requests
only, the copy is what the key resolves to now. There is one exception: the plain next-hop of an
interface that has gone, which stays as it was.
-/
namespace VxlanRouting

/-- A current next-hop is what its key resolves to, or that of an interface that is not there. -/
theorem NextHop.Current.resolved_or_gone {t : InterfaceTable} {h : NextHop} (hc : h.Current t) :
    h.key.resolve t = some h ∨
      ∃ name label policy, h = .interface name label policy ∧ t.get? name = none := by
  cases hr : h.key.resolve t with
  | some hop => exact .inl (congrArg some (hc hop hr))
  | none =>
    cases h with
    | interface name label policy =>
      exact .inr ⟨name, label, policy, rfl, Option.map_eq_none_iff.mp hr⟩
    | _ => cases hr

namespace Engine

/-- Engines whose interfaces have changed by events only since there were no paths, and whose paths
come from requests. VRFs, VNs, sessions, routers and the queue may become whatever they like. -/
inductive Tracked : Engine → Prop
  | start {e : Engine} : (∀ vrf k, e.tables.paths vrf k = []) → Tracked e
  | call {e e' : Engine} (c : Call) : Tracked e → e.call c = .ok e' → Tracked e'
  | apply {e : Engine} (q : Request) :
      Tracked e → Tracked { e with tables := (e.tables.apply q).1 }
  | aside {e e' : Engine} : Tracked e → e'.tables.interfaces = e.tables.interfaces →
      (∀ vrf k, ∀ x ∈ e'.tables.paths vrf k, x ∈ e.tables.paths vrf k) → Tracked e'

theorem Tracked.calls {e e' : Engine} {l : List Call} (h : e.Tracked) (hl : e.calls l = .ok e') :
    e'.Tracked := by
  induction l generalizing e with
  | nil =>
    cases hl
    exact h
  | cons c l ih =>
    obtain ⟨e₁, hc, hl⟩ := call_of_calls_cons hl
    exact ih (h.call c hc) hl

/-- Resolving the paths of an interface anew, which has changed alone, keeps all of them current. -/
theorem current_notifyInterface {e : Engine} (h : e.tables.Current) {t : InterfaceTable}
    {name : String} (ht : ∀ n, n ≠ name → t.get? n = e.tables.interfaces.get? n) :
    ((e.setInterfaces t).notifyInterface name).tables.Current :=
  (keeps_tables Tables.Current).notifyInterface ((e.refreshes_setInterfaces ht).current h)

theorem current_handle {e e' : Engine} (h : e.tables.Current) {event : Event}
    (he : e.handle event = .ok e') : e'.tables.Current := by
  have hkeep : Keeps fun v => v.tables.Current := keeps_tables Tables.Current
  cases event with
  | updateVn c => exact hkeep.updateVn he (h.of_relabels (e.relabels_moveVn c.name c.vrf))
  | deleteVn vn =>
    rw [← Except.ok.inj he]
    exact hkeep.deleteVn (h.of_relabels (e.relabels_clearVn vn none))
  | updateInterface i =>
    rw [← Except.ok.inj he]
    exact current_notifyInterface h fun n hn => OrderedMap.get?_insert_of_ne _ _ hn
  | deleteInterface name =>
    rw [← Except.ok.inj he]
    simp only [deleteInterface]
    split
    · exact current_notifyInterface h fun n hn => OrderedMap.get?_erase_of_ne _ hn
    · exact h

theorem current_call {e e' : Engine} (h : e.tables.Current) {c : Call}
    (he : e.call c = .ok e') : e'.tables.Current := by
  have hkeep : Keeps fun v => v.tables.Current := keeps_tables Tables.Current
  cases c with
  | event event =>
    rw [← Except.ok.inj he]
    cases hev : e.handle event with
    | ok e₁ => exact current_handle h hev
    | error f => exact h
  | request q =>
    rw [← Except.ok.inj he]
    exact h
  | updateItem peer vrf p item =>
    simp only [Engine.call, updateItem] at he
    split at he
    · rw [← Except.ok.inj he]
      exact h
    · cases ha : e.itemAdvertisement vrf item with
      | error f =>
        rw [ha] at he
        cases he
      | ok want =>
        rw [ha] at he
        rw [← Except.ok.inj he]
        exact hkeep e _ _ _ _ h
  | withdrawItem peer vrf p t =>
    rw [← Except.ok.inj he]
    exact hkeep e _ _ _ _ h
  | process =>
    rw [← Except.ok.inj he]
    exact hkeep.process (fun _ q hv => hv.apply q) h

theorem Tracked.current {e : Engine} (h : e.Tracked) : e.tables.Current := by
  induction h with
  | start hnil =>
    intro vrf k x hx
    rw [hnil] at hx
    cases hx
  | call c _ hc ih => exact current_call ih hc
  | apply q _ ih => exact ih.apply q
  | aside _ hi hp ih =>
    intro vrf k x hx
    rw [hi]
    exact ih vrf k x (hp vrf k x hx)

/-- No installed next-hop is stale: it is what its key resolves to now, unless it is that of an
interface that has gone. -/
theorem tracked_resolved (e : Engine) (h : e.Tracked) (vrf : String) (k : RouteKey) (x : Path)
    (hx : x ∈ e.tables.paths vrf k) :
    x.hop.key.resolve e.tables.interfaces = some x.hop ∨
      ∃ name label policy, x.hop = .interface name label policy ∧
        e.tables.interfaces.get? name = none :=
  (h.current vrf k x hx).resolved_or_gone

end Engine

namespace Sample

/-- A machine comes behind two interfaces, then the second one comes and the first one goes. -/
def nesting : List Call :=
  [.request installBoth, .process, .event (.updateInterface tap₂), .event (.deleteInterface "tap")]

/-- What the machine's path leads to then. -/
def nested : NextHop :=
  .composite .ecmp
    [⟨1, .interface "tap" false⟩, ⟨2, .composite .ecmp [⟨3, .interface "tap2" false⟩]⟩]
    [.hole, .live 2 (.composite .ecmp [⟨3, .interface "tap2" false⟩]
      [.live 3 (.interface "tap2" 4 false)])]

end Sample

namespace Engine

/-- The path of a machine follows both interfaces, also the one deep in the composite. -/
theorem nested_resolved :
    ⟨Sample.installBoth.peer, Sample.nested, {}⟩ ∈
        (Sample.after Sample.nesting).tables.paths "bridge" (.inet Sample.subnet) ∧
      Sample.nested.key.resolve (Sample.after Sample.nesting).tables.interfaces =
        some Sample.nested := by
  have hrun := Sample.calls_after (l := Sample.nesting) (by decide +kernel)
  have hstart : Sample.start.Tracked := .start (Tables.paths_of_routes_nil (by decide +kernel))
  have hx : ⟨Sample.installBoth.peer, Sample.nested, {}⟩ ∈
      (Sample.after Sample.nesting).tables.paths "bridge" (.inet Sample.subnet) := by
    decide +kernel
  refine ⟨hx, ?_⟩
  rcases tracked_resolved _ (hstart.calls hrun) "bridge" _ _ hx with h | ⟨_, _, _, h, _⟩
  · exact h
  · cases h

end Engine

end VxlanRouting
