import VxlanRouting.Proofs.Events

/-!
What asking leaves alone. Whatever getting one path to what is wanted keeps of a view, passing
changes on and walks keep as well, and so do events once they have changed the tables and the
routers. Asking changes no tables, so processing the queue keeps what applying a request keeps of
them; and of the routers it changes the counters only.
-/
namespace VxlanRouting.Engine

/-- Getting a path to what is wanted keeps a property of views. -/
def Keeps (P : View → Prop) : Prop :=
  ∀ (e : Engine) (vrf : String) (k : RouteKey) (peer : Peer) (want : Option Advertisement),
    P e.toView → P (e.sync vrf k peer want).toView

theorem tables_nextSequence (e : Engine) (vrf : String) :
    (e.nextSequence vrf).1.tables = e.tables := by
  simp only [nextSequence]
  split <;> rfl

theorem tables_sequenceFor (e : Engine) (vrf : String) (c : NextHopKey) (found : Option Path) :
    (e.sequenceFor vrf c found).1.tables = e.tables := by
  simp only [sequenceFor]
  split
  · exact e.tables_nextSequence vrf
  · split
    · rfl
    · exact e.tables_nextSequence vrf

theorem tables_install (e : Engine) (vrf : String) (k : RouteKey) (peer : Peer)
    (found : Option Path) (a : Advertisement) :
    (e.install vrf k peer found a).tables = e.tables := by
  cases a with
  | single => rfl
  | tunnel => rfl
  | ecmp c => exact e.tables_sequenceFor vrf c found

/-- Asking for a path does not install it. -/
theorem tables_sync (e : Engine) (vrf : String) (k : RouteKey) (peer : Peer)
    (want : Option Advertisement) : (e.sync vrf k peer want).tables = e.tables := by
  simp only [sync]
  split
  · rfl
  · rfl
  · exact e.tables_install vrf k peer none _
  · split
    · rfl
    · exact e.tables_install vrf k peer _ _

/-- Asking keeps all that is said of tables alone. -/
theorem keeps_tables (Q : Tables → Prop) : Keeps fun v => Q v.tables := by
  intro e vrf k peer want h
  show Q (e.sync vrf k peer want).tables
  rw [tables_sync]
  exact h

/-- Asking changes no more than the counters of the routers. -/
theorem level_sync {e : Engine} (hs : e.routers.routers.Sorted) (vrf : String) (k : RouteKey)
    (peer : Peer) (want : Option Advertisement) :
    e.toView.Level (e.sync vrf k peer want).toView := by
  by_cases ha : Accords (e.tables.path? vrf k peer) want
  · rw [sync_of_accords ha]
    exact .refl _
  · obtain ⟨q, hput, _⟩ := sync_of_not_accords hs ha
    exact hput.toLevel

namespace Keeps

variable {P : View → Prop}

/-- Withdrawing what is in VRFs that are lost changes the queue only. -/
theorem setRouters {e : Engine} {m : RouterMap} (h : P ⟨e.params, e.tables, m⟩) :
    P (e.setRouters m).toView := by
  rw [(e.setRouters_withdraws m).view]
  exact h

variable (hP : Keeps P)

include hP

theorem reconcile {e : Engine} (h : P e.toView) (vrf : String) (p : Prefix) :
    P (e.reconcile vrf p).toView :=
  hP _ _ _ _ _ (hP _ _ _ _ _ (hP _ _ _ _ _ h))

theorem walk {e : Engine} (h : P e.toView) (id : LogicalRouterId) : P (e.walk id).toView := by
  simp only [Engine.walk]
  split
  · exact h
  · split
    · exact h
    · next vrf _ =>
      exact List.foldlRecOn (motive := fun e : Engine => P e.toView) _ _ h
        fun _ h p _ => hP.reconcile h vrf p

theorem walkAll {e : Engine} (h : P e.toView) (ids : List LogicalRouterId) :
    P (e.walkAll ids).toView :=
  List.foldlRecOn (motive := fun e : Engine => P e.toView) ids _ h fun _ h id _ => hP.walk h id

theorem notify {e : Engine} (h : P e.toView) (n : Notification) : P (e.notify n).toView := by
  simp only [Engine.notify, exportFrom]
  split
  · exact h
  · split
    · split
      · exact hP _ _ _ _ _ h
      · split
        · exact hP _ _ _ _ _ h
        · exact h
    · split
      · split
        · split
          · exact h
          · exact hP _ _ _ _ _ h
        · exact h
      · exact h

theorem updateVn {e e' : Engine} {c : VnConfig} (he' : e.updateVn c = .ok e')
    (h : P ⟨e.params, (e.moveVn c.name c.vrf).tables, (e.routers.configure c).1⟩) :
    P e'.toView := by
  rw [eq_of_updateVn he']
  exact hP.walkAll (setRouters h) _

theorem deleteVn {e : Engine} {vn : String}
    (h : P ⟨e.params, (e.clearVn vn none).tables, (e.routers.detach vn).1⟩) :
    P (e.deleteVn vn).toView :=
  hP.walkAll (setRouters h) _

theorem notifyInterface {e : Engine} {name : String}
    (h : P ⟨e.params, (e.tables.refresh name).1, e.routers⟩) :
    P (e.notifyInterface name).toView := by
  refine hP.walkAll ?_ _
  exact List.foldlRecOn (motive := fun e : Engine => P e.toView) _ _ h
    fun _ h n _ => hP.notify h n

section

variable (happly : ∀ (v : View) (q : Request), P v →
  P ⟨v.params, (v.tables.apply q).1, v.routers⟩)

include happly

theorem step {s : Engine × Nat} (h : P s.1.toView) (q : Request) : P (step s q).1.toView := by
  have hq := happly s.1.toView q h
  simp only [Engine.step]
  split
  · exact h
  · next tables n he =>
    rw [he] at hq
    exact hP.notify hq n

theorem round {s : Engine × Nat} (h : P s.1.toView) : P (round s).1.toView := by
  have hempty : P ({ s.1 with queue := [] } : Engine).toView := h
  exact List.foldlRecOn (motive := fun s : Engine × Nat => P s.1.toView) s.1.queue _ hempty
    fun _ h q _ => hP.step happly h q

theorem rounds {s : Engine × Nat} (h : P s.1.toView) (n : Nat) : P (rounds n s).1.toView := by
  induction n generalizing s with
  | zero => exact h
  | succ n ih =>
    simp only [Engine.rounds]
    split
    · exact h
    · exact ih (hP.round happly h)

/-- Processing the queue keeps what applying a request keeps. -/
theorem process {e : Engine} (h : P e.toView) : P e.process.1.toView :=
  hP.rounds happly (s := (e, 0)) h roundLimit

end

end Keeps

end VxlanRouting.Engine
