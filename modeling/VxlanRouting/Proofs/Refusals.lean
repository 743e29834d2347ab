import VxlanRouting.Proofs.Stepwise
import VxlanRouting.Proofs.VniIndex

/-!
What is refused, and what a refusal leaves behind. An operation is refused for a reason that the
tables before it give; when it is, in single steps as it is done, nothing has been written. What is
not refused is the operation as a whole.
-/
namespace VxlanRouting

theorem outcome_eq_error_iff {ε σ : Type} {s s' : σ} {r : Except ε σ} {cause : ε} :
    outcome s r = .error cause s' ↔ s' = s ∧ r = .error cause := by
  cases r with
  | ok t => simp [outcome]
  | error c => simp [outcome, and_comm, eq_comm]

theorem map_eq_error_iff {ε α β : Type} {x : Except ε α} {f : α → β} {cause : ε} :
    x.map f = .error cause ↔ x = .error cause := by
  constructor
  · intro h
    cases x with
    | ok a => cases h
    | error c =>
      cases h
      rfl
  · rintro rfl
    rfl

theorem mapError_eq_error_iff {ε ε' α : Type} {x : Except ε α} {f : ε → ε'} {r : ε'} :
    x.mapError f = .error r ↔ ∃ cause, x = .error cause ∧ f cause = r := by
  constructor
  · intro h
    cases x with
    | ok a => cases h
    | error c =>
      cases h
      exact ⟨c, rfl, rfl⟩
  · rintro ⟨cause, rfl, rfl⟩
    rfl

theorem map_mapError_eq_error_iff {ε ε' α β : Type} {x : Except ε α} {g : α → β} {f : ε → ε'}
    {r : ε'} : (x.map g).mapError f = .error r ↔ ∃ cause, x = .error cause ∧ f cause = r := by
  simp only [mapError_eq_error_iff, map_eq_error_iff]

/-- Why a VRF is not added. A number is checked before the name, and the name before the
identifier. -/
inductive VrfTable.AddRefused (t : VrfTable) (name : String) : Option Nat → VrfError → Prop
  | zero : AddRefused t name (some 0) (.badVni .reservedZero)
  | tooLarge {n : Nat} (large : 0x1000000 ≤ n) : AddRefused t name (some n) (.badVni (.tooLarge n))
  | taken {vni : Option Nat} (valid : ∀ n, vni = some n → 0 < n ∧ n < 0x1000000)
      (found : t.get? name ≠ none) : AddRefused t name vni (.taken name)
  | vniTaken {vni : Vni} (free : t.get? name = none) (found : t.byVni.get? vni ≠ none) :
      AddRefused t name (some vni.value) .vniTaken

namespace VrfTable

theorem add_eq_error_iff {t : VrfTable} {name : String} {vni : Option Nat} {cause : VrfError} :
    t.add name vni = .error cause ↔ t.AddRefused name vni cause := by
  constructor
  · intro h
    cases vni with
    | none =>
      simp only [add, Option.map_none] at h
      split at h
      next found =>
        cases h
        exact .taken (fun n hn => by cases hn) (OrderedMap.contains_iff.mp found)
      next => cases h
    | some n =>
      simp only [add, Option.map_some] at h
      cases hw : Vni.ofNat n with
      | error c =>
        rw [hw] at h
        cases h
        cases c with
        | reservedZero =>
          rw [Vni.ofNat_eq_reservedZero_iff.mp hw]
          exact .zero
        | tooLarge m =>
          obtain ⟨rfl, large⟩ := Vni.ofNat_eq_tooLarge_iff.mp hw
          exact .tooLarge large
      | ok w =>
        obtain rfl := Vni.ofNat_eq_ok_iff.mp hw
        rw [hw] at h
        dsimp only at h
        split at h
        next found =>
          cases h
          refine .taken (fun n hn => ?_) (OrderedMap.contains_iff.mp found)
          cases hn
          exact ⟨w.pos, w.lt⟩
        next free =>
          split at h
          next found =>
            cases h
            exact .vniTaken (Decidable.of_not_not fun hn => free (OrderedMap.contains_iff.mpr hn))
              (OrderedMap.contains_iff.mp found)
          next => cases h
  · intro h
    cases h with
    | zero => rfl
    | tooLarge large =>
      simp only [add, Option.map_some, Vni.ofNat_eq_tooLarge_iff.mpr ⟨rfl, large⟩]
    | @taken _ valid found =>
      have hn := OrderedMap.contains_iff.mpr found
      cases vni with
      | none => simp only [add, Option.map_none, hn, if_true]
      | some n =>
        obtain ⟨hp, hl⟩ := valid n rfl
        have hw : Vni.ofNat n = .ok ⟨n, hp, hl⟩ := Vni.ofNat_eq_ok_iff.mpr rfl
        simp only [add, Option.map_some, hw, hn, if_true]
    | @vniTaken w free found =>
      have hn : ¬ t.byName.contains name = true := fun h => OrderedMap.contains_iff.mp h free
      have hw := OrderedMap.contains_iff.mpr found
      simp only [add, Option.map_some, Vni.ofNat_value, if_neg hn, if_pos hw]

/-- The order of the checks decides only on what is reported. -/
theorem exists_addRefused_iff {t : VrfTable} {name : String} {vni : Option Nat} :
    (∃ cause, t.AddRefused name vni cause) ↔
      (∃ n, vni = some n ∧ (n = 0 ∨ 0x1000000 ≤ n)) ∨ t.get? name ≠ none ∨
        ∃ w : Vni, vni = some w.value ∧ t.byVni.get? w ≠ none := by
  constructor
  · rintro ⟨cause, h⟩
    cases h with
    | zero => exact .inl ⟨0, rfl, .inl rfl⟩
    | tooLarge large => exact .inl ⟨_, rfl, .inr large⟩
    | taken _ found => exact .inr (.inl found)
    | vniTaken _ found => exact .inr (.inr ⟨_, rfl, found⟩)
  · intro h
    by_cases bad : ∃ n, vni = some n ∧ (n = 0 ∨ 0x1000000 ≤ n)
    · obtain ⟨n, rfl, rfl | large⟩ := bad
      · exact ⟨_, .zero⟩
      · exact ⟨_, .tooLarge large⟩
    · by_cases free : t.get? name = none
      · obtain hn | found | ⟨w, rfl, found⟩ := h
        · exact absurd hn bad
        · exact absurd free found
        · exact ⟨_, .vniTaken free found⟩
      · refine ⟨_, .taken (fun n hn => ?_) free⟩
        have hb : ¬ (n = 0 ∨ 0x1000000 ≤ n) := fun h => bad ⟨n, hn, h⟩
        omega

theorem remove_eq_error_iff {t : VrfTable} {name : String} {cause : VrfError} :
    t.remove name = .error cause ↔ t.get? name = none ∧ cause = .unknown name := by
  unfold remove
  cases t.get? name <;> simp [eq_comm]

theorem setVn_eq_error_iff {t : VrfTable} {name : String} {vn : Option String} {cause : VrfError} :
    t.setVn name vn = .error cause ↔ t.get? name = none ∧ cause = .unknown name := by
  have hc : t.byName.contains name = (t.get? name).isSome := rfl
  unfold setVn
  rw [hc]
  cases t.get? name <;> simp [eq_comm]

end VrfTable

namespace InterfaceTable

theorem add_eq_error_iff {t : InterfaceTable} {i : Interface} {cause : InterfaceError} :
    t.add i = .error cause ↔ t.get? i.name ≠ none ∧ cause = .taken i.name := by
  have hc : t.contains i.name = (t.get? i.name).isSome := rfl
  unfold add
  rw [hc]
  cases t.get? i.name <;> simp [eq_comm]

theorem replace_eq_error_iff {t : InterfaceTable} {i : Interface} {cause : InterfaceError} :
    t.replace i = .error cause ↔ t.get? i.name = none ∧ cause = .unknown i.name := by
  have hc : t.contains i.name = (t.get? i.name).isSome := rfl
  unfold replace
  rw [hc]
  cases t.get? i.name <;> simp [eq_comm]

end InterfaceTable

theorem Engine.updateVn_eq_error_iff {e : Engine} {c : VnConfig} {cause : VrfError} :
    e.updateVn c = .error cause ↔ e.tables.vrfs.get? c.vrf = none ∧ cause = .unknown c.vrf := by
  unfold updateVn
  cases e.tables.vrfs.get? c.vrf <;> simp [eq_comm]

/-- What can be asked of an engine and refused. -/
inductive Operation where
  | addVrf (name : String) (vni : Option Nat)
  | removeVrf (name : String)
  | setVn (name : String) (vn : Option String)
  | addInterface (i : Interface)
  | replaceInterface (i : Interface)
  | updateVn (c : VnConfig)
  | updateInterface (i : Interface)

inductive Refusal where
  | vrf (cause : VrfError)
  | interface (cause : InterfaceError)

namespace Operation

/-- The operation in its single steps. -/
def steps : Operation → EStateM Refusal Engine Unit
  | addVrf name vni => (Steps.onVrfs (Steps.addVrf name vni)).adaptExcept .vrf
  | removeVrf name => (Steps.onVrfs do let _ ← Steps.removeVrf name; return).adaptExcept .vrf
  | setVn name vn => (Steps.onVrfs (Steps.setVn name vn)).adaptExcept .vrf
  | addInterface i => (Steps.onInterfaces (Steps.addInterface i)).adaptExcept .interface
  | replaceInterface i => (Steps.onInterfaces (Steps.replaceInterface i)).adaptExcept .interface
  | updateVn c => (Steps.updateVn c).adaptExcept .vrf
  | updateInterface i => (Steps.updateInterface i).adaptExcept .interface

/-- The engine after the whole operation. -/
def attempt (e : Engine) : Operation → Except Refusal Engine
  | addVrf name vni => ((e.tables.vrfs.add name vni).map e.setVrfs).mapError .vrf
  | removeVrf name => (((e.tables.vrfs.remove name).map (·.2)).map e.setVrfs).mapError .vrf
  | setVn name vn => ((e.tables.vrfs.setVn name vn).map e.setVrfs).mapError .vrf
  | addInterface i => ((e.tables.interfaces.add i).map e.setInterfaces).mapError .interface
  | replaceInterface i => ((e.tables.interfaces.replace i).map e.setInterfaces).mapError .interface
  | updateVn c => (e.updateVn c).mapError .vrf
  | updateInterface i => .ok (e.updateInterface i)

/-- Why an operation is refused. -/
inductive Refused (db : Tables) : Operation → Refusal → Prop
  | addVrf {name vni cause} : db.vrfs.AddRefused name vni cause →
      Refused db (addVrf name vni) (.vrf cause)
  | removeVrf {name} : db.vrfs.get? name = none →
      Refused db (removeVrf name) (.vrf (.unknown name))
  | setVn {name vn} : db.vrfs.get? name = none →
      Refused db (setVn name vn) (.vrf (.unknown name))
  | addInterface {i} : db.interfaces.get? i.name ≠ none →
      Refused db (addInterface i) (.interface (.taken i.name))
  | replaceInterface {i} : db.interfaces.get? i.name = none →
      Refused db (replaceInterface i) (.interface (.unknown i.name))
  | updateVn {c} : db.vrfs.get? c.vrf = none →
      Refused db (updateVn c) (.vrf (.unknown c.vrf))

/-- In its steps, an operation is done as a whole or not at all. The VN of a VRF stands apart: its
steps come to the whole only if no name is there twice. -/
theorem run_steps {e : Engine} {o : Operation} (h : ∀ c, o ≠ updateVn c) :
    o.steps.run e = outcome e (o.attempt e) := by
  cases o with
  | addVrf name vni =>
    exact run_adaptExcept_outcome (run_onPart rfl (VrfTable.run_addVrf e.tables.vrfs name vni))
  | removeVrf name =>
    refine run_adaptExcept_outcome (run_onPart rfl ?_)
    rw [EStateM.run_bind, VrfTable.run_removeVrf]
    cases e.tables.vrfs.remove name <;> rfl
  | setVn name vn =>
    exact run_adaptExcept_outcome (run_onPart rfl (VrfTable.run_setVn e.tables.vrfs name vn))
  | addInterface i =>
    exact run_adaptExcept_outcome
      (run_onPart rfl (InterfaceTable.run_addInterface e.tables.interfaces i))
  | replaceInterface i =>
    exact run_adaptExcept_outcome
      (run_onPart rfl (InterfaceTable.run_replaceInterface e.tables.interfaces i))
  | updateVn c => exact absurd rfl (h c)
  | updateInterface i =>
    rw [steps, EStateM.run_adaptExcept, e.run_updateInterface]
    rfl

theorem steps_eq_error_iff {e e' : Engine} {o : Operation} {cause : Refusal} :
    o.steps.run e = .error cause e' ↔ e' = e ∧ o.attempt e = .error cause := by
  cases o with
  | updateVn c =>
    rw [steps, EStateM.run_adaptExcept, e.run_updateVn, attempt, mapError_eq_error_iff]
    simp only [Engine.updateVn_eq_error_iff]
    cases e.tables.vrfs.get? c.vrf with
    | none => simp [and_comm, eq_comm]
    | some v => simp
  | _ => rw [run_steps (fun c hc => by cases hc), outcome_eq_error_iff]

theorem steps_eq_ok_iff {e e' : Engine} (h : e.tables.Distinct) {o : Operation} :
    o.steps.run e = .ok () e' ↔ o.attempt e = .ok e' := by
  have hrun : o.steps.run e = outcome e (o.attempt e) := by
    cases o with
    | updateVn c =>
      rw [steps, EStateM.run_adaptExcept, e.run_updateVn, h.setVrfs_movedVn]
      simp only [attempt, Engine.updateVn]
      cases e.tables.vrfs.get? c.vrf <;> rfl
    | _ => exact run_steps fun c hc => by cases hc
  rw [hrun]
  cases o.attempt e <;> simp [outcome]

theorem attempt_eq_error_iff {e : Engine} {o : Operation} {cause : Refusal} :
    o.attempt e = .error cause ↔ o.Refused e.tables cause := by
  constructor
  · intro h
    cases o with
    | addVrf name vni =>
      obtain ⟨c, hc, rfl⟩ := map_mapError_eq_error_iff.mp h
      exact .addVrf (VrfTable.add_eq_error_iff.mp hc)
    | removeVrf name =>
      obtain ⟨c, hc, rfl⟩ := map_mapError_eq_error_iff.mp h
      obtain ⟨hn, rfl⟩ := VrfTable.remove_eq_error_iff.mp (map_eq_error_iff.mp hc)
      exact .removeVrf hn
    | setVn name vn =>
      obtain ⟨c, hc, rfl⟩ := map_mapError_eq_error_iff.mp h
      obtain ⟨hn, rfl⟩ := VrfTable.setVn_eq_error_iff.mp hc
      exact .setVn hn
    | addInterface i =>
      obtain ⟨c, hc, rfl⟩ := map_mapError_eq_error_iff.mp h
      obtain ⟨hn, rfl⟩ := InterfaceTable.add_eq_error_iff.mp hc
      exact .addInterface hn
    | replaceInterface i =>
      obtain ⟨c, hc, rfl⟩ := map_mapError_eq_error_iff.mp h
      obtain ⟨hn, rfl⟩ := InterfaceTable.replace_eq_error_iff.mp hc
      exact .replaceInterface hn
    | updateVn c =>
      obtain ⟨c', hc, rfl⟩ := mapError_eq_error_iff.mp h
      obtain ⟨hn, rfl⟩ := Engine.updateVn_eq_error_iff.mp hc
      exact .updateVn hn
    | updateInterface i => cases h
  · intro h
    cases h with
    | addVrf h => exact map_mapError_eq_error_iff.mpr ⟨_, VrfTable.add_eq_error_iff.mpr h, rfl⟩
    | removeVrf h =>
      have hc := VrfTable.remove_eq_error_iff.mpr ⟨h, rfl⟩
      exact map_mapError_eq_error_iff.mpr ⟨_, map_eq_error_iff.mpr hc, rfl⟩
    | setVn h =>
      exact map_mapError_eq_error_iff.mpr ⟨_, VrfTable.setVn_eq_error_iff.mpr ⟨h, rfl⟩, rfl⟩
    | addInterface h =>
      exact map_mapError_eq_error_iff.mpr ⟨_, InterfaceTable.add_eq_error_iff.mpr ⟨h, rfl⟩, rfl⟩
    | replaceInterface h =>
      exact map_mapError_eq_error_iff.mpr ⟨_, InterfaceTable.replace_eq_error_iff.mpr ⟨h, rfl⟩, rfl⟩
    | updateVn h =>
      exact mapError_eq_error_iff.mpr ⟨_, Engine.updateVn_eq_error_iff.mpr ⟨h, rfl⟩, rfl⟩

end Operation

/-- A refused operation leaves the engine as it was: tables and their identifiers, interfaces,
routers, counters and queue. A VN is refused for want of its VRF only, a VRF for its number, its
name or its identifier, and an interface is never refused an update. What is not refused is the
whole operation. -/
theorem refused_leaves_no_trace (e : Engine) :
    (∀ (o : Operation) (cause : Refusal) (e' : Engine),
      o.steps.run e = .error cause e' ↔ e' = e ∧ o.Refused e.tables cause) ∧
    (∀ c : VnConfig, (∃ cause e', (Operation.updateVn c).steps.run e = .error cause e') ↔
      e.tables.vrfs.get? c.vrf = none) ∧
    (∀ name vni, (∃ cause e', (Operation.addVrf name vni).steps.run e = .error cause e') ↔
      (∃ n, vni = some n ∧ (n = 0 ∨ 0x1000000 ≤ n)) ∨ e.tables.vrfs.get? name ≠ none ∨
        ∃ w : Vni, vni = some w.value ∧ e.tables.vrfs.byVni.get? w ≠ none) ∧
    (∀ i : Interface, ∃ e', (Operation.updateInterface i).steps.run e = .ok () e') ∧
    (∀ (o : Operation) (cause : Refusal), o.attempt e = .error cause ↔ o.Refused e.tables cause) ∧
    (e.tables.Distinct → ∀ (o : Operation) (e' : Engine),
      o.steps.run e = .ok () e' ↔ o.attempt e = .ok e') := by
  have hsteps (o : Operation) (cause : Refusal) (e' : Engine) :
      o.steps.run e = .error cause e' ↔ e' = e ∧ o.Refused e.tables cause := by
    rw [Operation.steps_eq_error_iff, Operation.attempt_eq_error_iff]
  have hex (o : Operation) : (∃ cause e', o.steps.run e = .error cause e') ↔
      ∃ cause, o.Refused e.tables cause := by
    simp only [hsteps, exists_eq_left]
  refine ⟨hsteps, fun c => ?_, fun name vni => ?_, fun i => ?_,
    fun _ _ => Operation.attempt_eq_error_iff, fun h _ _ => Operation.steps_eq_ok_iff h⟩
  · rw [hex]
    constructor
    · rintro ⟨_, h⟩
      cases h with
      | updateVn h => exact h
    · exact fun h => ⟨_, .updateVn h⟩
  · rw [hex, ← VrfTable.exists_addRefused_iff]
    constructor
    · rintro ⟨_, h⟩
      cases h with
      | addVrf h => exact ⟨_, h⟩
    · rintro ⟨_, h⟩
      exact ⟨_, .addVrf h⟩
  · refine ⟨e.updateInterface i, ?_⟩
    rw [Operation.run_steps fun c hc => by cases hc]
    rfl

/-- In the sample network the identifier 7 is taken, so a new VRF cannot have it; of a bad number and
a taken name the number is reported. The VN of one VRF goes to the other in steps as it does at
once. -/
theorem refused_leaves_no_trace_in_sample :
    (Operation.addVrf "new" (some 7)).steps.run Sample.engine =
      .error (.vrf .vniTaken) Sample.engine ∧
    (Operation.addVrf "bridge" (some 0)).steps.run Sample.engine =
      .error (.vrf (.badVni .reservedZero)) Sample.engine ∧
    ∃ e', (Operation.updateVn ⟨"routing-vn", "bridge", none, false⟩).steps.run Sample.engine =
        .ok () e' ∧ Sample.engine.updateVn ⟨"routing-vn", "bridge", none, false⟩ = .ok e' := by
  obtain ⟨hrefused, _, _, _, _, hdone⟩ := refused_leaves_no_trace Sample.engine
  refine ⟨(hrefused _ _ _).mpr ⟨rfl, .addVrf ?_⟩, (hrefused _ _ _).mpr ⟨rfl, .addVrf .zero⟩,
    _, (hdone Sample.filled.distinct _ _).mpr rfl, rfl⟩
  exact @VrfTable.AddRefused.vniTaken _ _ ⟨7, by decide, by decide⟩ (by decide) (by decide)

end VxlanRouting
