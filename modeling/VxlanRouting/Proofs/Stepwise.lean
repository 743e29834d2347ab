import VxlanRouting.Engine.Events
import VxlanRouting.Proofs.PathMap

/-!
Operations taken apart into their single steps. What a step has written stays there if a later step
is refused, so an operation is done as a whole or not at all only if no step that may still be
refused comes after one that has written something. It is so for all operations here. Giving a VN to
a VRF needs the most care, as it takes the VN from other VRFs before it looks for its own VRF a
second time; that it is there has been checked, and taking VNs away removes no VRF.
-/
namespace VxlanRouting

/-- What is left of an operation that is done as a whole or not at all. -/
def outcome {ε σ : Type} (s : σ) : Except ε σ → EStateM.Result ε σ Unit
  | .ok s' => .ok () s'
  | .error cause => .error cause s

/-- An operation on a part of the state; what it has written to the part stays in any case. -/
def onPart {ε σ τ α : Type} (part : σ → τ) (put : σ → τ → σ) (m : EStateM ε τ α) :
    EStateM ε σ α := fun s =>
  match m.run (part s) with
  | .ok a t => .ok a (put s t)
  | .error cause t => .error cause (put s t)

section

variable {ε σ τ α : Type} {part : σ → τ} {put : σ → τ → σ} {s : σ}

theorem run_onPart_of_ok {m : EStateM ε τ α} {a : α} {t : τ} (h : m.run (part s) = .ok a t) :
    (onPart part put m).run s = .ok a (put s t) := by
  simp only [onPart, EStateM.run] at h ⊢
  rw [h]

theorem run_onPart {m : EStateM ε τ Unit} {r : Except ε τ} (hput : put s (part s) = s)
    (h : m.run (part s) = outcome (part s) r) :
    (onPart part put m).run s = outcome s (r.map (put s)) := by
  cases r with
  | ok t => exact run_onPart_of_ok h
  | error cause =>
    simp only [onPart, EStateM.run] at h ⊢
    rw [h]
    simp only [outcome, Except.map]
    rw [hput]

end

theorem run_adaptExcept_outcome {ε ε' σ : Type} {f : ε → ε'} {m : EStateM ε σ Unit} {s : σ}
    {r : Except ε σ} (h : m.run s = outcome s r) :
    (m.adaptExcept f).run s = outcome s (r.mapError f) := by
  rw [EStateM.run_adaptExcept, h]
  cases r <;> rfl

/-- An operation whose refusal is not passed on; what it has written until then stays. -/
def passOver {ε σ : Type} (m : EStateM ε σ Unit) : EStateM ε σ Unit := fun s =>
  match m.run s with
  | .ok _ t => .ok () t
  | .error _ t => .ok () t

theorem run_passOver {ε σ : Type} {m : EStateM ε σ Unit} {s : σ} {r : Except ε σ}
    (h : m.run s = outcome s r) : (passOver m).run s = .ok () (r.toOption.getD s) := by
  simp only [passOver, EStateM.run] at h ⊢
  rw [h]
  cases r <;> rfl

/-! ### The table of VRFs -/

namespace Entries

variable {κ α : Type} [DecidableEq κ]

/-- Erasing a key that is not there changes nothing. -/
theorem erase_of_get?_eq_none {k : κ} {l : List (κ × α)} (h : get? k l = none) : erase k l = l := by
  rw [get?_eq_none_iff] at h
  refine List.filter_eq_self.mpr fun e he => ?_
  have hne : e.1 ≠ k := fun hk => h (hk ▸ List.mem_map_of_mem he)
  simp [hne]

end Entries

namespace VrfTable

/-- The names of the VRFs that have a VN, but for the one to keep. -/
def carriers (t : VrfTable) (vn : String) (keep : Option String) : List String :=
  (t.vrfs.filter fun v => decide (v.vn = some vn ∧ some v.name ≠ keep)).map (·.name)

end VrfTable

namespace Steps

/-- Looks for a VRF. -/
def findVrf (name : String) : EStateM VrfError VrfTable Vrf := do
  match (← get).get? name with
  | some v => return v
  | none => throw (.unknown name)

/-- Adds a VRF: the number, the name and the identifier are checked in this order, and the
identifier is written before the VRF. -/
def addVrf (name : String) (vni : Option Nat) : EStateM VrfError VrfTable Unit := do
  let vni ← match vni.map Vni.ofNat with
    | none => pure none
    | some (.ok w) => pure (some w)
    | some (.error cause) => throw (.badVni cause)
  if (← get).byName.contains name then
    throw (.taken name)
  if let some w := vni then
    if (← get).byVni.contains w then
      throw .vniTaken
    modify fun t => { t with byVni := t.byVni.insert w name }
  modify fun t => { t with byName := t.byName.insert name { name, vni } }

/-- Removes a VRF: the name is taken out first, and then what was found there is looked at. -/
def removeVrf (name : String) : EStateM VrfError VrfTable Vrf := do
  let found := (← get).get? name
  modify fun t => { t with byName := t.byName.erase name }
  match found with
  | none => throw (.unknown name)
  | some v =>
    if let some w := v.vni then
      modify fun t => { t with byVni := t.byVni.erase w }
    return v

def setVn (name : String) (vn : Option String) : EStateM VrfError VrfTable Unit := do
  let _ ← findVrf name
  modify (·.modify name fun v => { v with vn })

/-- Takes the VN from VRFs, one after the other; a VRF that is not there is passed over. -/
def clearVns : List String → EStateM VrfError VrfTable Unit
  | [] => pure ()
  | name :: names => do
    passOver (setVn name none)
    clearVns names

/-- Takes a VN from all VRFs that have it, but for the one to keep. -/
def clearVn (vn : String) (keep : Option String) : EStateM VrfError VrfTable Unit := do
  clearVns ((← get).carriers vn keep)

end Steps

namespace VrfTable

theorem run_findVrf (t : VrfTable) (name : String) :
    (Steps.findVrf name).run t = match t.get? name with
      | some v => .ok v t
      | none => .error (.unknown name) t := by
  simp only [Steps.findVrf, EStateM.run_bind, EStateM.run_get]
  cases t.get? name <;> rfl

theorem run_addVrf (t : VrfTable) (name : String) (vni : Option Nat) :
    (Steps.addVrf name vni).run t = outcome t (t.add name vni) := by
  simp only [Steps.addVrf, add]
  cases vni.map Vni.ofNat with
  | none => by_cases hn : t.byName.contains name = true <;> simp [hn, outcome]
  | some r =>
    cases r with
    | error cause => rfl
    | ok w =>
      by_cases hn : t.byName.contains name = true
      · simp [hn, outcome]
      · by_cases hw : t.byVni.contains w = true <;> simp [hn, hw, outcome]

/-- What is taken out before the look at it is nothing if the look fails. -/
theorem run_removeVrf (t : VrfTable) (name : String) :
    (Steps.removeVrf name).run t = match t.remove name with
      | .ok (v, t') => .ok v t'
      | .error cause => .error cause t := by
  simp only [Steps.removeVrf, remove, EStateM.run_bind, EStateM.run_get, EStateM.run_modify]
  cases hv : t.get? name with
  | none =>
    have he : t.byName.erase name = t.byName :=
      congrArg OrderedMap.mk (Entries.erase_of_get?_eq_none hv)
    show EStateM.Result.error _ { t with byName := t.byName.erase name } = _
    rw [he]
  | some v =>
    dsimp only
    cases v.vni <;> rfl

theorem run_setVn (t : VrfTable) (name : String) (vn : Option String) :
    (Steps.setVn name vn).run t = outcome t (t.setVn name vn) := by
  have hc : t.byName.contains name = (t.get? name).isSome := rfl
  simp only [Steps.setVn, setVn, EStateM.run_bind, run_findVrf]
  rw [hc]
  cases t.get? name <;> rfl

theorem modify_of_get?_eq_none {t : VrfTable} {name : String} (h : t.get? name = none)
    (f : Vrf → Vrf) : t.modify name f = t := by
  have hkeys : name ∉ t.byName.entries.map (·.1) := Entries.get?_eq_none_iff.mp h
  have hmap : t.byName.modify name f = t.byName := by
    refine congrArg OrderedMap.mk ((List.map_congr_left fun e he => ?_).trans (List.map_id _))
    have hne : e.1 ≠ name := fun hn => hkeys (hn ▸ List.mem_map_of_mem he)
    simp [hne]
  simp only [modify]
  rw [hmap]

/-- The VRFs with these names have no VN. -/
def cleared (t : VrfTable) (names : List String) : VrfTable :=
  { t with byName := t.byName.mapValues fun name v =>
      if name ∈ names then { v with vn := none } else v }

theorem get?_cleared (t : VrfTable) (names : List String) (name : String) :
    (t.cleared names).get? name =
      (t.get? name).map fun v => if name ∈ names then { v with vn := none } else v := by
  simp [cleared, get?]

theorem cleared_nil (t : VrfTable) : t.cleared [] = t := by
  simp [cleared, OrderedMap.mapValues, Entries.mapValues]

theorem cleared_modify (t : VrfTable) (name : String) (names : List String) :
    (t.modify name fun v => { v with vn := none }).cleared names = t.cleared (name :: names) := by
  simp only [cleared, modify, OrderedMap.modify, OrderedMap.mapValues, Entries.mapValues,
    List.map_map, List.mem_cons]
  congr 3
  funext e
  by_cases hn : e.1 = name <;> by_cases hm : e.1 ∈ names <;> simp [hn, hm]

/-- Taking VNs away never fails, whatever names are given. -/
theorem run_clearVns (t : VrfTable) (names : List String) :
    (Steps.clearVns names).run t = .ok () (t.cleared names) := by
  induction names generalizing t with
  | nil =>
    rw [cleared_nil]
    rfl
  | cons name names ih =>
    have hstep : (t.setVn name none).toOption.getD t =
        t.modify name fun v => { v with vn := none } := by
      have hc : t.byName.contains name = (t.get? name).isSome := rfl
      simp only [setVn]
      rw [hc]
      cases hv : t.get? name with
      | none => exact (modify_of_get?_eq_none hv _).symm
      | some v => rfl
    rw [Steps.clearVns, EStateM.run_bind, run_passOver (run_setVn t name none), hstep]
    dsimp only
    rw [ih, cleared_modify]

end VrfTable

/-- Under distinct names, the VRFs of these names are those with the VN. -/
theorem Tables.Distinct.cleared_carriers {db : Tables} (h : db.Distinct) (vn : String)
    (keep : Option String) :
    db.vrfs.cleared (db.vrfs.carriers vn keep) =
      { db.vrfs with byName := db.vrfs.byName.mapValues fun _ v =>
        if v.vn = some vn ∧ some v.name ≠ keep then { v with vn := none } else v } := by
  simp only [VrfTable.cleared, OrderedMap.mapValues, Entries.mapValues]
  congr 2
  refine List.map_congr_left fun e he => ?_
  have hget : db.vrfs.get? e.1 = some e.2 := Entries.get?_of_mem h.vrfs he
  have hname : e.2.name = e.1 := h.named e.1 e.2 hget
  have hmem : e.1 ∈ db.vrfs.carriers vn keep ↔ e.2.vn = some vn ∧ some e.2.name ≠ keep := by
    simp only [VrfTable.carriers, List.mem_map, List.mem_filter, decide_eq_true_eq]
    constructor
    · rintro ⟨v, ⟨hv, hcond⟩, hn⟩
      have hv' := h.get?_of_mem hv
      rw [hn, hget] at hv'
      cases hv'
      exact hcond
    · intro hcond
      exact ⟨e.2, ⟨List.mem_map.mpr ⟨e, he, rfl⟩, hcond⟩, hname⟩
  simp only [hmem]

/-! ### Engines -/

namespace Engine

def setVrfs (e : Engine) (vrfs : VrfTable) : Engine :=
  { e with tables := { e.tables with vrfs } }

end Engine

namespace Steps

def addInterface (i : Interface) : EStateM InterfaceError InterfaceTable Unit := do
  if (← get).contains i.name then
    throw (.taken i.name)
  modify (·.insert i.name i)

def replaceInterface (i : Interface) : EStateM InterfaceError InterfaceTable Unit := do
  unless (← get).contains i.name do
    throw (.unknown i.name)
  modify (·.insert i.name i)

def onVrfs {α : Type} : EStateM VrfError VrfTable α → EStateM VrfError Engine α :=
  onPart (·.tables.vrfs) Engine.setVrfs

def onInterfaces {α : Type} :
    EStateM InterfaceError InterfaceTable α → EStateM InterfaceError Engine α :=
  onPart (·.tables.interfaces) Engine.setInterfaces

/-- Applies the configuration of a VN. Its VRF is looked for at the start, and once more after the
VN has been taken from other VRFs. -/
def updateVn (c : VnConfig) : EStateM VrfError Engine Unit := do
  let _ ← onVrfs (findVrf c.vrf)
  onVrfs (clearVn c.name (some c.vrf))
  onVrfs (setVn c.vrf (some c.name))
  let (routers, affected) := (← get).routers.configure c
  modify (·.setRouters routers)
  modify (·.walkAll affected)

/-- Adds or replaces an interface, whichever the table takes. -/
def updateInterface (i : Interface) : EStateM InterfaceError Engine Unit := do
  if (← get).tables.interfaces.contains i.name then
    onInterfaces (replaceInterface i)
  else
    onInterfaces (addInterface i)
  modify (·.notifyInterface i.name)

end Steps

theorem InterfaceTable.run_addInterface (t : InterfaceTable) (i : Interface) :
    (Steps.addInterface i).run t = outcome t (t.add i) := by
  simp only [Steps.addInterface, add]
  by_cases h : t.contains i.name = true <;> simp [h, outcome, put]

theorem InterfaceTable.run_replaceInterface (t : InterfaceTable) (i : Interface) :
    (Steps.replaceInterface i).run t = outcome t (t.replace i) := by
  simp only [Steps.replaceInterface, replace]
  by_cases h : t.contains i.name = true <;> simp [h, outcome, put]

namespace Engine

theorem run_onVrfs {e : Engine} {α : Type} {m : EStateM VrfError VrfTable α} {a : α} {t : VrfTable}
    (h : m.run e.tables.vrfs = .ok a t) : (Steps.onVrfs m).run e = .ok a (e.setVrfs t) :=
  run_onPart_of_ok h

theorem run_onInterfaces {e : Engine} {m : EStateM InterfaceError InterfaceTable Unit}
    {t : InterfaceTable} (h : m.run e.tables.interfaces = .ok () t) :
    (Steps.onInterfaces m).run e = .ok () (e.setInterfaces t) :=
  run_onPart_of_ok h

/-- The interface is known or not, so one of the two ways is open. -/
theorem run_updateInterface (e : Engine) (i : Interface) :
    (Steps.updateInterface i).run e = .ok () (e.updateInterface i) := by
  rw [Steps.updateInterface, EStateM.run_bind, EStateM.run_get]
  dsimp only
  by_cases h : e.tables.interfaces.contains i.name = true
  · have hr : (Steps.replaceInterface i).run e.tables.interfaces =
        .ok () (e.tables.interfaces.put i) := by
      rw [InterfaceTable.run_replaceInterface, InterfaceTable.replace, if_pos h]
      rfl
    rw [if_pos h, EStateM.run_bind, run_onInterfaces hr]
    rfl
  · have ha : (Steps.addInterface i).run e.tables.interfaces =
        .ok () (e.tables.interfaces.put i) := by
      rw [InterfaceTable.run_addInterface, InterfaceTable.add, if_neg h]
      rfl
    rw [if_neg h, EStateM.run_bind, run_onInterfaces ha]
    rfl

/-- The VRFs once the VN has been given to its VRF. -/
def movedVn (t : VrfTable) (c : VnConfig) : VrfTable :=
  (t.cleared (t.carriers c.name (some c.vrf))).modify c.vrf fun v => { v with vn := some c.name }

/-- Once the VRF has been found, nothing fails. -/
theorem run_updateVn (e : Engine) (c : VnConfig) :
    (Steps.updateVn c).run e = match e.tables.vrfs.get? c.vrf with
      | none => .error (.unknown c.vrf) e
      | some _ => .ok () (((e.setVrfs (movedVn e.tables.vrfs c)).setRouters
          (e.routers.configure c).1).walkAll (e.routers.configure c).2) := by
  have hfind := e.tables.vrfs.run_findVrf c.vrf
  rw [Steps.updateVn, EStateM.run_bind]
  cases hv : e.tables.vrfs.get? c.vrf with
  | none =>
    rw [hv] at hfind
    simp only [EStateM.run] at hfind
    simp only [Steps.onVrfs, onPart, EStateM.run, hfind]
    rfl
  | some v =>
    rw [hv] at hfind
    let t := e.tables.vrfs.cleared (e.tables.vrfs.carriers c.name (some c.vrf))
    have hclear : (Steps.onVrfs (Steps.clearVn c.name (some c.vrf))).run e =
        .ok () (e.setVrfs t) := run_onVrfs (VrfTable.run_clearVns _ _)
    have hset : (Steps.onVrfs (Steps.setVn c.vrf (some c.name))).run (e.setVrfs t) =
        .ok () (e.setVrfs (movedVn e.tables.vrfs c)) := by
      refine run_onVrfs ((VrfTable.run_setVn t _ _).trans ?_)
      have hc : t.byName.contains c.vrf = true := by
        show (t.get? c.vrf).isSome = true
        rw [VrfTable.get?_cleared, hv]
        rfl
      rw [VrfTable.setVn, if_pos hc]
      rfl
    have hfound : (Steps.onVrfs (Steps.findVrf c.vrf)).run e = .ok v e := run_onVrfs hfind
    rw [hfound]
    dsimp only
    rw [EStateM.run_bind, hclear]
    dsimp only
    rw [EStateM.run_bind, hset]
    rfl

end Engine

/-- Under distinct names, the VN is given to its VRF as a whole. -/
theorem Tables.Distinct.setVrfs_movedVn {e : Engine} (h : e.tables.Distinct) (c : VnConfig) :
    e.setVrfs (Engine.movedVn e.tables.vrfs c) = e.moveVn c.name c.vrf := by
  simp only [Engine.movedVn]
  rw [h.cleared_carriers]
  rfl

end VxlanRouting
