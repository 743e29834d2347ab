import VxlanRouting.Proofs.Filled

/-!
The two indexes of the table of VRFs. Adding a VRF writes its name and perhaps an identifier,
removing one takes both out again, and a change of the VN touches neither. So whatever changes lead
to a table, those that are refused among them, the index of identifiers names a VRF exactly if that
VRF is there and has the identifier. This hangs on an identifier being looked up before it is given
away: the VRF that has it keeps it until it is removed.
-/
namespace VxlanRouting

theorem Vni.ofNat_eq_ok_iff {n : Nat} {vni : Vni} : ofNat n = .ok vni ↔ vni.value = n := by
  constructor
  · intro h
    simp only [ofNat] at h
    split at h
    · split at h <;> cases h
      rfl
    · cases h
  · rintro rfl
    exact ofNat_value vni

theorem OrderedMap.contains_iff {κ α : Type} [DecidableEq κ] {m : OrderedMap κ α} {k : κ} :
    m.contains k = true ↔ m.get? k ≠ none := by
  simp [contains, Option.isSome_iff_ne_none]

namespace VrfTable

/-- What is done with a table of VRFs. -/
inductive Change where
  | add (name : String) (vni : Option Nat)
  | remove (name : String)
  | setVn (name : String) (vn : Option String)

def attempt (t : VrfTable) : Change → Except VrfError VrfTable
  | .add name vni => t.add name vni
  | .remove name => (t.remove name).map (·.2)
  | .setVn name vn => t.setVn name vn

/-- The table after a change, or as it was if the change is refused. -/
def change (t : VrfTable) (c : Change) : VrfTable :=
  match t.attempt c with
  | .ok t' => t'
  | .error _ => t

/-- The table after a list of changes. -/
def changes (t : VrfTable) (l : List Change) : VrfTable := l.foldl change t

/-- One table has an empty VRF more than the other, under a new name and with an identifier that no
VRF has, or with none. -/
structure Adds (t t' : VrfTable) (name : String) (vni : Option Vni) : Prop where
  fresh : t.get? name = none
  free : ∀ w, vni = some w → t.byVni.get? w = none
  get? : ∀ n, t'.get? n = if n = name then some { name, vni } else t.get? n
  index : ∀ w, t'.byVni.get? w = if vni = some w then some name else t.byVni.get? w

/-- One table has lost a VRF of the other, and the identifier of this VRF. -/
structure Removes (t t' : VrfTable) (name : String) (v : Vrf) : Prop where
  found : t.get? name = some v
  get? : ∀ n, t'.get? n = if n = name then none else t.get? n
  index : ∀ w, t'.byVni.get? w = if v.vni = some w then none else t.byVni.get? w

theorem adds_of_add {t t' : VrfTable} {name : String} {vni : Option Nat}
    (h : t.add name vni = .ok t') :
    ∃ w : Option Vni, w.map (·.value) = vni ∧ t.Adds t' name w := by
  simp only [add] at h
  split at h
  · cases h
  · next w hw =>
    obtain ⟨n, rfl, hn⟩ := Option.map_eq_some_iff.mp hw
    split at h
    · cases h
    · next hname =>
      split at h
      · cases h
      · next hvni =>
        cases h
        rw [OrderedMap.contains_iff, Decidable.not_not] at hname hvni
        refine ⟨some w, congrArg some (Vni.ofNat_eq_ok_iff.mp hn), hname, ?_, ?_, fun u => ?_⟩
        · rintro u ⟨⟩
          exact hvni
        · exact get?_of_insert rfl
        · split
          · next hu =>
            cases hu
            exact OrderedMap.get?_insert_self _ _ _
          · next hu => exact OrderedMap.get?_insert_of_ne _ _ fun he => hu (by rw [he])
  · next hw =>
    split at h
    · cases h
    · next hname =>
      cases h
      rw [OrderedMap.contains_iff, Decidable.not_not] at hname
      refine ⟨none, (Option.map_eq_none_iff.mp hw).symm, hname, ?_, ?_, fun u => ?_⟩
      · rintro u ⟨⟩
      · exact get?_of_insert rfl
      · exact (if_neg (Option.some_ne_none u).symm).symm

/-- A new name and a free identifier are enough for a VRF to be added. -/
theorem exists_add {t : VrfTable} {name : String} {vni : Vni} (hname : t.get? name = none)
    (hvni : t.byVni.get? vni = none) : ∃ t', t.add name (some vni.value) = .ok t' := by
  have hn : ¬ t.byName.contains name = true := by
    rw [OrderedMap.contains_iff, Decidable.not_not]
    exact hname
  have hv : ¬ t.byVni.contains vni = true := by
    rw [OrderedMap.contains_iff, Decidable.not_not]
    exact hvni
  simp only [add, Option.map_some, Vni.ofNat_value]
  rw [if_neg hn, if_neg hv]
  exact ⟨_, rfl⟩

theorem removes_of_remove {t t' : VrfTable} {name : String} {v : Vrf}
    (h : t.remove name = .ok (v, t')) : t.Removes t' name v := by
  have hget : ∀ n, t'.get? n = if n = name then none else t.get? n :=
    get?_of_erase (byName_of_remove h)
  simp only [remove] at h
  split at h
  · cases h
  · next hv =>
    cases h
    refine ⟨hv, hget, fun w => ?_⟩
    dsimp only
    split
    · next vni hvni =>
      rw [hvni]
      split
      · next he =>
        cases he
        exact OrderedMap.get?_erase_self _ _
      · next he => exact OrderedMap.get?_erase_of_ne _ fun hw => he (by rw [hw])
    · next hvni => rw [hvni, if_neg (Option.some_ne_none w).symm]

theorem eq_of_setVn {t t' : VrfTable} {name : String} {vn : Option String}
    (h : t.setVn name vn = .ok t') : t' = t.modify name fun v => { v with vn } := by
  simp only [setVn] at h
  split at h <;> cases h
  rfl

/-- VRFs stand under their own names, and an identifier is indexed under the name of the VRF that
has it. -/
structure Indexed (t : VrfTable) : Prop where
  named : ∀ name v, t.get? name = some v → v.name = name
  indexed : ∀ vni name, t.byVni.get? vni = some name ↔
    ∃ v, t.get? name = some v ∧ v.vni = some vni

theorem indexed_empty : Indexed {} where
  named name v h := by cases h
  indexed vni name := by
    constructor
    · intro h
      cases h
    · rintro ⟨v, hv, _⟩
      cases hv

namespace Indexed

variable {t : VrfTable} (h : t.Indexed)

include h

/-- No two VRFs have the same identifier. -/
theorem eq_of_vni {n n' : String} {v v' : Vrf} {vni : Vni} (hv : t.get? n = some v)
    (hv' : t.get? n' = some v') (hvni : v.vni = some vni) (hvni' : v'.vni = some vni) : n = n' := by
  have hn : t.byVni.get? vni = some n := (h.indexed vni n).mpr ⟨v, hv, hvni⟩
  have hn' : t.byVni.get? vni = some n' := (h.indexed vni n').mpr ⟨v', hv', hvni'⟩
  exact Option.some.inj (hn.symm.trans hn')

theorem add {t' : VrfTable} {name : String} {vni : Option Vni} (ha : t.Adds t' name vni) :
    t'.Indexed := by
  refine ⟨fun n v hv => ?_, fun w n => ?_⟩
  · rw [ha.get?] at hv
    split at hv
    · next hn =>
      cases hv
      exact hn.symm
    · exact h.named n v hv
  · rw [ha.index, ha.get?]
    by_cases hw : vni = some w
    · -- the identifier was free, so no other VRF has it
      have hnone : ¬ ∃ v, t.get? n = some v ∧ v.vni = some w := by
        rw [← h.indexed, ha.free w hw]
        exact (Option.some_ne_none n).symm
      rw [if_pos hw]
      split
      · next hn => simp [hn, hw]
      · next hn => simp [Ne.symm hn, hnone]
    · rw [if_neg hw]
      split
      · next hn =>
        subst hn
        rw [h.indexed, ha.fresh]
        simp [hw]
      · exact h.indexed w n

theorem remove {t' : VrfTable} {name : String} {v : Vrf} (hr : t.Removes t' name v) :
    t'.Indexed := by
  refine ⟨fun n v' hv' => ?_, fun w n => ?_⟩
  · rw [hr.get?] at hv'
    split at hv'
    · cases hv'
    · exact h.named n v' hv'
  · rw [hr.index, hr.get?]
    by_cases hn : n = name
    · -- what the index had for the name is the identifier that it loses
      subst hn
      have hw : t.byVni.get? w = some n ↔ v.vni = some w := by
        rw [h.indexed, hr.found]
        simp
      split
      · simp
      · next hne => simp [hw, hne]
    · rw [if_neg hn]
      split
      · next hw =>
        have hnone : ¬ ∃ v', t.get? n = some v' ∧ v'.vni = some w := by
          rintro ⟨v', hv', hvni⟩
          exact hn (h.eq_of_vni hv' hr.found hvni hw)
        simp [hnone]
      · exact h.indexed w n

/-- A change of VRFs that leaves names and identifiers alone goes unseen. -/
theorem modify (name : String) (f : Vrf → Vrf) (hname : ∀ v, (f v).name = v.name)
    (hvni : ∀ v, (f v).vni = v.vni) : (t.modify name f).Indexed := by
  have hget : ∀ n, (t.modify name f).get? n =
      (t.get? n).map fun v => if n = name then f v else v := by
    intro n
    by_cases hn : n = name
    · subst hn
      simp
    · rw [get?_modify_of_ne t f hn]
      simp [hn]
  refine ⟨fun n v hv => ?_, fun w n => ?_⟩
  · rw [hget] at hv
    obtain ⟨u, hu, rfl⟩ := Option.map_eq_some_iff.mp hv
    have hn : u.name = n := h.named n u hu
    split
    · rw [hname, hn]
    · exact hn
  · have hi : (t.modify name f).byVni = t.byVni := rfl
    rw [hi, h.indexed, hget]
    cases t.get? n with
    | none => simp
    | some u => by_cases hn : n = name <;> simp [hn, hvni]

theorem change (c : Change) : (t.change c).Indexed := by
  simp only [VrfTable.change]
  split
  · next t' ht =>
    cases c with
    | add name vni =>
      obtain ⟨w, _, ha⟩ := adds_of_add ht
      exact h.add ha
    | remove name =>
      simp only [attempt] at ht
      cases hr : t.remove name with
      | error e =>
        rw [hr] at ht
        cases ht
      | ok r =>
        rw [hr] at ht
        cases ht
        exact h.remove (removes_of_remove hr)
    | setVn name vn =>
      rw [eq_of_setVn ht]
      exact h.modify name _ (fun _ => rfl) fun _ => rfl
  · exact h

theorem changes (l : List Change) : (t.changes l).Indexed := by
  induction l generalizing t with
  | nil => exact h
  | cons c l ih => exact ih (h.change c)

/-- Looking for an identifier finds the VRF that has it. -/
theorem getByVni_eq_ok_iff {n : Nat} {v : Vrf} :
    t.getByVni n = .ok v ↔
      (∃ name, t.get? name = some v) ∧ ∃ vni, v.vni = some vni ∧ vni.value = n := by
  constructor
  · intro hv
    simp only [getByVni] at hv
    split at hv
    · cases hv
    · next vni hvni =>
      split at hv
      · cases hv
      · next name hname =>
        obtain ⟨u, hu, hw⟩ := (h.indexed vni name).mp hname
        simp only [get, hu] at hv
        cases hv
        exact ⟨⟨name, hu⟩, vni, hw, Vni.ofNat_eq_ok_iff.mp hvni⟩
  · rintro ⟨⟨name, hv⟩, vni, hvni, rfl⟩
    have hname : t.byVni.get? vni = some name := (h.indexed vni name).mpr ⟨v, hv, hvni⟩
    simp only [getByVni, Vni.ofNat_value, hname, get, hv]

/-- The identifier of a VRF that is removed can be given to a VRF of any new name. -/
theorem exists_add_of_remove {t' : VrfTable} {name name' : String} {v : Vrf} {vni : Vni}
    (hr : t.Removes t' name v) (hvni : v.vni = some vni) (hnew : t'.get? name' = none) :
    ∃ t'', t'.add name' (some vni.value) = .ok t'' ∧
      ∃ v', t''.getByVni vni.value = .ok v' ∧ v'.name = name' := by
  have hfree : t'.byVni.get? vni = none := by
    rw [hr.index, if_pos hvni]
  obtain ⟨t'', ha⟩ := exists_add hnew hfree
  obtain ⟨w, hw, hadds⟩ := adds_of_add ha
  have hv : t''.get? name' = some { name := name', vni := w } := by
    rw [hadds.get?, if_pos rfl]
  obtain ⟨u, rfl, hu⟩ := Option.map_eq_some_iff.mp hw
  exact ⟨t'', ha, _, ((h.remove hr).add hadds).getByVni_eq_ok_iff.mpr ⟨⟨name', hv⟩, u, rfl, hu⟩, rfl⟩

end Indexed

/-- After any changes, every VRF stands under its name, and the index has an identifier under a name
exactly if the VRF of that name has it. So no two VRFs share an identifier, the VRF that has one is
found by it, and none is found where none has it. Once the VRF is removed, its identifier is free
for a VRF of any new name. -/
theorem changes_indexed (l : List Change) :
    (∀ name v, (changes {} l).get? name = some v → v.name = name) ∧
      (∀ vni name, (changes {} l).byVni.get? vni = some name ↔
        ∃ v, (changes {} l).get? name = some v ∧ v.vni = some vni) ∧
      (∀ name name' v v' vni, (changes {} l).get? name = some v →
        (changes {} l).get? name' = some v' → v.vni = some vni → v'.vni = some vni →
          name = name') ∧
      (∀ n v, (changes {} l).getByVni n = .ok v ↔
        (∃ name, (changes {} l).get? name = some v) ∧ ∃ vni, v.vni = some vni ∧ vni.value = n) ∧
      (∀ name v t, (changes {} l).remove name = .ok (v, t) → ∀ vni, v.vni = some vni →
        ∀ name', t.get? name' = none → ∃ t', t.add name' (some vni.value) = .ok t' ∧
          ∃ v', t'.getByVni vni.value = .ok v' ∧ v'.name = name') := by
  have h : (changes {} l).Indexed := indexed_empty.changes l
  refine ⟨h.named, h.indexed, fun _ _ _ _ _ => h.eq_of_vni, fun _ _ => h.getByVni_eq_ok_iff, ?_⟩
  intro name v t hr vni hvni name' hnew
  exact h.exists_add_of_remove (removes_of_remove hr) hvni hnew

/-- An identifier is refused while a VRF has it, whatever else was tried, and is free afterwards. -/
example : (changes {} [.add "a" (some 7), .add "b" (some 7), .remove "b"]).byVni.entries =
      [(⟨7, by decide, by decide⟩, "a")] ∧
    ((changes {} [.add "a" (some 7), .remove "a"]).add "b" (some 7)).isOk = true := by
  decide +kernel

end VrfTable

end VxlanRouting
