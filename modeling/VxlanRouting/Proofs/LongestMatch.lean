import Mathlib.Data.Finmap
import Mathlib.Data.List.Sort
import VxlanRouting.Proofs.LeadingBits

/-!
Maps of prefixes against finite maps. After any changes, what a map has for a prefix hangs on the
changes at this prefix alone, and it is what a finite map has after the same changes. The order of
the entries, the search for the longest match and the split by families follow from this and from
the order of the keys.
-/
namespace VxlanRouting

namespace PrefixMap

variable {α : Type}

namespace Change

/-- What the prefix of the change has after it. -/
def after : Change α → Option α → Option α
  | .insert _ v, _ => some v
  | .remove _, _ => none
  | .update _ f, o => o.map f

/-- What a prefix has after a change of any prefix. -/
def effect (c : Change α) (p : Prefix) (o : Option α) : Option α :=
  if c.dest = p then c.after o else o

/-- The change of a finite map, and the value that the prefix had before. -/
def apply (s : Finmap fun _ : Prefix => α) (c : Change α) :
    (Finmap fun _ : Prefix => α) × Option α :=
  let s' := match c with
    | .insert p v => s.insert p v
    | .remove p => s.erase p
    | .update p f =>
      match s.lookup p with
      | some v => s.insert p (f v)
      | none => s
  (s', s.lookup c.dest)

/-- The changes of a finite map, and what each of them found. -/
def applyAll (s : Finmap fun _ : Prefix => α) :
    List (Change α) → (Finmap fun _ : Prefix => α) × List (Option α)
  | [] => (s, [])
  | c :: cs =>
    let r := apply s c
    let rs := applyAll r.1 cs
    (rs.1, r.2 :: rs.2)

theorem lookup_apply (s : Finmap fun _ : Prefix => α) (c : Change α) (p : Prefix) :
    (apply s c).1.lookup p = c.effect p (s.lookup p) := by
  by_cases hp : c.dest = p
  · subst hp
    rw [Change.effect, if_pos rfl]
    cases c with
    | insert p v => exact Finmap.lookup_insert s
    | remove p => exact Finmap.lookup_erase p s
    | update p f =>
      simp only [apply, dest, after]
      cases hs : s.lookup p with
      | none => exact hs
      | some v => exact Finmap.lookup_insert s
  · rw [Change.effect, if_neg hp]
    cases c with
    | insert q v => exact Finmap.lookup_insert_of_ne s (Ne.symm hp)
    | remove q => exact Finmap.lookup_erase_ne (Ne.symm hp)
    | update q f =>
      simp only [apply]
      cases hs : s.lookup q with
      | none => rfl
      | some v => exact Finmap.lookup_insert_of_ne s (Ne.symm hp)

end Change

theorem get?_change (m : PrefixMap α) (c : Change α) (p : Prefix) :
    (m.change c).1.get? p = c.effect p (m.get? p) := by
  by_cases hp : c.dest = p
  · subst hp
    rw [Change.effect, if_pos rfl]
    cases c with
    | insert p v => exact OrderedMap.get?_insert_self m p v
    | remove p => exact OrderedMap.get?_erase_self m p
    | update p f => exact OrderedMap.get?_modify_self m p f
  · rw [Change.effect, if_neg hp]
    cases c with
    | insert q v => exact OrderedMap.get?_insert_of_ne m v (Ne.symm hp)
    | remove q => exact OrderedMap.get?_erase_of_ne m (Ne.symm hp)
    | update q f => exact OrderedMap.get?_modify_of_ne m f (Ne.symm hp)

theorem sorted_change {m : PrefixMap α} (h : m.Sorted) (c : Change α) : (m.change c).1.Sorted := by
  cases c with
  | insert p v => exact OrderedMap.sorted_insert h p v
  | remove p => exact OrderedMap.sorted_erase h p
  | update p f => exact OrderedMap.sorted_mapValues h _

theorem sorted_changes {m : PrefixMap α} (h : m.Sorted) (cs : List (Change α)) :
    (m.changes cs).1.Sorted := by
  induction cs generalizing m with
  | nil => exact h
  | cons c cs ih => exact ih (sorted_change h c)

/-- A prefix has what the changes at this prefix left it, one after the other. -/
theorem get?_changes (m : PrefixMap α) (cs : List (Change α)) (p : Prefix) :
    (m.changes cs).1.get? p = cs.foldl (fun o c => c.effect p o) (m.get? p) := by
  induction cs generalizing m with
  | nil => rfl
  | cons c cs ih =>
    rw [List.foldl_cons, ← get?_change]
    exact ih _

/-- Changes of other prefixes may be left out. -/
theorem get?_changes_filter (m : PrefixMap α) (cs : List (Change α)) {p : Prefix}
    {keep : Change α → Bool} (h : ∀ c : Change α, c.dest = p → keep c = true) :
    (m.changes (cs.filter keep)).1.get? p = (m.changes cs).1.get? p := by
  rw [get?_changes, get?_changes, List.foldl_filter]
  congr 1
  funext o c
  split
  · rfl
  · next hc => exact (if_neg fun hd => hc (h c hd)).symm

/-- A finite map that is changed along with the map has the same values and finds the same. -/
theorem changes_eq_applyAll {m : PrefixMap α} {s : Finmap fun _ : Prefix => α}
    (h : ∀ p, m.get? p = s.lookup p) (cs : List (Change α)) :
    (m.changes cs).2 = (Change.applyAll s cs).2 ∧
      ∀ p, (m.changes cs).1.get? p = (Change.applyAll s cs).1.lookup p := by
  induction cs generalizing m s with
  | nil => exact ⟨rfl, h⟩
  | cons c cs ih =>
    have hstep : ∀ p, (m.change c).1.get? p = (Change.apply s c).1.lookup p := by
      intro p
      rw [get?_change, Change.lookup_apply, h p]
    obtain ⟨hfound, hvalues⟩ := ih hstep
    refine ⟨?_, hvalues⟩
    show m.get? c.dest :: _ = s.lookup c.dest :: _
    rw [h, hfound]

/-- What a prefix has that no change is about is what it had. -/
theorem exists_change_of_get? {cs : List (Change α)} {p : Prefix} {v : α}
    (h : ((∅ : PrefixMap α).changes cs).1.get? p = some v) : ∃ c ∈ cs, c.dest = p := by
  by_contra hn
  have hnone : cs.filter (fun c => decide (c.dest = p)) = [] := by
    refine List.filter_eq_nil_iff.mpr fun c hc hd => hn ⟨c, hc, ?_⟩
    simpa using hd
  rw [← get?_changes_filter ∅ cs fun c hc => decide_eq_true hc, hnone] at h
  cases h

theorem mem_entries_iff {m : PrefixMap α} (h : m.Sorted) {p : Prefix} {v : α} :
    (p, v) ∈ m.entries ↔ m.get? p = some v :=
  ⟨OrderedMap.get?_of_mem h, Entries.mem_of_get?⟩

theorem mem_lookup {m : PrefixMap α} (hm : m.Sorted) {q : Prefix} {e : Prefix × α}
    (h : m.lookup q = some e) : m.get? e.1 = some e.2 ∧ e.1.Leads q := by
  obtain ⟨he, hc⟩ := List.mem_filter.mp (mem_of_longest h)
  exact ⟨(mem_entries_iff hm).mp he, Prefix.contains_iff.mp (by simpa using hc)⟩

theorem length_le_of_lookup {m : PrefixMap α} {q : Prefix} {e : Prefix × α}
    (h : m.lookup q = some e) {p : Prefix} {v : α} (hv : m.get? p = some v) (hp : p.Leads q) :
    p.length ≤ e.1.length := by
  have hmem : (p, v) ∈ m.entries.filter fun e => e.1.Contains q :=
    List.mem_filter.mpr ⟨Entries.mem_of_get? hv, by simpa using Prefix.contains_iff.mpr hp⟩
  exact length_le_of_longest h hmem

theorem lookup_eq_none_iff {m : PrefixMap α} (hm : m.Sorted) {q : Prefix} :
    m.lookup q = none ↔ ∀ p v, m.get? p = some v → ¬ p.Leads q := by
  simp only [lookup]
  rw [longest_eq_none_iff, List.filter_eq_nil_iff]
  constructor
  · intro h p v hv hp
    exact h (p, v) (Entries.mem_of_get? hv) (by simpa using Prefix.contains_iff.mpr hp)
  · intro h e he hc
    exact h e.1 e.2 ((mem_entries_iff hm).mp he) (Prefix.contains_iff.mp (by simpa using hc))

/-- The longest match is the entry of greatest length among those that lead to the prefix. -/
theorem lookup_eq_some_iff {m : PrefixMap α} (hm : m.Sorted)
    (hc : ∀ p v, m.get? p = some v → p.Canonical) {q : Prefix} {e : Prefix × α} :
    m.lookup q = some e ↔ m.get? e.1 = some e.2 ∧ e.1.Leads q ∧
      ∀ p v, m.get? p = some v → p.Leads q → p.length ≤ e.1.length := by
  constructor
  · intro h
    obtain ⟨hv, hl⟩ := mem_lookup hm h
    exact ⟨hv, hl, fun p v hp hq => length_le_of_lookup h hp hq⟩
  · rintro ⟨hv, hl, hmax⟩
    cases hb : m.lookup q with
    | none => exact absurd hl ((lookup_eq_none_iff hm).mp hb e.1 e.2 hv)
    | some b =>
      obtain ⟨hbv, hbl⟩ := mem_lookup hm hb
      have hlen : b.1.length = e.1.length :=
        Nat.le_antisymm (hmax b.1 b.2 hbv hbl) (length_le_of_lookup hb hv hl)
      have hkey : b.1 = e.1 := hbl.eq_of_length (hc _ _ hbv) (hc _ _ hv) hl hlen
      rw [hkey, hv] at hbv
      exact congrArg some (Prod.ext hkey (Option.some.inj hbv).symm)

/-- Ascending entries are given by what the map has. -/
theorem entries_eq {l l' : List (Prefix × α)} (hl : (l.map (·.1)).Pairwise (· < ·))
    (hl' : (l'.map (·.1)).Pairwise (· < ·)) (h : ∀ e, e ∈ l ↔ e ∈ l') : l = l' := by
  have hlt : l.Pairwise (fun e e' => e.1 < e'.1) := List.pairwise_map.mp hl
  have hlt' : l'.Pairwise (fun e e' => e.1 < e'.1) := List.pairwise_map.mp hl'
  have hnodup : ∀ {k : List (Prefix × α)}, k.Pairwise (fun e e' => e.1 < e'.1) → k.Nodup := by
    intro k hk
    refine hk.imp fun {e e'} h he => ?_
    exact Prefix.lt_irrefl e.1 (he ▸ h)
  refine List.Perm.eq_of_pairwise (fun e e' _ _ he he' => ?_) hlt hlt'
    ((List.perm_ext_iff_of_nodup (hnodup hlt) (hnodup hlt')).mpr h)
  exact absurd (Prefix.lt_trans he he') (Prefix.lt_irrefl _)

/-- The map is a longest-match map of the entries of the finite map. -/
structure Models (m : PrefixMap α) (s : Finmap fun _ : Prefix => α) : Prop where
  get : ∀ p : Prefix, p.Canonical → m.get? p = s.lookup p
  size : m.size = s.keys.card
  /-- What is found is the entry of greatest length among those that lead to the prefix. -/
  lookup_some : ∀ q e, m.lookup q = some e ↔
    s.lookup e.1 = some e.2 ∧ e.1.Leads q ∧ ∀ p ∈ s, p.Leads q → p.length ≤ e.1.length
  lookup_none : ∀ q, m.lookup q = none ↔ ∀ p ∈ s, ¬ p.Leads q
  address : ∀ a, m.lookupAddress a = m.lookup (.host a)
  /-- Every entry is listed once, in order. -/
  ascending : m.keys.Pairwise (· < ·)
  listed : ∀ p v, (p, v) ∈ m.entries ↔ s.lookup p = some v

theorem size_eq_card {m : PrefixMap α} {s : Finmap fun _ : Prefix => α} (hm : m.Sorted)
    (h : ∀ p, m.get? p = s.lookup p) : m.size = s.keys.card := by
  have hkeys : m.keys.toFinset = s.keys := by
    ext p
    rw [List.mem_toFinset, Finmap.mem_keys, Finmap.mem_iff]
    constructor
    · intro hp
      obtain ⟨⟨_, v⟩, he, rfl⟩ := List.mem_map.mp hp
      exact ⟨v, h _ ▸ (mem_entries_iff hm).mp he⟩
    · rintro ⟨v, hv⟩
      exact List.mem_map_of_mem ((mem_entries_iff hm).mpr ((h p).trans hv))
  rw [← hkeys, List.toFinset_card_of_nodup (OrderedMap.nodup_keys hm)]
  exact (List.length_map _).symm

theorem models_of_get? {m : PrefixMap α} {s : Finmap fun _ : Prefix => α} (hm : m.Sorted)
    (hc : ∀ p v, m.get? p = some v → p.Canonical) (h : ∀ p, m.get? p = s.lookup p) :
    m.Models s where
  get p _ := h p
  size := size_eq_card hm h
  lookup_some q e := by
    rw [lookup_eq_some_iff hm hc, h]
    refine and_congr_right fun _ => and_congr_right fun _ =>
      ⟨fun hmax p hp => ?_, fun hmax p v hv => ?_⟩
    · obtain ⟨v, hv⟩ := Finmap.mem_iff.mp hp
      exact hmax p v ((h p).trans hv)
    · exact hmax p (Finmap.mem_of_lookup_eq_some ((h p).symm.trans hv))
  lookup_none q := by
    rw [lookup_eq_none_iff hm]
    refine ⟨fun hn p hp => ?_, fun hn p v hv => ?_⟩
    · obtain ⟨v, hv⟩ := Finmap.mem_iff.mp hp
      exact hn p v ((h p).trans hv)
    · exact hn p (Finmap.mem_of_lookup_eq_some ((h p).symm.trans hv))
  address _ := rfl
  ascending := hm
  listed p v := by rw [mem_entries_iff hm, h]

/-- The map that only the changes of one family make. -/
def familyMap (cs : List (Change α)) (f : Family) : PrefixMap α :=
  ((∅ : PrefixMap α).changes (cs.filter fun c => c.dest.family = f)).1

theorem get?_familyMap (cs : List (Change α)) {p : Prefix} {f : Family} :
    (familyMap cs f).get? p =
      if p.family = f then ((∅ : PrefixMap α).changes cs).1.get? p else none := by
  split
  · next hf =>
    refine get?_changes_filter ∅ cs fun c hc => ?_
    rw [hc]
    exact decide_eq_true hf
  · next hf =>
    cases hv : (familyMap cs f).get? p with
    | none => rfl
    | some v =>
      obtain ⟨c, hc, hd⟩ := exists_change_of_get? hv
      have hfam := (List.mem_filter.mp hc).2
      exact absurd (hd ▸ of_decide_eq_true hfam) hf

theorem sorted_run (cs : List (Change α)) : ((∅ : PrefixMap α).changes cs).1.Sorted :=
  sorted_changes OrderedMap.sorted_empty cs

theorem sorted_familyMap (cs : List (Change α)) (f : Family) : (familyMap cs f).Sorted :=
  sorted_run _

theorem mem_familyMap_iff {cs : List (Change α)} {f : Family} {e : Prefix × α} :
    e ∈ (familyMap cs f).entries ↔
      e.1.family = f ∧ e ∈ ((∅ : PrefixMap α).changes cs).1.entries := by
  rw [mem_entries_iff (sorted_run cs), mem_entries_iff (sorted_familyMap cs f), get?_familyMap]
  split
  · next h => simp [h]
  · next h => simp [h]

/-- The entries of version 4 come first, and each family has what its own changes made. -/
theorem entries_eq_families (cs : List (Change α)) :
    ((∅ : PrefixMap α).changes cs).1.entries =
      (familyMap cs .v4).entries ++ (familyMap cs .v6).entries := by
  refine entries_eq (sorted_run cs) ?_ fun e => ?_
  · rw [List.map_append]
    refine List.pairwise_append.mpr ⟨sorted_familyMap cs .v4, sorted_familyMap cs .v6,
      fun p hp q hq => ?_⟩
    obtain ⟨e, he, rfl⟩ := List.mem_map.mp hp
    obtain ⟨e', he', rfl⟩ := List.mem_map.mp hq
    have h4 : e.1.address.family = .v4 := (mem_familyMap_iff.mp he).1
    have h6 : e'.1.address.family = .v6 := (mem_familyMap_iff.mp he').1
    refine .inl (.inl ?_)
    rw [h4, h6]
    decide
  · rw [List.mem_append, mem_familyMap_iff, mem_familyMap_iff]
    cases e.1.family <;> simp

/-- A search never leaves the family of what it looks for. -/
theorem lookup_eq_familyMap (cs : List (Change α)) (q : Prefix) :
    ((∅ : PrefixMap α).changes cs).1.lookup q = (familyMap cs q.family).lookup q := by
  have hother : ∀ f, f ≠ q.family →
      (familyMap cs f).entries.filter (fun e => e.1.Contains q) = [] := by
    intro f hf
    refine List.filter_eq_nil_iff.mpr fun e he hc => hf ?_
    have hl : e.1.Leads q := Prefix.contains_iff.mp (by simpa using hc)
    exact (mem_familyMap_iff.mp he).1.symm.trans hl.family
  simp only [lookup]
  rw [entries_eq_families, List.filter_append]
  cases hq : q.family with
  | v4 => rw [hother .v6 (by simp [hq]), List.append_nil]
  | v6 => rw [hother .v4 (by simp [hq]), List.nil_append]

/-- Whatever canonical prefixes are written to an empty map, a map finds at each change what a
finite map finds, and is in the end a longest-match map of the finite map's entries. The families do
not mix: the entries are those that the changes of version 4 make on their own, then those of version
6, and both kinds of search give what they give in the map of the family alone. -/
theorem changes_longest_match (cs : List (Change α)) (h : ∀ c ∈ cs, c.dest.Canonical) :
    (changes ∅ cs).2 = (Change.applyAll ∅ cs).2 ∧
    Models (changes ∅ cs).1 (Change.applyAll ∅ cs).1 ∧
    (changes ∅ cs).1.entries = (familyMap cs .v4).entries ++ (familyMap cs .v6).entries ∧
    ∀ q : Prefix, (changes ∅ cs).1.get? q = (familyMap cs q.family).get? q ∧
      (changes ∅ cs).1.lookup q = (familyMap cs q.family).lookup q := by
  have hempty : ∀ p, (∅ : PrefixMap α).get? p = (∅ : Finmap fun _ : Prefix => α).lookup p := by
    intro p
    rw [OrderedMap.get?_empty, Finmap.lookup_empty]
  obtain ⟨hfound, hvalues⟩ := changes_eq_applyAll hempty cs
  have hcanonical : ∀ p v, (changes ∅ cs).1.get? p = some v → p.Canonical := by
    intro p v hv
    obtain ⟨c, hc, rfl⟩ := exists_change_of_get? hv
    exact h c hc
  refine ⟨hfound, models_of_get? (sorted_run cs) hcanonical hvalues, entries_eq_families cs,
    fun q => ⟨?_, lookup_eq_familyMap cs q⟩⟩
  rw [get?_familyMap, if_pos rfl]

/-- The root of each family, a network in 192.0.0.0/8 that comes and goes, and a changed value. -/
def roots : List (Change Nat) :=
  [.insert (.root .v6) 6, .insert ⟨⟨.v4, 0xc0000000, by decide⟩, 8, by decide⟩ 10,
    .insert (.root .v4) 4, .insert ⟨⟨.v4, 0xc0010000, by decide⟩, 16, by decide⟩ 11,
    .update (.root .v4) (· + 1), .remove ⟨⟨.v4, 0xc0010000, by decide⟩, 16, by decide⟩]

theorem changes_longest_match_roots :
    (∀ c ∈ roots, c.dest.Canonical) ∧
    Models (changes ∅ roots).1 (Change.applyAll ∅ roots).1 ∧
    ((changes ∅ roots).1.lookupAddress ⟨.v4, 0xc0010203, by decide⟩).map (·.2) = some 10 ∧
    ((changes ∅ roots).1.lookupAddress ⟨.v4, 0x0b000000, by decide⟩).map (·.2) = some 5 ∧
    ((changes ∅ roots).1.lookupAddress ⟨.v6, 0xc0010203, by decide⟩).map (·.2) = some 6 :=
  ⟨by decide, (changes_longest_match roots (by decide)).2.1, by decide, by decide, by decide⟩

end PrefixMap

end VxlanRouting
