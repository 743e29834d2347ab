import VxlanRouting.Proofs.Filled

/-!
Where the search for a prefix ends. In a map whose keys are in order, the longest match of a
canonical prefix is its own entry if it has one: the others that contain the prefix and are as long
are the same network with further bits set, and come later. An entry of another prefix is not
counted as a hit, so a search is no more than looking up the canonical form.
-/
namespace VxlanRouting

theorem Address.network_le (a : Address) (n : Nat) : ¬ a < a.network n := by
  rw [Address.lt_def]
  rintro (h | ⟨_, h⟩)
  · exact Nat.lt_irrefl _ h
  · exact Nat.not_lt.mpr (Address.shift_back_le a.value (a.hostBits n)) h

namespace Prefix

theorem contains_self (p : Prefix) : p.Contains p := ⟨Nat.le_refl _, rfl⟩

/-- A prefix that contains another of its length has it as its network. -/
theorem Contains.canonical_eq {p q : Prefix} (h : q.Contains p) (hl : q.length = p.length) :
    q.canonical = p.canonical := by
  refine ext_parts ?_ hl
  have hc : p.address.network q.length = q.network := h.2
  show q.network = p.address.network p.length
  rw [← hc, hl]

/-- The canonical form comes before every prefix of its network. -/
theorem not_lt_canonical (p : Prefix) : ¬ p < p.canonical := by
  rw [lt_def]
  rintro (h | ⟨_, h⟩)
  · exact Address.network_le p.address p.length h
  · exact Nat.lt_irrefl _ h

/-- The network and the length of a prefix stand for its canonical form. -/
theorem ofAddress?_network (p : Prefix) : ofAddress? p.network p.length = .ok p.canonical := by
  simp only [ofAddress?]
  have hl : p.length ≤ p.network.family.width := p.length_le
  rw [dif_pos hl]
  have hc : canonical ⟨p.network, p.length, hl⟩ = p.canonical :=
    ext_parts (Address.network_network p.address p.length) rfl
  rw [hc]

/-- So do its address and its length, whatever bits of the address do not count. -/
theorem ofAddress?_address (p : Prefix) : ofAddress? p.address p.length = .ok p.canonical :=
  dif_pos p.length_le

end Prefix

namespace PrefixMap

variable {α : Type}

/-- The first of the entries of greatest length is found. -/
theorem longest_eq_of_first {l₁ l₂ : List (Prefix × α)} {e : Prefix × α}
    (h₁ : ∀ x ∈ l₁, x.1.length < e.1.length) (h₂ : ∀ x ∈ l₂, x.1.length ≤ e.1.length) :
    longest (l₁ ++ e :: l₂) = some e := by
  induction l₁ with
  | nil =>
    rw [List.nil_append, longest]
    cases hb : longest l₂ with
    | none => rfl
    | some b =>
      have hle : b.1.length ≤ e.1.length := h₂ b (mem_of_longest hb)
      simp [Nat.not_lt.mpr hle]
  | cons x l₁ ih =>
    rw [List.cons_append, longest, ih fun y hy => h₁ y (List.mem_cons_of_mem _ hy)]
    simp [h₁ x List.mem_cons_self]

/-- A canonical prefix that has an entry is found at this entry. -/
theorem lookup_of_get? {m : PrefixMap α} (hm : m.Sorted) {p : Prefix} (hp : p.Canonical) {v : α}
    (h : m.get? p = some v) : m.lookup p = some (p, v) := by
  obtain ⟨l₁, l₂, hl⟩ := List.append_of_mem (Entries.mem_of_get? h)
  have hlen : ∀ x : Prefix × α, x.1.Contains p → x.1.length ≤ p.length := fun x hx => hx.1
  simp only [lookup]
  rw [hl, List.filter_append, List.filter_cons_of_pos (by simpa using p.contains_self)]
  refine longest_eq_of_first (fun x hx => ?_) fun x hx => ?_
  · obtain ⟨hx₁, hc⟩ := List.mem_filter.mp hx
    have hc : x.1.Contains p := by simpa using hc
    rcases Nat.lt_or_eq_of_le (hlen x hc) with hlt | heq
    · exact hlt
    · -- an earlier entry of the same length would be below its own canonical form
      have hlt : x.1 < p := by
        have hs : (m.entries.map (·.1)).Pairwise (· < ·) := hm
        rw [hl, List.map_append, List.pairwise_append] at hs
        exact hs.2.2 x.1 (List.mem_map_of_mem hx₁) p (by simp)
      have hcan : x.1.canonical = p := (hc.canonical_eq heq).trans hp.eq
      exact absurd (hcan ▸ hlt) x.1.not_lt_canonical
  · obtain ⟨_, hc⟩ := List.mem_filter.mp hx
    exact hlen x (by simpa using hc)

end PrefixMap

/-- Every Inet route is of the prefix that it stands under. -/
def Vrf.Aligned (v : Vrf) : Prop := ∀ e ∈ v.inet.entries, e.2.dest = e.1

theorem Vrf.Proper.aligned {v : Vrf} (h : v.Proper) : v.Aligned := fun e he =>
  h.dest (.inet e.1) e.2 (OrderedMap.get?_of_mem h.sorted he)

/-- The search for a prefix that has no route ends nowhere, or at a route that does not count. -/
theorem Vrf.Aligned.locate?_eq_none {v : Vrf} (h : v.Aligned) {t : TableKind} {p : Prefix}
    (hn : v.route? (.ofPrefix t p.canonical) = none) :
    v.locate? t p.network p.length = none := by
  simp only [locate?]
  rw [Prefix.ofAddress?_network]
  refine Option.filter_eq_none_iff.mpr fun r hr => ?_
  cases t with
  | evpn =>
    have hkey : v.evpn.get? (.type5 p.canonical) = some r := hr
    rw [show v.evpn.get? (.type5 p.canonical) = none from hn] at hkey
    cases hkey
  | inet =>
    obtain ⟨e, he, rfl⟩ := Option.map_eq_some_iff.mp hr
    have hmem : e ∈ v.inet.entries := (List.mem_filter.mp (PrefixMap.mem_of_longest he)).1
    have hne : e.2.dest ≠ p.canonical := by
      intro hd
      have hkey : e.1 = p.canonical := (h e hmem).symm.trans hd
      exact Entries.get?_eq_none_iff.mp hn (hkey ▸ List.mem_map_of_mem hmem)
    simp [hne]

/-- The search for the canonical form of a prefix ends at the route of its key, or nowhere. -/
theorem Vrf.Proper.locate?_eq {v : Vrf} (h : v.Proper) (t : TableKind) (p : Prefix) :
    v.locate? t p.network p.length = v.route? (.ofPrefix t p.canonical) := by
  cases hr : v.route? (.ofPrefix t p.canonical) with
  | none => exact h.aligned.locate?_eq_none hr
  | some r =>
    have hdest : r.dest = p.canonical := by rw [h.dest _ r hr, RouteKey.dest_ofPrefix]
    have hnear : v.nearest? t p.canonical = some r := by
      cases t with
      | evpn => exact hr
      | inet => simp only [nearest?, PrefixMap.lookup_of_get? h.sorted p.canonical_canonical hr,
          Option.map_some]
    simp only [locate?]
    rw [Prefix.ofAddress?_network]
    dsimp only
    rw [hnear, Option.filter_some, if_pos (by simp [hdest])]

/-- An address with bits that do not count is never hit. -/
theorem Vrf.locate?_of_not_canonical (v : Vrf) (t : TableKind) {p : Prefix} (h : ¬ p.Canonical) :
    v.locate? t p.address p.length = none := by
  simp only [locate?]
  rw [Prefix.ofAddress?_address]
  refine Option.filter_eq_none_iff.mpr fun r _ => ?_
  have hmiss : r.dest = p.canonical → r.dest.network ≠ p.address := by
    intro hd hn
    rw [hd, Prefix.network_canonical] at hn
    exact h hn
  simpa using hmiss

namespace Tables

/-- Every Inet route is of the prefix that it stands under. -/
def Aligned (db : Tables) : Prop := ∀ name v, db.vrfs.get? name = some v → v.Aligned

theorem Proper.aligned {db : Tables} (h : db.Proper) : db.Aligned := fun name v hv =>
  (h.vrf name v hv).aligned

theorem aligned_of_vrfs {db : Tables}
    (h : ∀ v ∈ db.vrfs.vrfs, ∀ e ∈ v.inet.entries, e.2.dest = e.1) : db.Aligned :=
  fun name v hv => h v (List.mem_map.mpr ⟨(name, v), Entries.mem_of_get? hv, rfl⟩)

theorem Aligned.locate?_eq_none {db : Tables} (h : db.Aligned) {vrf : String} {t : TableKind}
    {p : Prefix} (hn : db.route? vrf (.ofPrefix t p.canonical) = none) :
    db.locate? vrf t p.network p.length = none := by
  simp only [locate?, route?] at hn ⊢
  cases hv : db.vrfs.get? vrf with
  | none => rfl
  | some v =>
    rw [hv, Option.bind_some] at hn
    exact (h vrf v hv).locate?_eq_none hn

theorem Proper.locate?_eq {db : Tables} (h : db.Proper) (vrf : String) (t : TableKind)
    (p : Prefix) :
    db.locate? vrf t p.network p.length = db.route? vrf (.ofPrefix t p.canonical) := by
  simp only [locate?, route?]
  cases hv : db.vrfs.get? vrf with
  | none => rfl
  | some v => exact (h.vrf vrf v hv).locate?_eq t p

/-- What a search does with the paths of the route that it ends at. -/
theorem Proper.locate?_bind {db : Tables} (h : db.Proper) {α : Type} (vrf : String)
    (t : TableKind) (p : Prefix) (f : List Path → Option α) (hf : f [] = none) :
    ((db.locate? vrf t p.network p.length).bind fun r => f r.paths) =
      f (db.paths vrf (.ofPrefix t p.canonical)) := by
  rw [h.locate?_eq, h.route?_eq]
  split
  · next he => rw [he, hf]; rfl
  · rfl

/-- The search for an address and a length as they stand, for the best path of a kind of peer. -/
theorem Proper.locate?_findKind? {db : Tables} (h : db.Proper) (vrf : String) (t : TableKind)
    (p : Prefix) (k : PeerKind) :
    ((db.locate? vrf t p.address p.length).bind fun r => r.findKind? k) =
      if p.Canonical then (db.paths vrf (.ofPrefix t p)).find? fun x => x.peer.kind = k
      else none := by
  split
  · next hp =>
    have hb := h.locate?_bind vrf t p (fun l => l.find? fun x => x.peer.kind = k) rfl
    rw [show p.network = p.address from hp, hp.eq] at hb
    exact hb
  · next hp =>
    simp only [locate?]
    cases db.vrfs.get? vrf with
    | none => rfl
    | some v =>
      rw [Option.bind_some, v.locate?_of_not_canonical t hp]
      rfl

end Tables

end VxlanRouting
