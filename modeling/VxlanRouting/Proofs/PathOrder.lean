import VxlanRouting.Route

/-!
The order of the paths of a route. Paths of different peers are strictly ordered, and a list that is
ranked by this order has its best path in front. Placing a path and taking a peer's paths out keep a
list ranked, and neither touches what the other peers have.
-/
namespace VxlanRouting

namespace Path

theorem before_irrefl (x : Path) : ¬ x.Before x := by
  simp [Before]

theorem before_trans {x y z : Path} (h : x.Before y) (h' : y.Before z) : x.Before z := by
  simp only [Before] at h h' ⊢
  rcases h with h | ⟨hk, h⟩ <;> rcases h' with h' | ⟨hk', h'⟩
  · exact .inl (by omega)
  · exact .inl (hk' ▸ h)
  · exact .inl (hk ▸ h')
  · refine .inr ⟨hk.trans hk', ?_⟩
    rcases h with h | ⟨hp, h⟩ <;> rcases h' with h' | ⟨hp', h'⟩
    · exact .inl (by omega)
    · exact .inl (by omega)
    · exact .inl (by omega)
    · exact .inr ⟨hp'.trans hp, String.lt_trans h h'⟩

theorem before_asymm {x y : Path} (h : x.Before y) : ¬ y.Before x :=
  fun h' => before_irrefl x (before_trans h h')

/-- Paths of different peers are never level. -/
theorem before_or_before {x y : Path} (h : x.peer ≠ y.peer) : x.Before y ∨ y.Before x := by
  simp only [Before]
  by_cases hk : x.peer.kind = y.peer.kind
  · have hn : x.peer.name ≠ y.peer.name := by
      intro hn
      apply h
      cases hx : x.peer
      cases hy : y.peer
      simp_all
    have ho : x.peer.name < y.peer.name ∨ y.peer.name < x.peer.name := by
      by_cases h₁ : x.peer.name < y.peer.name
      · exact .inl h₁
      · by_cases h₂ : y.peer.name < x.peer.name
        · exact .inr h₂
        · exact absurd (String.le_antisymm (String.not_lt.mp h₂) (String.not_lt.mp h₁)) hn
    have hp := Nat.lt_trichotomy x.attrs.preference.preference y.attrs.preference.preference
    rcases hp with hp | hp | hp
    · exact .inr (.inr ⟨hk.symm, .inl hp⟩)
    · rcases ho with ho | ho
      · exact .inl (.inr ⟨hk, .inr ⟨hp.symm, ho⟩⟩)
      · exact .inr (.inr ⟨hk.symm, .inr ⟨hp, ho⟩⟩)
    · exact .inl (.inr ⟨hk, .inl hp⟩)
  · have hr : x.peer.kind.rank ≠ y.peer.kind.rank := fun he => hk (PeerKind.rank_inj.mp he)
    rcases Nat.lt_or_gt_of_ne hr with hr | hr
    · exact .inl (.inl hr)
    · exact .inr (.inl hr)

/-- The place of a path hangs on its peer and its preference only. -/
theorem before_congr {x x' y y' : Path} (hx : x'.peer = x.peer)
    (hxp : x'.attrs.preference = x.attrs.preference) (hy : y'.peer = y.peer)
    (hyp : y'.attrs.preference = y.attrs.preference) : x'.Before y' ↔ x.Before y := by
  simp only [Before]
  rw [hx, hxp, hy, hyp]

end Path

namespace Route

/-- Best path first, and no peer twice. -/
def Ranked (l : List Path) : Prop := l.Pairwise fun x y => x.Before y ∧ x.peer ≠ y.peer

theorem ranked_nil : Ranked [] := List.Pairwise.nil

theorem ranked_place {x : Path} {l : List Path} (hl : Ranked l) (hx : ∀ y ∈ l, y.peer ≠ x.peer) :
    Ranked (place x l) := by
  induction l with
  | nil => exact List.pairwise_singleton _ _
  | cons y l ih =>
    obtain ⟨hy, hl'⟩ := List.pairwise_cons.mp hl
    have hne : x.peer ≠ y.peer := (hx y List.mem_cons_self).symm
    simp only [place]
    split
    · next hb =>
      refine List.pairwise_cons.mpr ⟨fun z hz => ⟨?_, (hx z hz).symm⟩, hl⟩
      rcases List.mem_cons.mp hz with rfl | hz
      · exact hb
      · exact Path.before_trans hb (hy z hz).1
    · next hb =>
      have hyx : y.Before x := (Path.before_or_before hne).resolve_left hb
      have hrest : Ranked (place x l) := ih hl' fun z hz => hx z (List.mem_cons_of_mem _ hz)
      refine List.pairwise_cons.mpr ⟨fun z hz => ?_, hrest⟩
      rcases mem_place.mp hz with rfl | hz
      · exact ⟨hyx, hne.symm⟩
      · exact hy z hz

theorem ranked_without {p : Peer} {l : List Path} (hl : Ranked l) : Ranked (without p l) :=
  List.Pairwise.filter _ hl

theorem peer_of_mem_without {p : Peer} {l : List Path} {x : Path} (h : x ∈ without p l) :
    x.peer ≠ p := by
  simpa using (List.mem_filter.mp h).2

/-- Changing what neither names the owner nor ranks a path keeps the order. -/
theorem ranked_map {f : Path → Path} (hp : ∀ x, (f x).peer = x.peer)
    (ha : ∀ x, (f x).attrs = x.attrs) {l : List Path} (hl : Ranked l) : Ranked (l.map f) := by
  refine List.pairwise_map.mpr (hl.imp fun {x y} h => ⟨?_, ?_⟩)
  · exact (Path.before_congr (hp x) (by rw [ha]) (hp y) (by rw [ha])).mpr h.1
  · rw [hp, hp]
    exact h.2

theorem without_cons_of_eq {p : Peer} {x : Path} (hx : x.peer = p) (l : List Path) :
    without p (x :: l) = without p l := by
  simp [without, hx]

theorem without_cons_of_ne {p : Peer} {x : Path} (hx : x.peer ≠ p) (l : List Path) :
    without p (x :: l) = x :: without p l := by
  simp [without, hx]

@[simp] theorem without_without (p : Peer) (l : List Path) :
    without p (without p l) = without p l := by
  simp [without]

/-- What the other peers have stays when a peer's path is placed. -/
theorem without_place {p : Peer} {x : Path} (hx : x.peer = p) (l : List Path) :
    without p (place x l) = without p l := by
  induction l with
  | nil => simp [place, without, hx]
  | cons y l ih =>
    simp only [place]
    split
    · simp [without, hx]
    · simp only [without, List.filter_cons] at ih ⊢
      rw [ih]

/-- A search that skips the paths of a peer does not see them. -/
theorem find?_without {p : Peer} {f : Path → Bool} (hf : ∀ x, x.peer = p → f x = false)
    (l : List Path) : (without p l).find? f = l.find? f := by
  induction l with
  | nil => rfl
  | cons x l ih =>
    by_cases hx : x.peer = p
    · rw [without_cons_of_eq hx, List.find?_cons_of_neg (by simp [hf x hx]), ih]
    · rw [without_cons_of_ne hx, List.find?_cons, List.find?_cons, ih]

theorem findSome?_without {α : Type} {p : Peer} {f : Path → Option α}
    (hf : ∀ x, x.peer = p → f x = none) (l : List Path) :
    (without p l).findSome? f = l.findSome? f := by
  induction l with
  | nil => rfl
  | cons x l ih =>
    by_cases hx : x.peer = p
    · rw [without_cons_of_eq hx, List.findSome?_cons, hf x hx, ih]
    · rw [without_cons_of_ne hx, List.findSome?_cons, List.findSome?_cons, ih]

theorem find?_place_self {x : Path} {l : List Path} (hx : ∀ y ∈ l, y.peer ≠ x.peer) :
    (place x l).find? (fun y => y.peer = x.peer) = some x := by
  induction l with
  | nil => simp [place]
  | cons y l ih =>
    have hy : y.peer ≠ x.peer := hx y List.mem_cons_self
    simp only [place]
    split
    · simp
    · simp [hy, ih fun z hz => hx z (List.mem_cons_of_mem _ hz)]

theorem find?_without_self (p : Peer) (l : List Path) :
    (without p l).find? (fun y => y.peer = p) = none := by
  refine List.find?_eq_none.mpr fun y hy => ?_
  simpa using peer_of_mem_without hy

/-- The better of two paths that may be missing. -/
def better (x y : Option Path) : Option Path :=
  match x, y with
  | some a, some b => if a.Before b then some a else some b
  | some a, none => some a
  | none, y => y

/-- The best path that is not of one peer is the path of a second peer or the best path of all
others. -/
theorem find?_ne_eq_better {p q : Peer} {l : List Path} (hl : Ranked l) (hpq : q ≠ p) :
    l.find? (fun x => x.peer ≠ p) = better (l.find? fun x => x.peer = q)
      (l.find? fun x => x.peer ≠ p ∧ x.peer ≠ q) := by
  induction l with
  | nil => rfl
  | cons y l ih =>
    obtain ⟨hy, hl'⟩ := List.pairwise_cons.mp hl
    by_cases hyp : y.peer = p
    · have hyq : y.peer ≠ q := fun h => hpq (h.symm.trans hyp)
      rw [List.find?_cons_of_neg (by simp [hyp]), List.find?_cons_of_neg (by simp [hyq]),
        List.find?_cons_of_neg (by simp [hyp]), ih hl']
    · rw [List.find?_cons_of_pos (by simp [hyp])]
      by_cases hyq : y.peer = q
      · rw [List.find?_cons_of_pos (by simp [hyq]), List.find?_cons_of_neg (by simp [hyq])]
        cases hr : l.find? fun x => decide (x.peer ≠ p ∧ x.peer ≠ q) with
        | none => rfl
        | some z =>
          have hyz : y.Before z := (hy z (List.mem_of_find?_eq_some hr)).1
          simp [better, hyz]
      · rw [List.find?_cons_of_neg (by simp [hyq]), List.find?_cons_of_pos (by simp [hyp, hyq])]
        cases hr : l.find? fun x => decide (x.peer = q) with
        | none => rfl
        | some z =>
          have hzy : ¬ z.Before y := Path.before_asymm (hy z (List.mem_of_find?_eq_some hr)).1
          simp [better, hzy]

end Route

end VxlanRouting
