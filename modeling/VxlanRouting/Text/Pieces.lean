/-!
Cutting a text at a separator. `pieces` cuts at every occurrence and is undone by joining with the
separator; `cut?` cuts at the first occurrence only, and `strip?` takes a given start away.
-/
namespace VxlanRouting.Text

/-- The texts between the occurrences of the separator; there is always at least one. -/
def pieces (sep : Char) : List Char → List (List Char)
  | [] => [[]]
  | c :: s =>
    if c = sep then [] :: pieces sep s
    else match pieces sep s with
      | [] => [[c]]
      | p :: ps => (c :: p) :: ps

/-- The pieces put together again, with the separator between neighbours. -/
def joined (sep : Char) : List (List Char) → List Char
  | [] => []
  | [p] => p
  | p :: ps => p ++ sep :: joined sep ps

/-- What stands before and after the first occurrence of the separator. -/
def cut? (sep : Char) : List Char → Option (List Char × List Char)
  | [] => none
  | c :: s => if c = sep then some ([], s) else (cut? sep s).map fun r => (c :: r.1, r.2)

/-- What follows a given start. -/
def strip? : List Char → List Char → Option (List Char)
  | [], s => some s
  | _ :: _, [] => none
  | c :: p, d :: s => if c = d then strip? p s else none

@[simp] theorem pieces_nil (sep : Char) : pieces sep [] = [[]] := rfl

theorem pieces_ne_nil (sep : Char) (s : List Char) : pieces sep s ≠ [] := by
  cases s with
  | nil => simp
  | cons c s =>
    unfold pieces
    split
    · simp
    · split <;> simp

theorem joined_cons (sep : Char) (p : List Char) {ps : List (List Char)} (h : ps ≠ []) :
    joined sep (p :: ps) = p ++ sep :: joined sep ps := by
  cases ps with
  | nil => contradiction
  | cons q qs => rfl

theorem joined_pieces (sep : Char) (s : List Char) : joined sep (pieces sep s) = s := by
  induction s with
  | nil => rfl
  | cons c s ih =>
    unfold pieces
    split
    · next h => rw [joined_cons sep _ (pieces_ne_nil sep s), ih, h]; rfl
    · cases hp : pieces sep s with
      | nil => exact absurd hp (pieces_ne_nil sep s)
      | cons p ps =>
        rw [hp] at ih
        cases ps with
        | nil => simp only [joined] at ih ⊢; rw [ih]
        | cons q qs => simp only [joined, List.cons_append] at ih ⊢; rw [ih]

/-- A text is cut at a separator between two parts, and then each part for itself. -/
theorem pieces_append (sep : Char) (s t : List Char) :
    pieces sep (s ++ sep :: t) = pieces sep s ++ pieces sep t := by
  induction s with
  | nil => simp [pieces]
  | cons c s ih =>
    by_cases hc : c = sep
    · simp [pieces, hc, ih]
    · obtain ⟨p, ps, hp⟩ := List.exists_cons_of_ne_nil (pieces_ne_nil sep s)
      simp [pieces, hc, ih, hp]

theorem pieces_append_sep (sep : Char) (p s : List Char) (h : sep ∉ p) :
    pieces sep (p ++ sep :: s) = p :: pieces sep s := by
  induction p with
  | nil => simp [pieces]
  | cons c p ih =>
    have hc : c ≠ sep := fun e => h (by simp [e])
    have hp : sep ∉ p := fun m => h (by simp [m])
    simp [pieces, hc, ih hp]

theorem pieces_of_not_mem (sep : Char) (p : List Char) (h : sep ∉ p) : pieces sep p = [p] := by
  induction p with
  | nil => rfl
  | cons c p ih =>
    have hc : c ≠ sep := fun e => h (by simp [e])
    have hp : sep ∉ p := fun m => h (by simp [m])
    simp [pieces, hc, ih hp]

/-- Pieces that are free of the separator come back when their joined text is cut. -/
theorem pieces_joined (sep : Char) (ps : List (List Char)) (hne : ps ≠ [])
    (h : ∀ p ∈ ps, sep ∉ p) : pieces sep (joined sep ps) = ps := by
  induction ps with
  | nil => contradiction
  | cons p ps ih =>
    cases ps with
    | nil => exact pieces_of_not_mem sep p (h p (by simp))
    | cons q qs =>
      rw [joined_cons sep p (by simp), pieces_append_sep sep p _ (h p (by simp)),
        ih (by simp) fun r hr => h r (by simp [hr])]

theorem cut?_append (sep : Char) (p s : List Char) (h : sep ∉ p) :
    cut? sep (p ++ sep :: s) = some (p, s) := by
  induction p with
  | nil => simp [cut?]
  | cons c p ih =>
    have hc : c ≠ sep := fun e => h (by simp [e])
    have hp : sep ∉ p := fun m => h (by simp [m])
    simp [cut?, hc, ih hp]

theorem cut?_eq_none (sep : Char) (s : List Char) (h : sep ∉ s) : cut? sep s = none := by
  induction s with
  | nil => rfl
  | cons c s ih =>
    have hc : c ≠ sep := fun e => h (by simp [e])
    have hs : sep ∉ s := fun m => h (by simp [m])
    simp [cut?, hc, ih hs]

theorem strip?_append (p s : List Char) : strip? p (p ++ s) = some s := by
  induction p with
  | nil => rfl
  | cons c p ih => simpa [strip?] using ih

theorem eq_append_of_strip? {p s r : List Char} (h : strip? p s = some r) : s = p ++ r := by
  fun_induction strip? p s with
  | case1 s => cases h; rfl
  | case2 => cases h
  | case3 c p s ih => rw [ih h]; rfl
  | case4 => cases h

end VxlanRouting.Text
