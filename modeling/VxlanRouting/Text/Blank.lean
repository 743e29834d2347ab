/-!
Blank characters: the twenty-five characters with Unicode's White_Space property. The length behind
the slash of a prefix text is trimmed by them, and a configured name of blanks only counts as empty.
-/
namespace VxlanRouting.Text

/-- Closed ranges of code points, ascending and apart. -/
def blankRanges : List (Nat × Nat) :=
  [(0x09, 0x0D), (0x20, 0x20), (0x85, 0x85), (0xA0, 0xA0), (0x1680, 0x1680), (0x2000, 0x200A),
   (0x2028, 0x2029), (0x202F, 0x202F), (0x205F, 0x205F), (0x3000, 0x3000)]

def isBlank (c : Char) : Bool :=
  blankRanges.any fun r => r.1 ≤ c.toNat && c.toNat ≤ r.2

/-- The text without the blanks at both of its ends. -/
def trim (s : List Char) : List Char :=
  ((s.dropWhile isBlank).reverse.dropWhile isBlank).reverse

theorem dropWhile_isBlank {s : List Char} (h : ∀ c ∈ s, isBlank c = false) :
    s.dropWhile isBlank = s := by
  cases s with
  | nil => rfl
  | cons c s => simp [h c List.mem_cons_self]

theorem trim_of_no_blank {s : List Char} (h : ∀ c ∈ s, isBlank c = false) : trim s = s := by
  have hr : ∀ c ∈ s.reverse, isBlank c = false := fun c hc => h c (List.mem_reverse.mp hc)
  rw [trim, dropWhile_isBlank h, dropWhile_isBlank hr, List.reverse_reverse]

/-- A text that shows nothing: it is empty or has blanks only. -/
def IsBlankText (s : String) : Prop := ∀ c ∈ s.toList, isBlank c = true

instance (s : String) : Decidable (IsBlankText s) :=
  inferInstanceAs (Decidable (∀ c ∈ s.toList, isBlank c = true))

end VxlanRouting.Text
