/-!
Numerals: naturals written in a base of at most sixteen. Writing uses the fewest digits and small
letters; reading takes letters of either case and leading zeros. What is written reads back.
-/
namespace VxlanRouting.Text

/-- The value of a digit of the base. -/
def digit? (base : Nat) (c : Char) : Option Nat :=
  let n := c.toNat
  let d :=
    if 48 ≤ n && n ≤ 57 then n - 48
    else if 97 ≤ n && n ≤ 102 then n - 87
    else if 65 ≤ n && n ≤ 70 then n - 55
    else 16
  if d < base ∧ d < 16 then some d else none

/-- Goes on reading digits behind those that came to `acc`. -/
def digits? (base acc : Nat) : List Char → Option Nat
  | [] => some acc
  | c :: s =>
    match digit? base c with
    | some d => digits? base (acc * base + d) s
    | none => none

/-- The natural that a text of one or more digits stands for. -/
def natural? (base : Nat) (s : List Char) : Option Nat :=
  if s.isEmpty then none else digits? base 0 s

/-- The digits of a natural, most significant first. -/
def numeral (base n : Nat) : List Char := Nat.toDigits base n

theorem digit?_digitChar {base d : Nat} (hd : d < base) (h : d < 16) :
    digit? base d.digitChar = some d := by
  have : d = 0 ∨ d = 1 ∨ d = 2 ∨ d = 3 ∨ d = 4 ∨ d = 5 ∨ d = 6 ∨ d = 7 ∨ d = 8 ∨ d = 9 ∨ d = 10 ∨
    d = 11 ∨ d = 12 ∨ d = 13 ∨ d = 14 ∨ d = 15 := by omega
  rcases this with h | h | h | h | h | h | h | h | h | h | h | h | h | h | h | h <;> subst h <;>
    simp [digit?, Nat.digitChar, hd]

theorem digits?_append (base acc : Nat) (s t : List Char) :
    digits? base acc (s ++ t) = (digits? base acc s).bind fun n => digits? base n t := by
  induction s generalizing acc with
  | nil => rfl
  | cons c s ih =>
    simp only [List.cons_append, digits?]
    cases digit? base c with
    | none => rfl
    | some d => exact ih _

theorem digits?_numeral {base : Nat} (hb : 2 ≤ base) (hx : base ≤ 16) (n : Nat) :
    digits? base 0 (numeral base n) = some n := by
  induction n using Nat.strongRecOn with
  | _ n ih =>
    unfold numeral at ih ⊢
    by_cases h : n < base
    · rw [Nat.toDigits_of_lt_base h]
      simp [digits?, digit?_digitChar h (by omega)]
    · have hlt : n / base < n := Nat.div_lt_self (by omega) (by omega)
      have hm : n % base < base := Nat.mod_lt _ (by omega)
      have hq : 0 < n / base := Nat.div_pos (by omega) (by omega)
      have key := Nat.toDigits_append_toDigits (b := base) (by omega) hq hm
      rw [Nat.div_add_mod] at key
      rw [← key, digits?_append, ih _ hlt, Nat.toDigits_of_lt_base hm]
      simp only [Option.bind_some, digits?, digit?_digitChar hm (by omega)]
      rw [Nat.mul_comm, Nat.div_add_mod]

/-- What is written reads back. -/
theorem natural?_numeral {base : Nat} (hb : 2 ≤ base) (hx : base ≤ 16) (n : Nat) :
    natural? base (numeral base n) = some n := by
  have h : (numeral base n).isEmpty = false := by
    cases hn : numeral base n with
    | nil => exact absurd hn (by simp [numeral])
    | cons c s => rfl
  simp [natural?, h, digits?_numeral hb hx]

end VxlanRouting.Text
