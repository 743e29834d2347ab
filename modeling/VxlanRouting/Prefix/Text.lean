import VxlanRouting.Address.Text
import VxlanRouting.Prefix.Basic
import VxlanRouting.Text.Blank

/-!
The texts of prefixes. A source text is an address, with a slash and a length if the prefix is no
host; a zero hardware address may stand before the address, and a length above the family's greatest
counts as that. A network text is the narrow form that documents store: a slash, a length in range
and nothing else. Both keep the bits of the address that do not count.
-/
namespace VxlanRouting.Prefix

open Text

/-- The address, a slash and the length. -/
def pairText (a : Address) (n : Nat) : List Char := a.text ++ '/' :: numeral 10 n

def text (p : Prefix) : List Char := pairText p.address p.length

instance : ToString Prefix := ⟨fun p => String.ofList p.text⟩

/-- The zero hardware address that may stand before the address of a source. -/
def zeroMarker : List Char := "00:00:00:00:00:00:".toList

/-- A text with a point is of version 4, and one with a colon alone of version 6. -/
def familyOfText? (s : List Char) : Option Family :=
  if '.' ∈ s then some .v4 else if ':' ∈ s then some .v6 else none

/-- The marker is left out if the rest is an address; else the whole text has to be one. -/
def sourceAddress? (f : Family) (s : List Char) : Option Address :=
  match (strip? zeroMarker s).bind (Address.read? .plain f) with
  | some a => some a
  | none => Address.read? .plain f s

/-- A natural below 2 ^ 32; blanks around it and one plus sign in front of it do not count. -/
def sourceLength? (s : List Char) : Option Nat :=
  let digits := match trim s with
    | '+' :: r => r
    | r => r
  (natural? 10 digits).filter (· < 0x100000000)

/-- The address and the length of a source text; `none` is a missing length. -/
def sourceParts (s : List Char) : List Char × Option (List Char) :=
  match cut? '/' s with
  | some (a, l) => (a, some l)
  | none => (s, none)

/-- The prefix of an address and the length that stands behind it, cut to the family's greatest. -/
def clamped (a : Address) (n : Nat) : Prefix := ⟨a, min n a.family.width, Nat.min_le_right _ _⟩

/-- Reads a source text. -/
def ofSource (s : List Char) : Except PrefixError Prefix :=
  match familyOfText? s with
  | none => .error (.unknownFamily (String.ofList s))
  | some f =>
    match sourceAddress? f (sourceParts s).1 with
    | none => .error (.badAddress (String.ofList s))
    | some a =>
      match (sourceParts s).2 with
      | none => .ok (host a)
      | some l =>
        match sourceLength? l with
        | none => .error (.badLength (String.ofList s))
        | some n => .ok (clamped a n)

/-- The canonical prefix of a source text. -/
def ofSourceText (s : List Char) : Except PrefixError Prefix :=
  match ofSource s with
  | .error e => .error e
  | .ok p => ofAddress? p.address p.length

/-- The canonical prefix of the text of an address and a length. -/
def ofAddressText (s : String) (n : Nat) : Except PrefixError Prefix :=
  match Address.ofText? s.toList with
  | none => .error (.badAddress s)
  | some a => ofAddress? a n

/-- The number of digits that the length in a network text may have. -/
def lengthDigits : Family → Nat
  | .v4 => 2
  | .v6 => 3

/-- Reads a network text. -/
def ofNetworkText? (f : Family) (s : List Char) : Option Prefix :=
  match cut? '/' s with
  | none => none
  | some (a, l) =>
    match Address.read? .loose f a, natural? 10 l with
    | some a, some n =>
      if h : n ≤ a.family.width then
        if l.length ≤ lengthDigits f then some ⟨a, n, h⟩ else none
      else none
    | _, _ => none

example : (ofSource "00:00:00:00:00:00:fd00::1/ +200 ".toList).toOption.map toString
    = some "fd00::1/128" := by decide +kernel
example : (ofSource "10.0.0.1/".toList).toOption = none := by decide +kernel
example : (ofNetworkText? .v4 "010.0.0.1/08".toList).map toString = some "10.0.0.1/8" := by
  decide +kernel

end VxlanRouting.Prefix
