import VxlanRouting.Address.Basic
import VxlanRouting.Address.Hextets

/-!
Reading and writing addresses. A text of version 4 is a dotted quad. A text of version 6 is a row of
hexadecimal groups, and an address that stands for one of version 4 is written with a dotted quad.
-/
namespace VxlanRouting.Address

open Text

/-- The address with this value, if it fits the family. -/
def ofValue? (f : Family) (n : Nat) : Option Address :=
  if h : n < 1 <<< f.width then some ⟨f, n, h⟩ else none

/-- Reads an address of a known family. -/
def read? (sp : Spelling) (f : Family) (s : List Char) : Option Address :=
  match f with
  | .v4 => (dotted? sp s).bind (ofValue? .v4)
  | .v6 => (hextets? sp s).bind fun gs => ofValue? .v6 (ofGroups 16 gs)

/-- Reads an address of either family. -/
def ofText? (s : List Char) : Option Address :=
  match read? .plain .v4 s with
  | some a => some a
  | none => read? .plain .v6 s

def text (a : Address) : List Char :=
  match a.family with
  | .v4 => dottedText a.value
  | .v6 =>
    if a.value >>> 32 = 0xffff then
      [':', ':', 'f', 'f', 'f', 'f', ':'] ++ dottedText (a.value % 0x100000000)
    else hextetsText (groups 16 8 a.value)

instance : ToString Address := ⟨fun a => String.ofList a.text⟩

@[simp] theorem ofValue?_value (a : Address) : ofValue? a.family a.value = some a := by
  simp [ofValue?, a.value_lt]

theorem family_of_ofValue? {f : Family} {n : Nat} {a : Address} (h : ofValue? f n = some a) :
    a.family = f := by
  unfold ofValue? at h
  split at h
  · cases h; rfl
  · cases h

/-- What is read has the family that was asked for. -/
theorem family_of_read? {sp : Spelling} {f : Family} {s : List Char} {a : Address}
    (h : read? sp f s = some a) : a.family = f := by
  cases f <;> obtain ⟨_, _, h⟩ := Option.bind_eq_some_iff.mp h <;> exact family_of_ofValue? h

example : (ofText? "10.1.2.3".toList).map (·.value) = some 0x0a010203 := by decide
example : ofText? "10.01.2.3".toList = none := by decide
example : (ofText? "1::ffff:0:0:0".toList).map (String.ofList ·.text) = some "1::ffff:0:0:0" := by
  decide

end VxlanRouting.Address
