import VxlanRouting.Address.Basic

/-!
IP prefixes: an address and the number of its first bits that count. A prefix is canonical if no bit
behind these is set; `ofAddress?` builds canonical prefixes only. Prefixes are in order of address,
then of length.
-/
namespace VxlanRouting

structure Prefix where
  address : Address
  length : Nat
  length_le : length ≤ address.family.width
  deriving DecidableEq, Repr

/-- Why a text or a pair is no prefix. -/
inductive PrefixError where
  | unknownFamily (text : String)
  | badAddress (text : String)
  | lengthTooLarge (length : Nat)
  | badLength (text : String)
  deriving DecidableEq, Repr

def PrefixError.message : PrefixError → String
  | .unknownFamily s => "Invalid Prefix: " ++ s
  | .badAddress s => "Invalid address in '" ++ s ++ "'"
  | .lengthTooLarge n => "Mask length " ++ toString n ++ " is invalid"
  | .badLength s => "Invalid mask length in '" ++ s ++ "'"

namespace Prefix

theorem ext_parts {p q : Prefix} (ha : p.address = q.address) (hl : p.length = q.length) :
    p = q := by
  cases p; cases q; simp_all

def family (p : Prefix) : Family := p.address.family

/-- The address without the bits that do not count. -/
def network (p : Prefix) : Address := p.address.network p.length

/-- No bit is set behind those that count. -/
def Canonical (p : Prefix) : Prop := p.network = p.address

instance (p : Prefix) : Decidable p.Canonical := inferInstanceAs (Decidable (_ = _))

/-- The same network with all other bits cleared. -/
def canonical (p : Prefix) : Prefix := ⟨p.network, p.length, p.length_le⟩

/-- The canonical prefix of an address and a length. -/
def ofAddress? (a : Address) (n : Nat) : Except PrefixError Prefix :=
  if h : n ≤ a.family.width then .ok (canonical ⟨a, n, h⟩) else .error (.lengthTooLarge n)

/-- The prefix that holds one address only. -/
def host (a : Address) : Prefix := ⟨a, a.family.width, Nat.le_refl _⟩

/-- The prefix that holds every address of the family. -/
def root (f : Family) : Prefix := ⟨Address.unspecified f, 0, Nat.zero_le _⟩

def IsHost (p : Prefix) : Prop := p.length = p.family.width

instance (p : Prefix) : Decidable p.IsHost := inferInstanceAs (Decidable (_ = _))

/-- An address lies in the prefix if it has the same first bits. -/
def Covers (p : Prefix) (a : Address) : Prop := a.network p.length = p.network

instance (p : Prefix) (a : Address) : Decidable (p.Covers a) := inferInstanceAs (Decidable (_ = _))

/-- All of the other prefix lies in this one. -/
def Contains (p q : Prefix) : Prop := p.length ≤ q.length ∧ p.Covers q.address

instance (p q : Prefix) : Decidable (p.Contains q) := inferInstanceAs (Decidable (_ ∧ _))

/-- An address and a length give exactly this prefix. -/
def Matches (p : Prefix) (a : Address) (n : Nat) : Prop := (ofAddress? a n).toOption = some p

instance (p : Prefix) (a : Address) (n : Nat) : Decidable (p.Matches a n) :=
  inferInstanceAs (Decidable (_ = _))

@[simp] theorem length_canonical (p : Prefix) : p.canonical.length = p.length := rfl

@[simp] theorem address_canonical (p : Prefix) : p.canonical.address = p.network := rfl

@[simp] theorem network_canonical (p : Prefix) : p.canonical.network = p.network := by
  simp [network]

theorem canonical_canonical (p : Prefix) : p.canonical.Canonical := by simp [Canonical]

theorem Canonical.eq {p : Prefix} (h : p.Canonical) : p.canonical = p := ext_parts h rfl

theorem canonical_host (a : Address) : (host a).Canonical := by simp [Canonical, network, host]

theorem canonical_root (f : Family) : (root f).Canonical := by cases f <;> decide

instance : LT Prefix where
  lt p q := p.address < q.address ∨ p.address = q.address ∧ p.length < q.length

instance : DecidableLT Prefix := fun p q =>
  inferInstanceAs (Decidable (p.address < q.address ∨ p.address = q.address ∧ p.length < q.length))

theorem lt_def {p q : Prefix} :
    p < q ↔ p.address < q.address ∨ p.address = q.address ∧ p.length < q.length := Iff.rfl

theorem lt_irrefl (p : Prefix) : ¬ p < p := by simp [lt_def, Address.lt_irrefl]

theorem lt_trans {p q r : Prefix} (h : p < q) (h' : q < r) : p < r := by
  rw [lt_def] at h h' ⊢
  rcases h with h | ⟨ha, hl⟩ <;> rcases h' with h' | ⟨ha', hl'⟩
  · exact .inl (Address.lt_trans h h')
  · exact .inl (ha' ▸ h)
  · exact .inl (ha ▸ h')
  · exact .inr ⟨ha.trans ha', Nat.lt_trans hl hl'⟩

theorem eq_of_not_lt {p q : Prefix} (h : ¬ p < q) (h' : ¬ q < p) : p = q := by
  rw [lt_def] at h h'
  have ha : p.address = q.address :=
    Address.eq_of_not_lt (fun x => h (.inl x)) fun x => h' (.inl x)
  have hl : ¬ p.length < q.length := fun x => h (.inr ⟨ha, x⟩)
  have hl' : ¬ q.length < p.length := fun x => h' (.inr ⟨ha.symm, x⟩)
  exact ext_parts ha (by omega)

end Prefix

end VxlanRouting
