import VxlanRouting.Mac
import VxlanRouting.Prefix.Text

/-!
Keys of routes in the two tables of a VRF. The Inet table has prefixes as keys, and the EVPN table
has a hardware address and a tag besides. An EVPN route to a prefix as such, of type 5, has a zero
address and tag. Keys are the same only if all bits of their prefixes are; the prefixes of routes
are meant to be canonical.
-/
namespace VxlanRouting

structure EvpnKey where
  mac : Mac
  dest : Prefix
  tag : Nat
  deriving DecidableEq, Repr

/-- The key of the route to a prefix as such. -/
def EvpnKey.type5 (p : Prefix) : EvpnKey := ⟨Mac.zero, p, 0⟩

def EvpnKey.IsType5 (k : EvpnKey) : Prop := k.mac = Mac.zero ∧ k.tag = 0

instance (k : EvpnKey) : Decidable k.IsType5 := inferInstanceAs (Decidable (_ ∧ _))

theorem EvpnKey.isType5_iff {k : EvpnKey} : k.IsType5 ↔ k = .type5 k.dest := by
  cases k; simp [IsType5, type5]

/-- The two tables of a VRF. -/
inductive TableKind where
  | inet | evpn
  deriving DecidableEq, Repr

inductive RouteKey where
  | inet (dest : Prefix)
  | evpn (key : EvpnKey)
  deriving DecidableEq, Repr

namespace RouteKey

def dest : RouteKey → Prefix
  | .inet p => p
  | .evpn k => k.dest

/-- The key of a prefix as such. -/
def ofPrefix : TableKind → Prefix → RouteKey
  | .inet, p => .inet p
  | .evpn, p => .evpn (.type5 p)

@[simp] theorem dest_ofPrefix (t : TableKind) (p : Prefix) : (ofPrefix t p).dest = p := by
  cases t <;> rfl

instance : ToString RouteKey where
  toString
    | .inet p => "inet " ++ toString p
    | .evpn k => "evpn " ++ toString k.mac ++ "/" ++ toString k.dest ++ "/" ++ toString k.tag

end RouteKey

end VxlanRouting
