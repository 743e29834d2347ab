/-!
Sets of tunnel encapsulations, as the eight bits that peers send. Bits without a name take part in
comparisons, but in nothing else.
-/
namespace VxlanRouting

structure TunnelTypes where
  bits : UInt8
  deriving DecidableEq, Repr

namespace TunnelTypes

def empty : TunnelTypes := ⟨0⟩

def mplsGre : TunnelTypes := ⟨1⟩

def mplsUdp : TunnelTypes := ⟨2⟩

def vxlan : TunnelTypes := ⟨4⟩

instance : Inhabited TunnelTypes := ⟨empty⟩

/-- All bits of the other set are in this one. -/
def Includes (t u : TunnelTypes) : Prop := t.bits &&& u.bits = u.bits

instance (t u : TunnelTypes) : Decidable (t.Includes u) := inferInstanceAs (Decidable (_ = _))

/-- The one to use out of a set; VXLAN is better than MPLS. -/
def preferred (t : TunnelTypes) : TunnelTypes :=
  ([vxlan, mplsUdp, mplsGre].find? fun u => t.Includes u).getD empty

/-- The named members, lowest bit first. -/
def names (t : TunnelTypes) : List String :=
  ([(mplsGre, "MPLS_GRE"), (mplsUdp, "MPLS_UDP"), (vxlan, "VXLAN")].filter
    fun e => decide (t.Includes e.1)).map (·.2)

instance : ToString TunnelTypes :=
  ⟨fun t => if t = empty then "none" else "|".intercalate t.names⟩

end TunnelTypes

end VxlanRouting
