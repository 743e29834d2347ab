import VxlanRouting.Vrf

/-!
Locating the route that an address and a length bind to. The Inet table is searched for its longest
match, but only an exact hit counts: neither a shorter route that covers the address nor a route
whose network is not the address itself.
-/
namespace VxlanRouting.Vrf

/-- The route that the search ends at. -/
def nearest? (v : Vrf) (t : TableKind) (p : Prefix) : Option Route :=
  match t with
  | .inet => (v.inet.lookup p).map (·.2)
  | .evpn => v.evpn.get? (.type5 p)

def locate? (v : Vrf) (t : TableKind) (a : Address) (n : Nat) : Option Route :=
  match Prefix.ofAddress? a n with
  | .error _ => none
  | .ok p => (v.nearest? t p).filter fun r => r.dest = p ∧ r.dest.network = a

end VxlanRouting.Vrf
