import VxlanRouting.Proofs.Change
import VxlanRouting.Proofs.LeadingBits

/-!
Locating a route is looking it up. The search for an address and a length goes by longest match, but
it ends at the entry of exactly this prefix or nowhere, and nowhere if the address has bits behind
the length. Entries of other prefixes and EVPN routes of other types have no say in it: they may be
dropped, and the answer stays.
-/
namespace VxlanRouting

namespace Vrf

theorem locate?_of_too_long (v : Vrf) (t : TableKind) {a : Address} {n : Nat}
    (h : ¬ n ≤ a.family.width) : v.locate? t a n = none := by
  simp only [locate?, Prefix.ofAddress?]
  rw [dif_neg h]

/-- The search for the address of a prefix as it stands. -/
theorem Proper.locate?_address {v : Vrf} (h : v.Proper) (t : TableKind) (p : Prefix) :
    v.locate? t p.address p.length =
      if p.Canonical then v.route? (.ofPrefix t p) else none := by
  split
  · next hp =>
    have hl := h.locate?_eq t p
    rw [show p.network = p.address from hp, hp.eq] at hl
    exact hl
  · next hp => exact v.locate?_of_not_canonical t hp

theorem Proper.locate?_eq_some_iff {v : Vrf} (h : v.Proper) {t : TableKind} {a : Address} {n : Nat}
    {r : Route} : v.locate? t a n = some r ↔
      ∃ hn : n ≤ a.family.width, (∀ i, n ≤ i → i < a.family.width → a.bit i = false) ∧
        v.route? (.ofPrefix t ⟨a, n, hn⟩) = some r := by
  by_cases hn : n ≤ a.family.width
  · have hl : v.locate? t a n = _ := h.locate?_address t ⟨a, n, hn⟩
    have hbits : Prefix.Canonical ⟨a, n, hn⟩ ↔
        ∀ i, n ≤ i → i < a.family.width → a.bit i = false := Address.network_eq_self_iff hn
    rw [hl, Option.ite_none_right_eq_some, hbits, exists_prop_of_true hn]
  · rw [v.locate?_of_too_long t hn]
    exact iff_of_false (Option.some_ne_none r).symm fun h => hn h.1

/-- What is found has the prefix that was asked for. -/
theorem Proper.dest_of_locate? {v : Vrf} (h : v.Proper) {t : TableKind} {a : Address} {n : Nat}
    {r : Route} (hr : v.locate? t a n = some r) :
    ∃ hn : n ≤ a.family.width, r.dest = ⟨a, n, hn⟩ := by
  obtain ⟨hn, _, hr⟩ := h.locate?_eq_some_iff.mp hr
  exact ⟨hn, (h.dest _ r hr).trans (RouteKey.dest_ofPrefix t _)⟩

theorem Proper.drop {v : Vrf} (h : v.Proper) (k : RouteKey) : (v.drop k).Proper := by
  have hs : (v.store k ⟨k.dest, []⟩).Proper := h.store rfl Route.ranked_nil
  rwa [Vrf.store, if_pos rfl] at hs

/-- Dropping an entry takes away what was found if it was found there, and else changes nothing. -/
theorem Proper.locate?_drop {v : Vrf} (h : v.Proper) (k : RouteKey) (t : TableKind) (a : Address)
    (n : Nat) : (v.drop k).locate? t a n =
      (v.locate? t a n).filter fun r => k ≠ .ofPrefix t r.dest := by
  refine Option.ext fun r => ?_
  rw [Option.filter_eq_some_iff, decide_eq_true_iff]
  constructor
  · intro hr
    obtain ⟨hn, hbits, hget⟩ := (h.drop k).locate?_eq_some_iff.mp hr
    obtain ⟨_, hd⟩ := (h.drop k).dest_of_locate? hr
    have hk : k ≠ .ofPrefix t ⟨a, n, hn⟩ := by
      rintro rfl
      rw [route?_drop_self] at hget
      cases hget
    rw [route?_drop_of_ne v hk.symm] at hget
    exact ⟨h.locate?_eq_some_iff.mpr ⟨hn, hbits, hget⟩, hd ▸ hk⟩
  · rintro ⟨hr, hk⟩
    obtain ⟨hn, hbits, hget⟩ := h.locate?_eq_some_iff.mp hr
    obtain ⟨_, hd⟩ := h.dest_of_locate? hr
    rw [hd] at hk
    refine (h.drop k).locate?_eq_some_iff.mpr ⟨hn, hbits, ?_⟩
    rw [route?_drop_of_ne v hk.symm, hget]

end Vrf

namespace Sample

/-- The network 10.1.0.0/16, which covers the subnet. -/
def wide : Prefix := ⟨⟨.v4, 0x0a010000, by decide⟩, 16, by decide⟩

/-- The network 10.1.0.0/20, between the two. -/
def middle : Prefix := ⟨⟨.v4, 0x0a010000, by decide⟩, 20, by decide⟩

/-- An EVPN route to the subnet with a hardware address. -/
def hardware : EvpnKey := ⟨⟨0x020000000005, by decide⟩, subnet, 0⟩

/-- The machine has routes to the subnet, to the network that covers it and to its address. -/
def layered : Tables :=
  (((tables.apply install).1.apply { install with key := .inet wide }).1.apply
    { install with key := .evpn hardware }).1

theorem filled_layered : layered.Filled := ((filled.apply _).apply _).apply _

end Sample

namespace Tables

/-- In a VRF that requests have filled, the search for an address and a length finds a route exactly
if the length is one of the family, no bit of the address is set behind it, and the table has an
entry for this prefix, in the EVPN table of type 5; and then it finds this entry. So the route found
is neither less nor more specific, it is of the family of the address, and it goes with its own
entry and with no other one. -/
theorem locate_exact {db : Tables} (h : db.Filled) {name : String} {v : Vrf}
    (hv : db.vrfs.get? name = some v) (t : TableKind) (a : Address) (n : Nat) :
    (∀ r, v.locate? t a n = some r ↔
      ∃ hn : n ≤ a.family.width, (∀ i, n ≤ i → i < a.family.width → a.bit i = false) ∧
        v.route? (.ofPrefix t ⟨a, n, hn⟩) = some r) ∧
      (∀ r, v.locate? t a n = some r → r.dest.address = a ∧ r.dest.length = n) ∧
      ∀ k, (v.drop k).locate? t a n =
        (v.locate? t a n).filter fun r => k ≠ .ofPrefix t r.dest := by
  have hp : v.Proper := h.proper.vrf name v hv
  refine ⟨fun r => hp.locate?_eq_some_iff, fun r hr => ?_, fun k => hp.locate?_drop k t a n⟩
  obtain ⟨_, hd⟩ := hp.dest_of_locate? hr
  rw [hd]
  exact ⟨rfl, rfl⟩

/-- The subnet is found beside the network that covers it; a network between the two is not, nor is
the subnet in the EVPN table, where it has a hardware address. -/
theorem locate_exact_layered : ∃ v, Sample.layered.vrfs.get? "bridge" = some v ∧
    (∃ r, v.locate? .inet Sample.subnet.address 24 = some r) ∧
    (∀ r, v.locate? .inet Sample.middle.address 20 ≠ some r) ∧
    ∀ r, v.locate? .evpn Sample.subnet.address 24 ≠ some r := by
  obtain ⟨v, hv⟩ : ∃ v, Sample.layered.vrfs.get? "bridge" = some v :=
    Option.isSome_iff_exists.mp (by decide +kernel)
  have hget : ∀ k, v.route? k = Sample.layered.route? "bridge" k := by
    intro k
    rw [route?, hv, Option.bind_some]
  refine ⟨v, hv, ?_, fun r hr => ?_, fun r hr => ?_⟩
  · obtain ⟨r, hr⟩ : ∃ r, Sample.layered.route? "bridge" (.inet Sample.subnet) = some r :=
      Option.isSome_iff_exists.mp (by decide +kernel)
    have hbits : ∀ i < 32, 24 ≤ i → Sample.subnet.address.bit i = false := by decide +kernel
    exact ⟨r, ((locate_exact Sample.filled_layered hv .inet _ 24).1 r).mpr
      ⟨by decide, fun i hi hw => hbits i hw hi, (hget _).trans hr⟩⟩
  · obtain ⟨_, _, hr⟩ := ((locate_exact Sample.filled_layered hv .inet _ 20).1 r).mp hr
    have hnone : Sample.layered.route? "bridge" (.inet Sample.middle) = none := by decide +kernel
    rw [hget, show RouteKey.ofPrefix _ _ = .inet Sample.middle from rfl, hnone] at hr
    cases hr
  · obtain ⟨_, _, hr⟩ := ((locate_exact Sample.filled_layered hv .evpn _ 24).1 r).mp hr
    have hnone : Sample.layered.route? "bridge" (.evpn (.type5 Sample.subnet)) = none := by
      decide +kernel
    rw [hget, show RouteKey.ofPrefix _ _ = .evpn (.type5 Sample.subnet) from rfl, hnone] at hr
    cases hr

end Tables

end VxlanRouting
