import VxlanRouting.Proofs.Refresh
import VxlanRouting.Proofs.Rewiring

/-!
Events from outside other than requests: VNs are configured and forgotten, and interfaces come,
change and go. Each leaves a poised engine behind, so that processing ends in a settled state. For
interfaces this needs that all installed paths are current. They are so as long as the engine is
told of each change of an interface.
-/
namespace VxlanRouting

/-- What the engine is told of. -/
inductive Event where
  | updateVn (c : VnConfig)
  | deleteVn (vn : String)
  | updateInterface (i : Interface)
  | deleteInterface (name : String)

/-- The event is about an interface. -/
def Event.OfInterface : Event → Prop
  | .updateVn _ | .deleteVn _ => False
  | .updateInterface _ | .deleteInterface _ => True

theorem Tables.Current.of_relabels {db db' : Tables} (h : db.Current) (hr : db.Relabels db') :
    db'.Current := by
  intro vrf k x hx
  rw [hr.interfaces]
  rw [hr.paths] at hx
  exact h vrf k x hx

namespace Engine

/-- The engine after an event; a VN can only get a VRF that is there. -/
def handle (e : Engine) : Event → Except VrfError Engine
  | .updateVn c => e.updateVn c
  | .deleteVn vn => .ok (e.deleteVn vn)
  | .updateInterface i => .ok (e.updateInterface i)
  | .deleteInterface name => .ok (e.deleteInterface name)

/-- A settled engine with nothing to do is poised. -/
theorem Settled.poised {e : Engine} (hs : e.Settled) (he : e.Sound) (hw : e.Wired)
    (hq : e.queue = []) : e.Poised := by
  obtain ⟨hidle, hclear⟩ := (settled_iff he.sorted).mp hs
  have hnil : ∀ q, q ∉ e.queue := by
    intro q
    rw [hq]
    exact List.not_mem_nil
  refine ⟨he, hw, fun q h => absurd h (hnil q), fun q h => absurd h (hnil q),
    fun q h => absurd h (hnil q), fun σ hσ => .inl (hidle σ hσ), fun vrf hv k p hp => ?_,
    fun vrf p hσ _ _ _ => hidle _ hσ⟩
  simp only [awaited]
  rw [hq]
  exact hclear vrf hv k p hp

theorem eq_of_updateVn {e e' : Engine} {c : VnConfig} (h : e.updateVn c = .ok e') :
    e' = (({ e with tables := (e.moveVn c.name c.vrf).tables } : Engine).setRouters
      (e.routers.configure c).1).walkAll (e.routers.configure c).2 := by
  simp only [updateVn] at h
  cases hv : e.tables.vrfs.get? c.vrf with
  | none =>
    rw [hv] at h
    cases h
  | some v =>
    rw [hv] at h
    exact (Except.ok.inj h).symm

theorem handle_poised {e : Engine} (he : e.Sound) (hw : e.Wired) (hs : e.Settled)
    (hq : e.queue = []) {event : Event} (hcur : event.OfInterface → e.tables.Current) {e' : Engine}
    (h : e.handle event = .ok e') (ha : e'.routers.Apart) (hc : e'.Carries) :
    e'.Poised ∧ (e.tables.Current → e'.tables.Current) := by
  cases event with
  | updateVn c =>
    have hdb := e.relabels_moveVn c.name c.vrf
    obtain ⟨hp, ht⟩ := poised_of_rewiring he hw hdb hs hq (hw.coherent.rewires_configure c)
      (eq_of_updateVn h) ha hc
    exact ⟨hp, fun hcur => ht ▸ hcur.of_relabels hdb⟩
  | deleteVn vn =>
    have hdb := e.relabels_clearVn vn none
    have h : e' = e.deleteVn vn := (Except.ok.inj h).symm
    obtain ⟨hp, ht⟩ := poised_of_rewiring he hw hdb hs hq (hw.coherent.rewires_detach vn) h ha hc
    exact ⟨hp, fun hcur => ht ▸ hcur.of_relabels hdb⟩
  | updateInterface i =>
    have hget : ∀ n, n ≠ i.name → (e.tables.interfaces.put i).get? n =
        e.tables.interfaces.get? n := fun n hn => OrderedMap.get?_insert_of_ne _ _ hn
    have h : e' = e.updateInterface i := (Except.ok.inj h).symm
    obtain ⟨hp, hnew⟩ := poised_of_refresh he hw hs hq (hcur trivial) hget _ rfl h ha hc
    exact ⟨hp, fun _ => hnew⟩
  | deleteInterface name =>
    have h := (Except.ok.inj h).symm
    simp only [deleteInterface] at h
    split at h
    · have hget : ∀ n, n ≠ name → (e.tables.interfaces.erase name).get? n =
          e.tables.interfaces.get? n := fun n hn => OrderedMap.get?_erase_of_ne _ hn
      obtain ⟨hp, hnew⟩ := poised_of_refresh he hw hs hq (hcur trivial) hget _ rfl h ha hc
      exact ⟨hp, fun _ => hnew⟩
    · rw [h]
      exact ⟨hs.poised he hw hq, id⟩

end Engine

namespace Sample

/-- What the network is advertised with. -/
def advertised : Attributes :=
  { destVns := ["bridge-vn"], vni := Vni.ofNat? 7, tunnelTypes := .vxlan }

def exportTap : Request :=
  ⟨"routing", .evpn (.type5 subnet), params.exportPeer,
    .installLocal (.interface "tap" false) advertised⟩

def leakTap : Request :=
  ⟨"routing", .inet subnet, params.leakPeer, .installLocal (.interface "tap" false) advertised⟩

/-- The engine when the machine's network has been exported and leaked. -/
def passedOn : Engine :=
  { engine with tables := (((tables.apply install).1.apply exportTap).1.apply leakTap).1 }

theorem filled_passedOn : passedOn.tables.Filled :=
  ((filled.apply install).apply exportTap).apply leakTap

theorem settled_passedOn : passedOn.Settled :=
  Engine.settled_of_prefixes filled_passedOn.proper configured.coherent.sorted (by decide +kernel)
    (by decide +kernel)

end Sample

namespace Engine

end Engine

namespace Sample

def tap₂ : Interface := ⟨"tap2", .vm {}, 4⟩

/-- A machine behind both interfaces has the network; the second one is a composite of its own. -/
def installBoth : Request :=
  ⟨"bridge", .inet subnet, ⟨"machine", .localVm⟩, .installLocal (.composite .ecmp
    [⟨1, .interface "tap" false⟩, ⟨2, .composite .ecmp [⟨3, .interface "tap2" false⟩]⟩]) {}⟩

/-- A control node has a route to the network behind both interfaces. -/
def control : Request :=
  ⟨"routing", .evpn (.type5 subnet), ⟨"control", .bgp⟩, .installLocal (.composite .ecmp
    [⟨1, .interface "tap" false⟩, ⟨2, .interface "tap2" false⟩]) advertised⟩

/-- The machine came while neither interface was there, and nobody has told of the first one. -/
def untold : Engine :=
  { engine with tables :=
    (((({ (vrfs.apply installBoth).1 with interfaces := tables.interfaces } : Tables).apply
      control).1).apply leakTap).1 }

theorem filled_untold : untold.tables.Filled :=
  ((Tables.Filled.setInterfaces _ (filled_vrfs.apply installBoth)).apply control).apply leakTap

theorem settled_untold : untold.Settled :=
  Engine.settled_of_prefixes filled_untold.proper configured.coherent.sorted (by decide +kernel)
    (by decide +kernel)

end Sample

namespace Engine

end Engine

end VxlanRouting
