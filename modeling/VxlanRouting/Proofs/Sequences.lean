import VxlanRouting.Proofs.Placement

/-!
The ECMP sequences that a router gives out. As long as a router is known its counter stays or goes
up, so no sequence is given out twice, but for one case: when the only VN of a router is configured
for the same router with another role or VRF, it leaves for a moment, the router is forgotten with
its counter, and a new one begins at zero.
-/
namespace VxlanRouting

namespace LogicalRouter

theorem isEmpty_without_iff {r : LogicalRouter} {vn : String} :
    (r.without vn).isEmpty = true ↔ ∀ vn', r.Lists vn' → vn' = vn := by
  constructor
  · intro he vn' hl
    exact Classical.byContradiction fun hne =>
      not_lists_of_isEmpty he vn' (lists_without.mpr ⟨hne, hl⟩)
  · refine fun honly => Classical.byContradiction fun hfull => ?_
    obtain ⟨vn', hl⟩ := exists_lists hfull
    obtain ⟨hne, hl⟩ := lists_without.mp hl
    exact hne (honly vn' hl)

theorem ecmpSequence_leave (r : LogicalRouter) (vn : String) : (r.leave vn).ecmpSequence =
    if (r.without vn).isEmpty then 0 else r.ecmpSequence := by
  unfold leave
  split
  · rfl
  · exact ecmpSequence_without r vn

theorem ecmpSequence_join (r : LogicalRouter) (c : VnConfig) :
    (r.join c).ecmpSequence = r.ecmpSequence := by
  unfold join
  split <;> rfl

/-- A router that still has VNs when one has left keeps its counter. -/
theorem ecmpSequence_leave_of_lists {r : LogicalRouter} {vn vn' : String}
    (h : (r.leave vn).Lists vn') : (r.leave vn).ecmpSequence = r.ecmpSequence := by
  rw [ecmpSequence_leave, if_neg]
  intro he
  unfold leave at h
  rw [if_pos he] at h
  exact not_lists_of_isEmpty rfl vn' h

end LogicalRouter

namespace RouterMap

/-- The change takes the only VN from a router and puts it back in another role or with another
VRF. -/
def Renews (m : RouterMap) (id : LogicalRouterId) : Change → Prop
  | .configure c => c.router = some id ∧ ¬ m.InPlace c ∧
      ∀ vn, m.ownerOf? vn = some id → vn = c.name
  | .detach _ | .remove _ | .nextSequence _ => False

/-- The sequences that a router gives out in a change. -/
def gives (m : RouterMap) (id : LogicalRouterId) : Change → List Nat
  | .nextSequence id' => if id' = id then [(m.nextSequence id).2] else []
  | .configure _ | .detach _ | .remove _ => []

/-- The sequences that a router gives out in the course of changes. -/
def given (m : RouterMap) (id : LogicalRouterId) : List Change → List Nat
  | [] => []
  | change :: l => m.gives id change ++ (m.change change).given id l

/-- In the course of changes a router stays known and is never renewed. -/
def Lasts (m : RouterMap) (id : LogicalRouterId) : List Change → Prop
  | [] => True
  | change :: l => ¬ m.Renews id change ∧ ((m.change change).router? id).isSome = true ∧
      (m.change change).Lasts id l

theorem router?_nextSequence {m : RouterMap} {id id' : LogicalRouterId} {r : LogicalRouter}
    (hr : m.router? id = some r) : (m.nextSequence id').1.router? id =
      some (if id' = id then { r with ecmpSequence := r.ecmpSequence + 1 } else r) := by
  by_cases he : id' = id
  · subst he
    rw [if_pos rfl]
    simp only [nextSequence]
    rw [hr]
    exact OrderedMap.get?_insert_self _ _ _
  · rw [if_neg he, ← hr]
    simp only [nextSequence]
    split
    · rfl
    · exact OrderedMap.get?_insert_of_ne _ _ (Ne.symm he)

theorem snd_nextSequence {m : RouterMap} {id : LogicalRouterId} {r : LogicalRouter}
    (hr : m.router? id = some r) : (m.nextSequence id).2 = r.ecmpSequence + 1 := by
  simp only [nextSequence]
  rw [hr]

namespace Indexed

variable {m : RouterMap} (h : m.Indexed) {id : LogicalRouterId} {r r' : LogicalRouter}
  (hr : m.router? id = some r)

include h hr

theorem isEmpty_without_iff {vn : String} :
    (r.without vn).isEmpty = true ↔ ∀ vn', m.ownerOf? vn' = some id → vn' = vn := by
  rw [LogicalRouter.isEmpty_without_iff]
  refine forall_congr' fun vn' => ?_
  rw [h.owns_known, known_eq hr]

/-- A renewed router begins at zero. -/
theorem ecmpSequence_renewed {change : Change} (hn : m.Renews id change)
    (hr' : (m.change change).router? id = some r') : r'.ecmpSequence = 0 := by
  cases change with
  | configure c =>
    obtain ⟨hc, hs, honly⟩ := hn
    have hafter : r' = (r.leave c.name).join c := by
      rw [← known_eq hr, ← known_eq hr']
      exact (h.known_configure hs id).trans (if_pos hc)
    rw [hafter, LogicalRouter.ecmpSequence_join, LogicalRouter.ecmpSequence_leave,
      if_pos ((h.isEmpty_without_iff hr).mpr honly)]
  | detach _ | remove _ | nextSequence _ => exact hn.elim

theorem ecmpSequence_detach {vn : String} (hr' : (m.detach vn).1.router? id = some r') :
    r'.ecmpSequence = r.ecmpSequence := by
  obtain ⟨left, hleft⟩ := (h.detach vn).listed id r' hr'
  have hafter : r' = r.leave vn := by
    rw [← known_eq hr, ← known_eq hr']
    exact h.known_detach vn id
  subst hafter
  exact LogicalRouter.ecmpSequence_leave_of_lists hleft

theorem ecmpSequence_configure {c : VnConfig} (hn : ¬ m.Renews id (.configure c))
    (hr' : (m.configure c).1.router? id = some r') : r'.ecmpSequence = r.ecmpSequence := by
  by_cases hs : m.InPlace c
  · rw [configure_of_inPlace hs, hr] at hr'
    rw [Option.some.inj hr']
  · have hafter := h.known_configure hs id
    rw [known_eq hr', known_eq hr] at hafter
    by_cases hc : c.router = some id
    · -- the VN joins the router again, which has kept another VN
      rw [if_pos hc] at hafter
      rw [hafter, LogicalRouter.ecmpSequence_join, LogicalRouter.ecmpSequence_leave, if_neg]
      exact fun he => hn ⟨hc, hs, (h.isEmpty_without_iff hr).mp he⟩
    · rw [if_neg hc] at hafter
      obtain ⟨left, hleft⟩ := (h.configure c).listed id r' hr'
      subst hafter
      exact LogicalRouter.ecmpSequence_leave_of_lists hleft

/-- A router that is not renewed keeps its counter, or counts the sequence that it gives out. -/
theorem ecmpSequence_change {change : Change} (hn : ¬ m.Renews id change)
    (hr' : (m.change change).router? id = some r') :
    (m.gives id change = [] ∧ r'.ecmpSequence = r.ecmpSequence) ∨
      (m.gives id change = [r.ecmpSequence + 1] ∧ r'.ecmpSequence = r.ecmpSequence + 1) := by
  cases change with
  | configure c => exact .inl ⟨rfl, h.ecmpSequence_configure hr hn hr'⟩
  | detach vn => exact .inl ⟨rfl, h.ecmpSequence_detach hr hr'⟩
  | remove id' =>
    refine .inl ⟨rfl, ?_⟩
    have hget : (m.remove id').router? id = some r' := hr'
    rw [router?_remove, hr] at hget
    split at hget
    · cases hget
    · rw [Option.some.inj hget]
  | nextSequence id' =>
    have hget : (m.nextSequence id').1.router? id = some r' := hr'
    rw [router?_nextSequence hr] at hget
    obtain rfl := Option.some.inj hget
    simp only [gives]
    by_cases he : id' = id
    · subst he
      rw [if_pos rfl, if_pos rfl, snd_nextSequence hr]
      exact .inr ⟨rfl, rfl⟩
    · rw [if_neg he, if_neg he]
      exact .inl ⟨rfl, rfl⟩

/-- The sequences of a router that lasts ascend from its counter. -/
theorem given_ascends {l : List Change} (hl : m.Lasts id l) :
    (m.given id l).Pairwise (· < ·) ∧ ∀ n ∈ m.given id l, r.ecmpSequence < n := by
  induction l generalizing m r with
  | nil => exact ⟨.nil, List.forall_mem_nil _⟩
  | cons change l ih =>
    obtain ⟨hn, hknown, hl⟩ := hl
    obtain ⟨r', hr'⟩ := Option.isSome_iff_exists.mp hknown
    obtain ⟨hasc, habove⟩ := ih (h.change change) hr' hl
    simp only [given]
    rcases h.ecmpSequence_change hr hn hr' with ⟨hg, hsame⟩ | ⟨hg, hnext⟩
    · rw [hg, ← hsame]
      exact ⟨hasc, habove⟩
    · rw [hg, List.singleton_append]
      rw [hnext] at habove
      refine ⟨List.pairwise_cons.mpr ⟨habove, hasc⟩, fun n hmem => ?_⟩
      rcases List.mem_cons.mp hmem with rfl | hmem
      · exact Nat.lt_succ_self _
      · exact Nat.lt_of_succ_lt (habove n hmem)

end Indexed

/-- Whatever has been done to the routers, a change takes the counter of a known router back exactly
if it renews the router after this has given out sequences. In the course of changes that never
renew it, a router gives out ascending sequences, and so none twice. -/
theorem ecmpSequence_kept_iff (l : List Change) (id : LogicalRouterId) (r : LogicalRouter)
    (hr : (changes {} l).router? id = some r) :
    (∀ change r', ((changes {} l).change change).router? id = some r' →
      (r.ecmpSequence ≤ r'.ecmpSequence ↔
        ¬ ((changes {} l).Renews id change ∧ 0 < r.ecmpSequence))) ∧
      ∀ l', (changes {} l).Lasts id l' → ((changes {} l).given id l').Pairwise (· < ·) ∧
        ∀ n ∈ (changes {} l).given id l', r.ecmpSequence < n := by
  have h : (changes {} l).Indexed := indexed_empty.changes l
  refine ⟨fun change r' hr' => ?_, fun l' hl => h.given_ascends hr hl⟩
  by_cases hn : (changes {} l).Renews id change
  · rw [h.ecmpSequence_renewed hr hn hr', and_iff_right hn]
    exact Nat.not_lt.symm
  · refine iff_of_true ?_ fun hx => hn hx.1
    rcases h.ecmpSequence_change hr hn hr' with ⟨_, hsame⟩ | ⟨_, hnext⟩
    · exact Nat.le_of_eq hsame.symm
    · rw [hnext]
      exact Nat.le_succ _

end RouterMap

namespace Sample

/-- A router with one bridge, which has given out a sequence. -/
def used : List RouterMap.Change := [.configure bridgeVn, .nextSequence router]

/-- What has become of the router then. -/
def usedRouter : LogicalRouter := { bridges := ⟨[("bridge-vn", "bridge")]⟩, ecmpSequence := 1 }

/-- The bridge gets another VRF. -/
def otherVrf : VnConfig := { bridgeVn with vrf := "other" }

/-- What is done with the router afterwards; a routing VN comes before the bridge gets another
VRF. -/
def course : List RouterMap.Change :=
  [.configure routingVn, .nextSequence router, .configure otherVrf, .nextSequence router]

end Sample

namespace RouterMap

/-- A router with a second VN counts on when the first one gets another VRF. -/
theorem ecmpSequence_kept_beside :
    (changes {} Sample.used).router? Sample.router = some Sample.usedRouter ∧
      (changes {} Sample.used).Lasts Sample.router Sample.course ∧
        (changes {} Sample.used).given Sample.router Sample.course = [2, 3] ∧
          ([2, 3] : List Nat).Pairwise (· < ·) := by
  have hr : (changes {} Sample.used).router? Sample.router = some Sample.usedRouter := by
    decide +kernel
  have hgiven : (changes {} Sample.used).given Sample.router Sample.course = [2, 3] := by
    decide +kernel
  have hlasts : (changes {} Sample.used).Lasts Sample.router Sample.course := by
    -- neither configuration finds the router with the configured VN alone
    refine ⟨fun hn => ?_, by decide +kernel, id, by decide +kernel, fun hn => ?_,
      by decide +kernel, id, by decide +kernel, trivial⟩
    · exact absurd (hn.2.2 "bridge-vn" (by decide +kernel)) (by decide)
    · exact absurd (hn.2.2 "routing-vn" (by decide +kernel)) (by decide)
  refine ⟨hr, hlasts, hgiven, ?_⟩
  rw [← hgiven]
  exact ((ecmpSequence_kept_iff Sample.used Sample.router Sample.usedRouter hr).2 Sample.course
    hlasts).1

/-- A counter does go back: the only VN of a router gets another VRF. -/
theorem not_ecmpSequence_kept :
    ¬ ∀ m : RouterMap, m.Configured → ∀ m' : RouterMap,
      ((∃ c, m' = (m.configure c).1) ∨ ∃ vn, m' = (m.detach vn).1) →
        ∀ id r r', m.router? id = some r → m'.router? id = some r' →
          r.ecmpSequence ≤ r'.ecmpSequence := by
  intro h
  have hback := h (changes {} Sample.used) (.nextSequence _ (.configure _ .empty))
    ((changes {} Sample.used).configure Sample.otherVrf).1 (.inl ⟨_, rfl⟩) Sample.router
    Sample.usedRouter { bridges := ⟨[("bridge-vn", "other")]⟩ } (by decide +kernel)
    (by decide +kernel)
  exact absurd hback (by decide)

end RouterMap

end VxlanRouting
