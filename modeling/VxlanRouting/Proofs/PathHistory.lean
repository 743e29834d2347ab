import VxlanRouting.Proofs.PathMap
import Mathlib.Data.List.Induction

/-!
What a route keeps of its history. Its list of paths is strictly ordered and has one path of a peer
at most, so it is known from the path of each peer; and a peer has the path that it was last given
and that was not taken from it since. Nothing else of the history can be seen, neither in which
order the peers came nor which paths were replaced. In the same way it does not matter how the list
is kept in order: writing over the old path and sorting afterwards gives what placing the new path
gives.
-/
namespace VxlanRouting

/-- Paths of one rank are level, so not coming before is transitive too. -/
theorem Path.not_before_trans {x y z : Path} (h : ¬ y.Before x) (h' : ¬ z.Before y) :
    ¬ z.Before x := by
  simp only [Before, not_or, not_and] at h h'
  rintro (hlt | ⟨hk, hlt⟩)
  · omega
  · have hzx : z.peer.kind.rank = x.peer.kind.rank := PeerKind.rank_inj.mpr hk
    have hyx : y.peer.kind = x.peer.kind := PeerKind.rank_inj.mp (by omega)
    have hzy : z.peer.kind = y.peer.kind := hk.trans hyx.symm
    obtain ⟨hp, hn⟩ := h.2 hyx
    obtain ⟨hp', hn'⟩ := h'.2 hzy
    rcases hlt with hlt | ⟨he, hlt⟩
    · omega
    · have hxy := String.not_lt.mp (hn (by omega))
      have hyz := String.not_lt.mp (hn' (by omega))
      exact String.not_lt.mpr (String.le_trans hxy hyz) hlt

namespace Route

theorem place_perm (x : Path) (l : List Path) : (place x l).Perm (x :: l) := by
  induction l with
  | nil => exact .refl _
  | cons y l ih =>
    simp only [place]
    split
    · exact .refl _
    · exact (ih.cons y).trans (.swap x y l)

theorem Ranked.before {l : List Path} (h : Ranked l) : l.Pairwise Path.Before :=
  h.imp fun h => h.1

theorem Ranked.nodup {l : List Path} (h : Ranked l) : l.Nodup := by
  refine h.imp fun {x y} hxy he => ?_
  exact hxy.2 (congrArg Path.peer he)

/-- Only one order of the paths is ranked. -/
theorem Ranked.eq_of_perm {l l' : List Path} (h : Ranked l) (h' : Ranked l') (hp : l.Perm l') :
    l = l' := by
  refine hp.eq_of_pairwise (fun x y _ _ hxy hyx => ?_) h.before h'.before
  exact absurd hyx (Path.before_asymm hxy)

/-- Ranked paths are known from the path of each peer. -/
theorem Ranked.ext {l l' : List Path} (h : Ranked l) (h' : Ranked l')
    (he : ∀ p, (l.find? fun x => x.peer = p) = l'.find? fun x => x.peer = p) : l = l' := by
  refine h.eq_of_perm h' ((List.perm_ext_iff_of_nodup h.nodup h'.nodup).mpr fun x => ?_)
  constructor
  · intro hx
    have hf := find?_of_mem h.nodup_peers hx
    rw [he] at hf
    exact List.mem_of_find?_eq_some hf
  · intro hx
    have hf := find?_of_mem h'.nodup_peers hx
    rw [← he] at hf
    exact List.mem_of_find?_eq_some hf

/-- A path of some kind that comes before all others of the kind, or none if there are none. -/
inductive Least (l : List Path) (f : Path → Prop) : Option Path → Prop
  | none : (∀ y ∈ l, ¬ f y) → Least l f none
  | some {x : Path} : x ∈ l → f x → (∀ y ∈ l, f y → y ≠ x → x.Before y) → Least l f (some x)

theorem Ranked.least_find? {l : List Path} (h : Ranked l) (f : Path → Prop) [DecidablePred f] :
    Least l f (l.find? fun x => f x) := by
  cases hx : l.find? fun x => decide (f x) with
  | none => exact .none fun y hy => by simpa using List.find?_eq_none.mp hx y hy
  | some x =>
    obtain ⟨hf, before, behind, rfl, hbefore⟩ := List.find?_eq_some_iff_append.mp hx
    obtain ⟨_, hbehind, _⟩ := List.pairwise_append.mp h
    refine .some (by simp) (by simpa using hf) fun y hy hfy hne => ?_
    rcases List.mem_append.mp hy with hy | hy
    · have hnot : ¬ f y := by simpa using hbefore y hy
      exact absurd hfy hnot
    · exact ((List.pairwise_cons.mp hbehind).1 y ((List.mem_cons.mp hy).resolve_left hne)).1

theorem active?_eq_find? (r : Route) : r.active? = r.paths.find? fun _ => decide True := by
  simp only [active?]
  cases r.paths <;> rfl

/-- What is done with the paths of a route. -/
inductive Edit where
  | add (x : Path)
  | remove (p : Peer)

/-- The peer that an edit is for. -/
def Edit.peer : Edit → Peer
  | .add x => x.peer
  | .remove p => p

/-- The path that an edit leaves to its peer. -/
def Edit.path? : Edit → Option Path
  | .add x => some x
  | .remove _ => none

def edit (r : Route) : Edit → Route
  | .add x => r.add x
  | .remove p => r.remove p

/-- The route after a list of edits. -/
def edits (r : Route) (l : List Edit) : Route := l.foldl edit r

/-- The path that the last edit for a peer leaves to it. -/
def last? (p : Peer) (l : List Edit) : Option Path :=
  (l.reverse.find? fun e => e.peer = p).bind Edit.path?

theorem last?_concat (p : Peer) (l : List Edit) (e : Edit) :
    last? p (l ++ [e]) = if e.peer = p then e.path? else last? p l := by
  simp only [last?]
  rw [List.reverse_concat]
  split
  · next h => rw [List.find?_cons_of_pos (by simpa using h), Option.bind_some]
  · next h => rw [List.find?_cons_of_neg (by simpa using h)]

@[simp] theorem dest_edit (r : Route) (e : Edit) : (r.edit e).dest = r.dest := by
  cases e with
  | add x => exact dest_add r x
  | remove p => exact dest_remove r p

theorem ranked_edit {r : Route} (h : Ranked r.paths) (e : Edit) : Ranked (r.edit e).paths := by
  cases e with
  | add x =>
    simp only [edit]
    rw [paths_add]
    exact ranked_enter x h
  | remove p => exact ranked_without h

/-- An edit is for one peer, and the others keep what they have. -/
theorem without_edit (r : Route) (e : Edit) :
    without e.peer (r.edit e).paths = without e.peer r.paths := by
  cases e with
  | add x =>
    simp only [edit, Edit.peer]
    rw [paths_add, without_enter]
  | remove p => exact without_without p r.paths

theorem find?_edit (r : Route) (e : Edit) (p : Peer) :
    (r.edit e).find? p = if e.peer = p then e.path? else r.find? p := by
  split
  · next hp =>
    subst hp
    cases e with
    | add x =>
      simp only [find?, edit]
      rw [paths_add]
      exact find?_enter_self x r.paths
    | remove p => exact find?_without_self p r.paths
  · next hp =>
    have hskip : ∀ x : Path, x.peer = e.peer → decide (x.peer = p) = false := by
      intro x hx
      simpa [hx] using hp
    simp only [find?]
    rw [← find?_without hskip, without_edit, find?_without hskip]

theorem edits_concat (r : Route) (l : List Edit) (e : Edit) :
    r.edits (l ++ [e]) = (r.edits l).edit e := by
  simp [edits]

theorem dest_edits (r : Route) (l : List Edit) : (r.edits l).dest = r.dest := by
  induction l using List.reverseRecOn with
  | nil => rfl
  | append_singleton l e ih => rw [edits_concat, dest_edit, ih]

theorem ranked_edits (d : Prefix) (l : List Edit) : Ranked (edits { dest := d } l).paths := by
  induction l using List.reverseRecOn with
  | nil => exact ranked_nil
  | append_singleton l e ih =>
    rw [edits_concat]
    exact ranked_edit ih e

theorem find?_edits (d : Prefix) (l : List Edit) (p : Peer) :
    (edits { dest := d } l).find? p = last? p l := by
  induction l using List.reverseRecOn with
  | nil => rfl
  | append_singleton l e ih => rw [edits_concat, find?_edit, last?_concat, ih]

/-- Histories that leave the same path to each peer lead to the same route. -/
theorem edits_eq {d : Prefix} {l l' : List Edit} (h : ∀ p, last? p l = last? p l') :
    edits { dest := d } l = edits { dest := d } l' := by
  refine ext_parts ?_ ((ranked_edits d l).ext (ranked_edits d l') fun p => ?_)
  · rw [dest_edits, dest_edits]
  · have hp := h p
    rw [← find?_edits d l, ← find?_edits d l'] at hp
    exact hp

/-- Puts a path where the one of its peer stands, or at the end. -/
def overwrite (x : Path) : List Path → List Path
  | [] => [x]
  | y :: l => if y.peer = x.peer then x :: l else y :: overwrite x l

/-- Adds a path by writing over the one of its peer and sorting stably, and says whether anything
changes. -/
def submit (r : Route) (x : Path) : Route × Bool :=
  if r.find? x.peer = some x then (r, false)
  else
    ({ r with paths := (overwrite x r.paths).mergeSort fun y z => !decide (z.Before y) }, true)

/-- Removes the first path of a peer and gives it out. -/
def retract (r : Route) (p : Peer) : Route × Option Path :=
  ({ r with paths := r.paths.eraseP fun x => x.peer = p }, r.find? p)

theorem without_eq_self {p : Peer} {l : List Path} (h : ∀ x ∈ l, x.peer ≠ p) :
    without p l = l :=
  List.filter_eq_self.mpr fun x hx => by simpa using h x hx

/-- If no peer has two paths, only one is written over. -/
theorem overwrite_perm {x : Path} {l : List Path} (h : (l.map (·.peer)).Nodup) :
    (overwrite x l).Perm (x :: without x.peer l) := by
  induction l with
  | nil => exact .refl _
  | cons y l ih =>
    obtain ⟨hy, hl⟩ := List.nodup_cons.mp h
    simp only [overwrite]
    split
    · next hp =>
      have hself : without x.peer l = l := without_eq_self fun z hz he =>
        hy (List.mem_map.mpr ⟨z, hz, he.trans hp.symm⟩)
      rw [without_cons_of_eq hp, hself]
    · next hp =>
      rw [without_cons_of_ne hp]
      exact ((ih hl).cons y).trans (.swap x y _)

theorem eraseP_eq_without {p : Peer} {l : List Path} (h : (l.map (·.peer)).Nodup) :
    (l.eraseP fun x => x.peer = p) = without p l := by
  induction l with
  | nil => rfl
  | cons y l ih =>
    obtain ⟨hy, hl⟩ := List.nodup_cons.mp h
    by_cases hp : y.peer = p
    · have hself : without p l = l := without_eq_self fun z hz he =>
        hy (List.mem_map.mpr ⟨z, hz, he.trans hp.symm⟩)
      rw [List.eraseP_cons_of_pos (by simpa using hp), without_cons_of_eq hp, hself]
    · rw [List.eraseP_cons_of_neg (by simpa using hp), without_cons_of_ne hp, ih hl]

/-- Sorting ranks any paths of different peers. -/
theorem ranked_mergeSort {l : List Path} (h : (l.map (·.peer)).Nodup) :
    Ranked (l.mergeSort fun y z => !decide (z.Before y)) := by
  have hperm := List.mergeSort_perm l fun y z => !decide (z.Before y)
  have hpeers := List.pairwise_map.mp ((hperm.map (·.peer)).nodup_iff.mpr h)
  have hsort : (l.mergeSort fun y z => !decide (z.Before y)).Pairwise
      fun y z => (!decide (z.Before y)) = true := by
    refine List.pairwise_mergeSort (fun x y z hxy hyz => ?_) (fun x y => ?_) l
    · simpa using Path.not_before_trans (by simpa using hxy) (by simpa using hyz)
    · by_cases hyx : y.Before x
      · simp [Path.before_asymm hyx]
      · simp [hyx]
  refine (hsort.and hpeers).imp fun {y z} hyz => ⟨?_, hyz.2⟩
  have hnot : ¬ z.Before y := by simpa using hyz.1
  exact (Path.before_or_before hyz.2).resolve_right hnot

/-- On ranked paths, writing over and sorting adds a path, and tells whether the paths change. -/
theorem submit_eq {r : Route} (h : Ranked r.paths) (x : Path) :
    r.submit x = (r.add x, decide ((r.add x).paths ≠ r.paths)) := by
  by_cases hx : r.find? x.peer = some x
  · simp [submit, add, hx]
  · have hperm : (overwrite x r.paths).Perm (x :: without x.peer r.paths) :=
      overwrite_perm h.nodup_peers
    have hplace : Ranked (place x (without x.peer r.paths)) :=
      ranked_place (ranked_without h) fun y hy => peer_of_mem_without hy
    have hnodup : ((overwrite x r.paths).map (·.peer)).Nodup := by
      refine ((hperm.trans (place_perm x _).symm).map (·.peer)).nodup_iff.mpr ?_
      exact hplace.nodup_peers
    have hsort : ((overwrite x r.paths).mergeSort fun y z => !decide (z.Before y)) =
        place x (without x.peer r.paths) := by
      refine (ranked_mergeSort hnodup).eq_of_perm hplace ?_
      exact (List.mergeSort_perm _ _).trans (hperm.trans (place_perm x _).symm)
    have hadd : r.add x = { r with paths := place x (without x.peer r.paths) } := if_neg hx
    have hne : (r.add x).paths ≠ r.paths := by
      intro he
      apply hx
      simp only [find?]
      rw [← he, paths_add]
      exact find?_enter_self x r.paths
    simp only [submit]
    rw [if_neg hx, hsort, ← hadd, decide_eq_true hne]

theorem retract_eq {r : Route} (h : Ranked r.paths) (p : Peer) :
    r.retract p = (r.remove p, r.find? p) := by
  simp only [retract, remove]
  rw [eraseP_eq_without h.nodup_peers]

/-- Whatever was added to a route and removed from it, its paths are strictly ordered, and no peer
has two of them. Each peer has the path that it was last given and that was not removed since, so
histories that agree on these lead to one and the same route. Its best path is the first in this
order, of all or of a kind. A path is added by writing over the old one of the peer and sorting, and
is reported as no change exactly if the list stays as it is; removing gives out what the peer had. -/
theorem edits_canonical (d : Prefix) (l : List Edit) :
    ((edits { dest := d } l).paths.map (·.peer)).Nodup ∧
      (edits { dest := d } l).paths.Pairwise Path.Before ∧
      (∀ p, (edits { dest := d } l).find? p = last? p l) ∧
      (∀ l', (∀ p, last? p l = last? p l') →
        edits { dest := d } l = edits { dest := d } l') ∧
      Least (edits { dest := d } l).paths (fun _ => True) (edits { dest := d } l).active? ∧
      (∀ k, Least (edits { dest := d } l).paths (fun x => x.peer.kind = k)
        ((edits { dest := d } l).findKind? k)) ∧
      (∀ x, (edits { dest := d } l).submit x =
        (edits { dest := d } (l ++ [.add x]),
          decide ((edits { dest := d } (l ++ [.add x])).paths ≠
            (edits { dest := d } l).paths))) ∧
      ∀ p, (edits { dest := d } l).retract p =
        (edits { dest := d } (l ++ [.remove p]), last? p l) := by
  have h := ranked_edits d l
  refine ⟨h.nodup_peers, h.before, find?_edits d l, fun _ => edits_eq, ?_, fun k => ?_, fun x => ?_,
    fun p => ?_⟩
  · rw [active?_eq_find?]
    exact h.least_find? fun _ => True
  · exact h.least_find? fun x => x.peer.kind = k
  · rw [edits_concat]
    exact submit_eq h x
  · rw [edits_concat, ← find?_edits d l p]
    exact retract_eq h p

end Route

end VxlanRouting
