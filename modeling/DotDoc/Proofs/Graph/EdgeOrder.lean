import DotDoc.Proofs.Graph.Entries
import DotDoc.Proofs.Graph.Linearize
import DotDoc.Proofs.Order.Cycles

set_option autoImplicit false

/-!
# The order of the sources of edge lines

The sources of a block have different keys, so the positions that are put in order stand for them,
and a link leads to a position if and only if it leads to the source there
(`Source.mem_targetPositions`). So the order of the edge lines is that of a scan of the collected
sources (`Source.linearize_eq_scan`), and what holds of scans holds of it: sources come before those
that they lead to, as far as there are no cycles (`Source.orderedByLinks`).
-/

namespace DotDoc

variable {ρ : Type}

namespace Source

/-- A link of the first source leads to the second one, which is not the first one itself. -/
def leadsTo (s t : Source ρ) : Bool :=
  s.key != t.key && s.links.any fun l => l.target.key? == some t.key

theorem leadsTo_self (s : Source ρ) : s.leadsTo s = false := by simp [leadsTo]

/-- The position at which a source is collected. -/
def rank (ss : List (Source ρ)) (s : Source ρ) : Nat := ss.findIdx fun t => t.key == s.key

variable {ss : List (Source ρ)}

theorem key_get_inj (h : (ss.map key).Nodup) {i j : Fin ss.length}
    (hij : (ss.get i).key = (ss.get j).key) : i = j := by
  have hinj := List.nodup_iff_injective_getElem.1 h
  have heq : (⟨i, by simp⟩ : Fin (ss.map key).length) = ⟨j, by simp⟩ := hinj (by simpa using hij)
  exact Fin.ext (Fin.mk.inj heq)

theorem position?_eq_some (h : (ss.map key).Nodup) {k : SourceKey} {i : Fin ss.length} :
    position? ss k = some i ↔ (ss.get i).key = k := by
  constructor
  · intro hi
    have hkey := List.findFinIdx?_eq_some_iff.1 hi
    simpa using hkey.1
  · rintro rfl
    cases hp : position? ss (ss.get i).key with
    | none =>
        have hnot := List.findFinIdx?_eq_none_iff.1 hp
        simpa using hnot (ss.get i) (List.get_mem ss i)
    | some j =>
        have hkey := (List.findFinIdx?_eq_some_iff.1 hp).1
        rw [key_get_inj h (by simpa using hkey : (ss.get j).key = (ss.get i).key)]

/-- A target is found at the position of the source that it leads to. -/
theorem position?_target_eq_some (h : (ss.map key).Nodup) {t : Target ρ} {i : Fin ss.length} :
    t.key?.bind (position? ss) = some i ↔ t.key? = some (ss.get i).key := by
  rw [Option.bind_eq_some_iff]
  constructor
  · rintro ⟨k, hk, hi⟩
    rw [hk, (position?_eq_some h).1 hi]
  · intro hk
    exact ⟨_, hk, (position?_eq_some h).2 rfl⟩

/-- The positions that a link leads to are those of the sources that it leads to. -/
theorem mem_targetPositions (h : (ss.map key).Nodup) {i j : Fin ss.length} :
    j ∈ targetPositions ss i ↔
      ∃ l ∈ (ss.get i).links, l.target.key? = some (ss.get j).key := by
  rw [targetPositions, List.mem_filterMap]
  exact exists_congr fun l => and_congr_right fun _ => position?_target_eq_some h

/-- **The order of the edge lines is that of a scan of the sources.** -/
theorem linearize_eq_scan (h : (ss.map key).Nodup) : linearize ss = scan leadsTo ss := by
  have hpoints : (fun i j : Fin ss.length => decide (j ∈ targetPositions ss i ∧ j ≠ i)) =
      fun i j => leadsTo (ss.get i) (ss.get j) := by
    funext i j
    rw [Bool.eq_iff_iff, decide_eq_true_iff, mem_targetPositions h, leadsTo, Bool.and_eq_true,
      List.any_eq_true, bne_iff_ne, and_comm]
    refine and_congr ?_ (exists_congr fun l => and_congr_right fun _ => beq_iff_eq.symm)
    exact not_congr ⟨fun hji => by rw [hji], fun hkey => (key_get_inj h hkey).symm⟩
  calc linearize ss
      = (scan (fun i j => leadsTo (ss.get i) (ss.get j)) (List.finRange ss.length)).map ss.get := by
        rw [linearize, orderedPositions_eq_scan, hpoints]
        rfl
    _ = scan leadsTo ss := by rw [← scan_map, List.map_get_finRange]

theorem rank_get (h : (ss.map key).Nodup) (i : Fin ss.length) : rank ss (ss.get i) = i := by
  have hrank : rank ss (ss.get i) = i.1 ↔ _ := List.findIdx_eq i.isLt
  refine hrank.2 ⟨by simp, fun j hj => ?_⟩
  rw [beq_eq_false_iff_ne]
  intro hkey
  have hji : (⟨j, Nat.lt_trans hj i.isLt⟩ : Fin ss.length) = i := key_get_inj h hkey
  exact absurd (congrArg Fin.val hji) (Nat.ne_of_lt hj)

/-- The sources stand in the order of their ranks. -/
theorem pairwise_rank (h : (ss.map key).Nodup) :
    ss.Pairwise fun s t => rank ss s < rank ss t := by
  rw [List.pairwise_iff_getElem]
  intro i j hi hj hij
  have hri := rank_get h ⟨i, hi⟩
  have hrj := rank_get h ⟨j, hj⟩
  simp only [List.get_eq_getElem] at hri hrj
  omega

/-- How the links among the sources determine the order in which their edges are written. -/
structure OrderedByLinks (ss : List (Source ρ)) : Prop where
  /-- The order holds every source once. -/
  perm : (linearize ss).Perm ss
  /-- There is no cycle if and only if no source stands before one that leads to it. -/
  acyclic : Acyclic leadsTo ss ↔ PointersFirst leadsTo (linearize ss)
  /-- Every other order in which no source stands before one that leads to it is greater, if the
  sources are compared one by one by the positions at which they are collected. -/
  least : ∀ order, order.Perm ss → PointersFirst leadsTo order → order = linearize ss ∨
    List.Lex (· < ·) ((linearize ss).map (rank ss)) (order.map (rank ss))
  /-- A source to which no cycle leads stands behind all sources that lead to it. -/
  behind : ∀ t ∈ ss, OffCycles leadsTo ss t → ∃ pre post, linearize ss = pre ++ t :: post ∧
    ∀ s ∈ ss, s.leadsTo t = true → s ∈ pre

theorem orderedByLinks (h : (ss.map key).Nodup) : OrderedByLinks ss := by
  constructor
  · exact linearize_perm ss
  · rw [linearize_eq_scan h]
    exact acyclic_iff_scan leadsTo_self ss
  · rw [linearize_eq_scan h]
    exact scan_least leadsTo_self (rank ss) ss (pairwise_rank h)
  · rw [linearize_eq_scan h]
    exact scan_behind ss

end Source

end DotDoc
