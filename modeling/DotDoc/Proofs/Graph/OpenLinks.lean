import DotDoc.Proofs.Graph.EdgeOrder
import DotDoc.Proofs.Order.Steps

set_option autoImplicit false

/-!
# Links that are still to come

While the sources of a block are put in order, the agenda counts for each of them the links that
lead to it from other sources which have not had their turn (`Source.openLinks`). It holds in its
heap the positions to which no such link leads (`Source.CountsLinks`). At first these are the
positions to which no other source links at all, and the heap is made of them in order
(`Source.unlinked`).

If all links lead to sources of the block, and no two sources have the same key, then these counts
are right before every step of the loop, no step does what it should never have to do, and the loop
ends when each source has had its turn (`Source.ordersSafely`).
-/

namespace DotDoc

open Agenda (AfterSteps StepsSafely)

variable {ρ : Type}

namespace Source

/-- The positions that the source at a position links to, other than its own, once per link. -/
def arrows (ss : List (Source ρ)) (i : Fin ss.length) : List (Fin ss.length) :=
  (targetPositions ss i).filter (· != i)

/-- The links to the source at `t` that other sources hold, without those of the placed ones. -/
def openLinks (ss : List (Source ρ)) (placed : List (Fin ss.length)) (t : Fin ss.length) :
    List (Link ρ) :=
  ((List.finRange ss.length).filter fun i => i ∉ placed).flatMap fun i =>
    (ss.get i).links.filter fun l => i ≠ t ∧ l.target.key? = some (ss.get t).key

/-- The positions to which no other source links, in order. -/
def unlinked (ss : List (Source ρ)) : List (Fin ss.length) :=
  (List.finRange ss.length).filter fun t => (openLinks ss [] t).isEmpty

/-- The agenda is right about the links that are still to come. -/
structure CountsLinks (ss : List (Source ρ)) (a : Agenda ss.length) : Prop where
  /-- Each count is the number of open links to the position. -/
  incoming : ∀ t, a.incoming.get t = (openLinks ss a.placed t).length
  /-- A position is marked if and only if it is placed, and none is placed twice. -/
  done : ∀ i, a.done.get i = true ↔ i ∈ a.placed
  nodup_placed : a.placed.Nodup
  /-- What is ready is a heap. -/
  ordered : a.ready.Ordered
  /-- No position is ready twice. -/
  nodup_ready : a.ready.toList.Nodup
  /-- Exactly those positions are ready that are not placed and have no arrow counted. -/
  mem_ready : ∀ i, i ∈ a.ready.toList ↔ i ∉ a.placed ∧ a.incoming.get i = 0

/-- The order of the sources comes from a loop in which nothing goes wrong. -/
structure OrdersSafely (ss : List (Source ρ)) : Prop where
  /-- The target of each link is found, at the position of the source that it leads to. -/
  found : ∀ s ∈ ss, ∀ l ∈ s.links, ∃ i, l.target.key?.bind (position? ss) = some i ∧
    l.target.key? = some (ss.get i).key
  /-- The positions to which no other source links are a heap as they are listed. The loop begins
  with the heap made of them, where the first one of the list is the first to be popped. -/
  first : Heap.Listed (unlinked ss) ∧
    (Agenda.start (arrows ss)).ready = Heap.ofList (unlinked ss) ∧
    (Agenda.start (arrows ss)).ready.pop?.map Prod.fst = (unlinked ss).head?
  /-- Before each step and at the end, as many sources as there were steps have had their turn, and
  the agenda is right about the links that are still to come. -/
  counts : ∀ k a, AfterSteps (arrows ss) k a → a.placed.length = k ∧ CountsLinks ss a
  /-- Each step is safe. -/
  steps : ∀ k a, AfterSteps (arrows ss) k a → a.placed.length < ss.length →
    StepsSafely (arrows ss) a
  /-- The loop comes to its end. -/
  comes : ∃ a, AfterSteps (arrows ss) ss.length a
  /-- It ends after as many steps as there are sources, with the order. -/
  ends : ∀ k a, AfterSteps (arrows ss) k a → ¬ a.placed.length < ss.length →
    k = ss.length ∧ linearize ss = a.placed.reverse.map ss.get

variable {ss : List (Source ρ)}

/-! ## Counting links -/

/-- The arrows to a position are the links to its source. -/
theorem count_arrows (h : (ss.map key).Nodup) (i t : Fin ss.length) :
    (arrows ss i).count t =
      ((ss.get i).links.filter fun l => i ≠ t ∧ l.target.key? = some (ss.get t).key).length := by
  rw [← List.countP_eq_length_filter]
  by_cases hit : i = t
  · -- links of a source to itself do not count
    subst hit
    simp [arrows, List.count_eq_zero]
  · have hother : ((targetPositions ss i).filter (· != i)).count t =
        (targetPositions ss i).count t := List.count_filter (by simpa using Ne.symm hit)
    rw [arrows, hother, targetPositions, List.count_filterMap]
    refine List.countP_congr fun l _ => ?_
    simp [hit, position?_target_eq_some h]

/-- The open arrows to a position are the open links to its source. -/
theorem openArrows_arrows (h : (ss.map key).Nodup) (placed : List (Fin ss.length))
    (t : Fin ss.length) : openArrows (arrows ss) placed t = (openLinks ss placed t).length := by
  rw [openArrows, openLinks, List.length_flatMap]
  exact congrArg List.sum (List.map_congr_left fun i _ => count_arrows h i t)

/-- The first heap is made of the positions to which no other source links. -/
theorem start_ready (h : (ss.map key).Nodup) :
    (Agenda.start (arrows ss)).ready = Heap.ofList (unlinked ss) := by
  rw [Agenda.start_ready, unlinked]
  refine congrArg Heap.ofList (List.filter_congr fun t _ => ?_)
  -- nothing points to a position if and only if no link leads to its source
  rw [openArrows_arrows h, Bool.eq_iff_iff, List.isEmpty_iff_length_eq_zero, decide_eq_true_iff]

theorem listed_unlinked (ss : List (Source ρ)) : Heap.Listed (unlinked ss) :=
  Heap.listed_of_ascending ((List.pairwise_lt_finRange _).filter _)

theorem countsLinks (h : (ss.map key).Nodup) {a : Agenda ss.length}
    (ha : Agenda.Inv (arrows ss) a []) : CountsLinks ss a where
  incoming t := by rw [ha.incoming_eq_open, openArrows_arrows h]
  done := ha.done_iff
  nodup_placed := ha.nodup
  ordered := ha.ready_ordered
  nodup_ready := ha.ready_nodup
  mem_ready := ha.mem_ready

/-! ## The loop -/

theorem linearize_eq_run (ss : List (Source ρ)) :
    linearize ss =
      (Agenda.run (arrows ss) ss.length (Agenda.start (arrows ss))).placed.reverse.map ss.get := by
  rw [linearize, orderedPositions_eq_run]
  rfl

/-- **Sources with different keys are put in order safely**, if their links lead to sources among
them. -/
theorem ordersSafely (h : (ss.map key).Nodup)
    (hclosed : ∀ s ∈ ss, ∀ l ∈ s.links, ∃ t ∈ ss, l.target.key? = some t.key) :
    OrdersSafely ss where
  found s hs l hl := by
    obtain ⟨t, ht, hkey⟩ := hclosed s hs l hl
    obtain ⟨i, rfl⟩ := List.get_of_mem ht
    exact ⟨i, (position?_target_eq_some h).2 hkey, hkey⟩
  first := by
    refine ⟨listed_unlinked ss, start_ready h, ?_⟩
    rw [start_ready h]
    exact (listed_unlinked ss).pop?_ofList
  counts k a ha := ⟨ha.length_placed, countsLinks h ha.inv.1⟩
  steps k a ha hlt := ha.inv.1.stepsSafely hlt
  comes := ⟨_, Agenda.afterSteps_iff.2 ⟨Nat.le_refl _, rfl⟩⟩
  ends k a ha hend := by
    obtain ⟨hk, rfl⟩ := Agenda.afterSteps_iff.1 ha
    rw [ha.length_placed] at hend
    obtain rfl : k = ss.length := Nat.le_antisymm hk (Nat.le_of_not_lt hend)
    exact ⟨rfl, linearize_eq_run ss⟩

end Source

end DotDoc
