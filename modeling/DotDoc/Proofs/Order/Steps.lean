import DotDoc.Proofs.Order.Placement

set_option autoImplicit false

/-!
# Steps while positions are left

The order of positions comes from taking a fixed number of steps. It could as well be had from a
loop that goes on as long as positions are left (`Agenda.AfterSteps`): each step places exactly one
more position, so the loop ends after as many steps as there are positions
(`Agenda.AfterSteps.length_placed`, `Agenda.afterSteps_iff`).

The heap that the loop begins with is made of a list of positions that is a heap as it stands
(`Heap.Listed`): they are in ascending order (`Agenda.start_ready`, `Heap.listed_of_ascending`), and
the first of them is popped first (`Heap.Listed.pop?_ofList`).

No step of the loop does what it should never have to (`Agenda.StepsSafely`). It passes over no
position that was placed before, its search for the least position that is left comes to one, and
what it takes away from the counts was counted (`Agenda.discount?`).
-/

namespace DotDoc

variable {n : Nat} {successors : Fin n → List (Fin n)} {a : Agenda n} {k : Nat}

/-! ## The first heap -/

namespace Heap

variable {ps : List (Fin n)}

/-- The list is a heap as it stands: no member is greater than the two that stand below it, at
places counted from zero. -/
def Listed (ps : List (Fin n)) : Prop :=
  ∀ i j (hi : i < ps.length) (hj : j < ps.length), j = 2 * i + 1 ∨ j = 2 * i + 2 → ps[i] ≤ ps[j]

theorem listed_of_ascending (h : ps.Pairwise (· < ·)) : Listed ps := by
  intro i j hi hj hbelow
  exact Nat.le_of_lt (List.pairwise_iff_getElem.1 h i j hi hj (by omega))

/-- The first member is the least one. -/
theorem Listed.head_le {p : Fin n} (h : Listed (p :: ps)) (j : Nat) (hj : j < (p :: ps).length) :
    p ≤ (p :: ps)[j] := by
  induction j using Nat.strongRecOn with
  | ind j ih =>
      cases j with
      | zero => exact Nat.le_refl _
      | succ j =>
          -- what stands above is at half the place
          have habove : j / 2 < (p :: ps).length := by omega
          exact Nat.le_trans (ih (j / 2) (by omega) habove) (h _ _ habove hj (by omega))

/-- **What is popped first of a heap made of such a list is the first member.** -/
theorem Listed.pop?_ofList (h : Listed ps) : (ofList ps).pop?.map Prod.fst = ps.head? := by
  have hperm := toList_ofList ps
  cases hpop : (ofList ps).pop? with
  | none =>
      rw [pop?_eq_none hpop, List.nil_perm] at hperm
      rw [hperm]
      rfl
  | some qr =>
      obtain ⟨q, rest⟩ := qr
      obtain ⟨-, hall, hleast⟩ := pop?_eq_some (ordered_ofList ps) hpop
      have hq : q ∈ ps := hperm.mem_iff.1 (hall.mem_iff.2 List.mem_cons_self)
      cases ps with
      | nil => exact absurd hq List.not_mem_nil
      | cons p ps =>
          -- the first one is the least of the list, and the popped one that of the heap
          obtain ⟨j, hj, hjq⟩ := List.getElem_of_mem hq
          have hpq : p ≤ q := hjq ▸ h.head_le j hj
          have hqp : q ≤ p := hleast p (hperm.mem_iff.2 List.mem_cons_self)
          exact congrArg some (le_antisymm hqp hpq)

end Heap

namespace Agenda

/-- The first heap is made of the positions that nothing points to, in order. -/
theorem start_ready (successors : Fin n → List (Fin n)) : (start successors).ready =
    Heap.ofList ((List.finRange n).filter fun t => openArrows successors [] t = 0) := by
  refine congrArg Heap.ofList (List.filter_congr fun t _ => ?_)
  rw [← start_incoming]
  rfl

/-! ## Safe steps -/

/-- The counts with one arrow less to each of the given positions, unless there is an arrow among
them that was not counted. -/
def discount? (counts : Vector Nat n) : List (Fin n) → Option (Vector Nat n)
  | [] => some counts
  | t :: rest =>
    if counts.get t = 0 then none else discount? (counts.set t (counts.get t - 1) t.isLt) rest

/-- What a loop has after `k` steps that takes a step as long as positions are left. -/
inductive AfterSteps (successors : Fin n → List (Fin n)) : Nat → Agenda n → Prop
  | start : AfterSteps successors 0 (start successors)
  | step {k : Nat} {a : Agenda n} : AfterSteps successors k a → a.placed.length < n →
      AfterSteps successors (k + 1) (step successors a)

/-- The next step does nothing that it should not have to do. -/
structure StepsSafely (successors : Fin n → List (Fin n)) (a : Agenda n) : Prop where
  /-- If a position is ready, then the least one is not placed already. -/
  popped : ∀ p rest, a.ready.pop? = some (p, rest) → a.done.get p = false
  /-- A search for the least position that is left finds it before it comes to the end. -/
  searched : ∃ p, firstOpen a.done a.earliest = some p ∧ p ∉ a.placed ∧ ∀ q, q ∉ a.placed → p ≤ q
  /-- The step places one position, and each of its arrows is taken away from a count above zero. -/
  placed : ∃ p, p ∉ a.placed ∧ (step successors a).placed = p :: a.placed ∧
    discount? a.incoming (successors p) = some (step successors a).incoming

/-! ## One step -/

/-- Arrows that are still to be taken away are counted. -/
theorem Inv.discount_eq {pending : List (Fin n)} (h : Inv successors a pending) :
    discount? a.incoming pending = some (pending.foldl release a).incoming := by
  induction pending generalizing a with
  | nil => rfl
  | cons t rest ih =>
      -- the next arrow is itself among those that are still counted
      have hcounted : a.incoming.get t ≠ 0 := by
        rw [h.incoming_eq, List.count_cons_self]
        omega
      rw [discount?, if_neg hcounted, ← release_incoming, ih (release_inv h)]
      rfl

/-- Under the invariant every step is safe as long as positions are left. -/
theorem Inv.stepsSafely (h : Inv successors a []) (hlt : a.placed.length < n) :
    StepsSafely successors a where
  popped _ _ hpop := h.done_of_pop hpop
  searched := h.exists_firstOpen hlt
  placed := by
    obtain ⟨p, rest, j, hp, hstep⟩ := step_eq_place h hlt
    have hpending := hp.inv h
    refine ⟨p, hp.next.1, ?_, ?_⟩
    · rw [hstep]
      exact (foldl_release_inv (successors p) hpending).2
    · rw [hstep]
      exact hpending.discount_eq

/-! ## All steps -/

/-- **The invariant holds before every step of the loop**, and one position is placed for each
step. -/
theorem AfterSteps.inv (h : AfterSteps successors k a) :
    Inv successors a [] ∧ a.placed.length = k := by
  induction h with
  | start => exact ⟨start_inv successors, rfl⟩
  | step _ hlt ih =>
      obtain ⟨p, -, hinv, hplaced⟩ := step_inv ih.1 hlt
      refine ⟨hinv, ?_⟩
      rw [hplaced, List.length_cons, ih.2]

theorem AfterSteps.length_placed (h : AfterSteps successors k a) : a.placed.length = k := h.inv.2

theorem run_succ (successors : Fin n → List (Fin n)) (k : Nat) (a : Agenda n) :
    run successors (k + 1) a = step successors (run successors k a) := by
  induction k generalizing a with
  | zero => rfl
  | succ k ih => exact ih (step successors a)

/-- **The loop takes the same steps as a run of a fixed number of steps**, up to the number of
positions. -/
theorem afterSteps_iff :
    AfterSteps successors k a ↔ k ≤ n ∧ a = run successors k (start successors) := by
  constructor
  · intro h
    induction h with
    | start => exact ⟨Nat.zero_le n, rfl⟩
    | @step k a h hlt ih =>
        rw [h.length_placed] at hlt
        exact ⟨hlt, by rw [run_succ, ← ih.2]⟩
  · rintro ⟨hk, rfl⟩
    induction k with
    | zero => exact .start
    | succ k ih =>
        -- a run of fewer steps leaves a position over, so that the loop goes on
        have hbefore := ih (Nat.le_of_succ_le hk)
        rw [run_succ]
        exact hbefore.step (hbefore.length_placed.symm ▸ hk)

end Agenda

end DotDoc
