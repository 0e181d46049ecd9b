import DotDoc.Order.Agenda
import Mathlib.Algebra.BigOperators.Group.List.Basic
import Mathlib.Algebra.Ring.Nat
import Mathlib.Data.List.FinRange
import Mathlib.Data.List.Perm.Subperm

/-!
# Every position is placed once

The agenda counts the arrows that leave from positions which are not placed yet. While the arrows
of the position that was placed last are taken away one by one, the counts still contain those that
are left to take away. `Agenda.Inv` states this for a list of arrows to take away; for the empty
list it is the invariant of the steps.

The invariant says what a step does (`Agenda.step_eq_place`): it places one more position, the least
of those that nothing points to, or the least of all if there is none (`IsNext`), and the invariant
holds again (`Agenda.step_inv`). So the order of the positions below `n` holds each of them exactly
once (`orderedPositions_perm`).
-/

set_option autoImplicit false

namespace DotDoc

variable {n : Nat}

/-! ## Arrows that are left -/

/-- The number of arrows to `t` from positions that are not placed. -/
def openArrows (successors : Fin n → List (Fin n)) (placed : List (Fin n)) (t : Fin n) : Nat :=
  (((List.finRange n).filter fun i => i ∉ placed).map fun i => (successors i).count t).sum

/-- `p` is the position to place next: nothing that is left points to it and it is the least such
position, or every position that is left is pointed to and it is the least of them. -/
def IsNext (successors : Fin n → List (Fin n)) (placed : List (Fin n)) (p : Fin n) : Prop :=
  p ∉ placed ∧
    ((openArrows successors placed p = 0 ∧
        ∀ q, q ∉ placed → openArrows successors placed q = 0 → p ≤ q) ∨
      ((∀ q, q ∉ placed → openArrows successors placed q ≠ 0) ∧ ∀ q, q ∉ placed → p ≤ q))

theorem openArrows_nil (successors : Fin n → List (Fin n)) (t : Fin n) :
    openArrows successors [] t = ((List.finRange n).flatMap successors).count t := by
  simp [openArrows, List.count_flatMap, Function.comp_def]

/-- Placing a position takes its arrows away. -/
theorem openArrows_cons (successors : Fin n → List (Fin n)) {placed : List (Fin n)} {p : Fin n}
    (hp : p ∉ placed) (t : Fin n) :
    openArrows successors placed t =
      openArrows successors (p :: placed) t + (successors p).count t := by
  have key : ∀ l : List (Fin n), l.Nodup → p ∈ l →
      ((l.filter fun i => i ∉ placed).map fun i => (successors i).count t).sum =
        ((l.filter fun i => i ∉ p :: placed).map fun i => (successors i).count t).sum +
          (successors p).count t := by
    intro l hl hm
    -- `p` stands at one place only, and elsewhere both filters keep the same
    obtain ⟨pre, post, rfl⟩ := List.append_of_mem hm
    rw [List.nodup_append] at hl
    obtain ⟨-, hpost, hdisj⟩ := hl
    have hsame : ∀ k : List (Fin n), p ∉ k →
        (k.filter fun i => i ∉ p :: placed) = k.filter fun i => i ∉ placed := by
      intro k hk
      refine List.filter_congr fun i hi => ?_
      have hip : i ≠ p := fun h => hk (h ▸ hi)
      simp [hip]
    have hpre : p ∉ pre := fun h => hdisj p h p List.mem_cons_self rfl
    have hpost' : p ∉ post := (List.nodup_cons.1 hpost).1
    rw [List.filter_append, List.filter_append, hsame pre hpre,
      List.filter_cons_of_pos (by simpa using hp), List.filter_cons_of_neg (by simp),
      hsame post hpost']
    simp only [List.map_append, List.map_cons, List.sum_append, List.sum_cons]
    omega
  exact key _ (List.nodup_finRange n) (List.mem_finRange p)

namespace Agenda

variable (successors : Fin n → List (Fin n))

/-- The invariant of an agenda from whose counts the arrows to `pending` are still to be taken
away. -/
structure Inv (a : Agenda n) (pending : List (Fin n)) : Prop where
  nodup : a.placed.Nodup
  done_iff : ∀ i : Fin n, a.done.get i = true ↔ i ∈ a.placed
  incoming_eq : ∀ t : Fin n, a.incoming.get t = openArrows successors a.placed t + pending.count t
  ready_ordered : a.ready.Ordered
  ready_nodup : a.ready.toList.Nodup
  mem_ready : ∀ i : Fin n, i ∈ a.ready.toList ↔ i ∉ a.placed ∧ a.incoming.get i = 0
  earliest_le : ∀ i : Fin n, i ∉ a.placed → a.earliest ≤ i

/-! ## The start -/

theorem countArrows_get (targets : List (Fin n)) (counts : Vector Nat n) (t : Fin n) :
    (countArrows counts targets).get t = counts.get t + targets.count t := by
  show (countArrows counts targets)[t] = counts[t] + targets.count t
  induction targets generalizing counts with
  | nil => rfl
  | cons u rest ih =>
      have hstep : countArrows counts (u :: rest) =
          countArrows (counts.set u.val (counts[u.val] + 1)) rest := rfl
      rw [hstep, ih, List.count_cons]
      by_cases h : u = t
      · subst h
        simp
        omega
      · have h' : u.val ≠ t.val := fun e => h (Fin.ext e)
        simp [h, h']

/-- At first all arrows are counted. -/
theorem start_incoming (t : Fin n) :
    (start successors).incoming.get t = openArrows successors [] t := by
  rw [openArrows_nil]
  show (countArrows _ _).get t = _
  rw [countArrows_get]
  show (Vector.replicate n 0)[t] + _ = _
  simp

theorem start_inv : Inv successors (start successors) [] := by
  have hready : ∀ i : Fin n, i ∈ (start successors).ready.toList ↔
      (start successors).incoming.get i = 0 := by
    intro i
    show i ∈ (Heap.ofList _).toList ↔ _
    rw [(Heap.toList_ofList _).mem_iff, List.mem_filter]
    exact (and_iff_right (List.mem_finRange i)).trans beq_iff_eq
  constructor
  · exact List.nodup_nil
  · intro i
    show (Vector.replicate n false)[i] = true ↔ i ∈ []
    simp
  · intro t
    rw [start_incoming, List.count_nil]
    rfl
  · exact Heap.ordered_ofList _
  · exact (Heap.toList_ofList _).nodup_iff.2 ((List.nodup_finRange n).filter _)
  · intro i
    rw [hready]
    simp [start]
  · exact fun i _ => Nat.zero_le i

/-! ## One step -/

variable {successors}

theorem release_placed (a : Agenda n) (t : Fin n) : (release a t).placed = a.placed := by
  unfold release
  exact (apply_ite placed _ _ _).trans (ite_self _)

theorem release_done (a : Agenda n) (t : Fin n) : (release a t).done = a.done := by
  unfold release
  exact (apply_ite done _ _ _).trans (ite_self _)

theorem release_earliest (a : Agenda n) (t : Fin n) : (release a t).earliest = a.earliest := by
  unfold release
  exact (apply_ite earliest _ _ _).trans (ite_self _)

theorem release_incoming (a : Agenda n) (t : Fin n) :
    (release a t).incoming = a.incoming.set t (a.incoming.get t - 1) t.isLt := by
  unfold release
  exact (apply_ite incoming _ _ _).trans (ite_self _)

/-- The position becomes ready if this was the last arrow to it and it is not placed. -/
theorem release_ready (a : Agenda n) (t : Fin n) :
    (release a t).ready = if (a.incoming.get t - 1 == 0 && !a.done.get t) = true then
      a.ready.insert t else a.ready := by
  unfold release
  exact apply_ite ready _ _ _

/-- The counts when one arrow to `t` is taken away. -/
theorem Inv.incoming_set {a : Agenda n} {t : Fin n} {rest : List (Fin n)}
    (h : Inv successors a (t :: rest)) (i : Fin n) :
    (a.incoming.set t (a.incoming.get t - 1) t.isLt).get i =
      openArrows successors a.placed i + rest.count i := by
  have hi := h.incoming_eq i
  show (a.incoming.set t (a.incoming.get t - 1) t.isLt)[i] = _
  by_cases heq : t = i
  · subst heq
    rw [List.count_cons_self] at hi
    rw [Fin.getElem_fin, Vector.getElem_set_self]
    omega
  · have hne : t.val ≠ i.val := fun e => heq (Fin.ext e)
    rw [List.count_cons_of_ne heq] at hi
    rw [Fin.getElem_fin, Vector.getElem_set_ne _ _ hne]
    exact hi

/-- A position that an arrow still points to is not ready. -/
theorem Inv.notMem_ready {a : Agenda n} {t : Fin n} {rest : List (Fin n)}
    (h : Inv successors a (t :: rest)) : t ∉ a.ready.toList := by
  intro ht
  have h0 := ((h.mem_ready t).1 ht).2
  rw [h.incoming_eq, List.count_cons_self] at h0
  omega

/-- Taking one arrow away. -/
theorem release_inv {a : Agenda n} {t : Fin n} {rest : List (Fin n)}
    (h : Inv successors a (t :: rest)) : Inv successors (release a t) rest := by
  have hcount := h.incoming_eq t
  rw [List.count_cons_self] at hcount
  have hinsert := a.ready.toList_insert t
  constructor
  · rw [release_placed]
    exact h.nodup
  · rw [release_done, release_placed]
    exact h.done_iff
  · rw [release_incoming, release_placed]
    exact h.incoming_set
  · rw [release_ready]
    split
    · exact Heap.ordered_insert h.ready_ordered t
    · exact h.ready_ordered
  · rw [release_ready]
    split
    · exact hinsert.nodup_iff.2 (List.nodup_cons.2 ⟨h.notMem_ready, h.ready_nodup⟩)
    · exact h.ready_nodup
  · intro i
    rw [release_ready, release_placed, release_incoming, h.incoming_set]
    by_cases hi : i = t
    · -- only now `t` can be ready, namely if nothing points to it any more
      subst hi
      rw [← h.done_iff]
      split
      · rename_i hz
        obtain ⟨hlast, hdone⟩ := Bool.and_eq_true_iff.1 hz
        have hlast := beq_iff_eq.1 hlast
        have hopen : ¬ a.done.get i = true := by simpa using hdone
        have hzero : openArrows successors a.placed i + rest.count i = 0 := by omega
        exact iff_of_true (hinsert.mem_iff.2 List.mem_cons_self) ⟨hopen, hzero⟩
      · rename_i hz
        refine iff_of_false h.notMem_ready ?_
        rintro ⟨hopen, hzero⟩
        apply hz
        rw [Bool.and_eq_true_iff, beq_iff_eq]
        exact ⟨by omega, by simpa using hopen⟩
    · -- for all other positions nothing changes
      have hi' := h.mem_ready i
      rw [h.incoming_eq, List.count_cons_of_ne (Ne.symm hi)] at hi'
      split
      · rw [hinsert.mem_iff, List.mem_cons, or_iff_right hi]
        exact hi'
      · exact hi'
  · rw [release_placed, release_earliest]
    exact h.earliest_le

/-- Taking all of the pending arrows away. -/
theorem foldl_release_inv (pending : List (Fin n)) {a : Agenda n}
    (h : Inv successors a pending) :
    Inv successors (pending.foldl release a) [] ∧
      (pending.foldl release a).placed = a.placed := by
  induction pending generalizing a with
  | nil => exact ⟨h, rfl⟩
  | cons t rest ih =>
      obtain ⟨h1, h2⟩ := ih (release_inv h)
      exact ⟨h1, h2.trans (release_placed a t)⟩

/-- What a step does: it places a position whose turn it is, which is taken out of the heap if it is
there, and all positions that are left after it stand from `k` on. -/
structure Places (successors : Fin n → List (Fin n)) (a : Agenda n) (p : Fin n) (rest : Heap n)
    (k : Nat) : Prop where
  next : IsNext successors a.placed p
  ordered : rest.Ordered
  nodup : rest.toList.Nodup
  mem_rest : ∀ i, i ∈ rest.toList ↔ i ∈ a.ready.toList ∧ i ≠ p
  bound : ∀ i : Fin n, i ∉ p :: a.placed → k ≤ i

variable {a : Agenda n} {p : Fin n} {rest : Heap n} {k : Nat}

/-- When a position has been placed, its arrows are still to be taken away. -/
theorem Places.inv (h : Inv successors a []) (hp : Places successors a p rest k) :
    Inv successors
      { a with
        ready := rest, earliest := k, done := a.done.set p true p.isLt, placed := p :: a.placed }
      (successors p) := by
  have hopen := hp.next.1
  refine ⟨?_, ?_, ?_, hp.ordered, hp.nodup, ?_, hp.bound⟩
  · exact List.nodup_cons.2 ⟨hopen, h.nodup⟩
  · intro i
    show (a.done.set p true)[i] = true ↔ i ∈ p :: a.placed
    by_cases hi : i = p
    · subst hi
      simp
    · have hi' : p.val ≠ i.val := fun e => hi (Fin.ext e.symm)
      have hdone : a.done[i] = true ↔ i ∈ a.placed := h.done_iff i
      simpa [Vector.getElem_set, hi', hi] using hdone
  · intro t
    have := h.incoming_eq t
    rw [List.count_nil, Nat.add_zero, openArrows_cons successors hopen] at this
    exact this
  · intro i
    show i ∈ rest.toList ↔ i ∉ p :: a.placed ∧ a.incoming.get i = 0
    rw [hp.mem_rest, h.mem_ready, List.mem_cons, not_or]
    constructor
    · rintro ⟨⟨h1, h2⟩, h3⟩
      exact ⟨⟨h3, h1⟩, h2⟩
    · rintro ⟨⟨h3, h1⟩, h2⟩
      exact ⟨⟨h1, h2⟩, h3⟩

theorem firstOpen_some {done : Vector Bool n} {k : Nat} {p : Fin n}
    (h : firstOpen done k = some p) :
    done.get p = false ∧ ∀ i : Fin n, k ≤ i → done.get i = false → p ≤ i := by
  fun_induction firstOpen done k with
  | case1 k hk hd ih =>
      obtain ⟨h1, h2⟩ := ih h
      refine ⟨h1, fun i hi hdi => h2 i ?_ hdi⟩
      have hne : k ≠ i.val := by
        rintro rfl
        exact Bool.false_ne_true (hdi.symm.trans hd)
      omega
  | case2 k hk hd =>
      cases h
      exact ⟨Bool.eq_false_of_not_eq_true hd, fun i hi _ => hi⟩
  | case3 => cases h

theorem firstOpen_none {done : Vector Bool n} {k : Nat} (h : firstOpen done k = none) :
    ∀ i : Fin n, k ≤ i → done.get i = true := by
  fun_induction firstOpen done k with
  | case1 k hk hd ih =>
      intro i hi
      by_cases hik : k = i.val
      · subst hik
        exact hd
      · exact ih h i (by omega)
  | case2 => cases h
  | case3 k hk => exact fun i hi => absurd i.isLt (by omega)

/-- While positions are left, some position is not placed. -/
theorem exists_notMem_placed {placed : List (Fin n)} (hlt : placed.length < n) :
    ∃ i : Fin n, i ∉ placed := by
  by_contra hall
  have hsub : List.finRange n ⊆ placed := by
    intro i _
    by_contra hi
    exact hall ⟨i, hi⟩
  have hle := ((List.nodup_finRange n).subperm hsub).length_le
  rw [List.length_finRange] at hle
  omega

theorem Inv.incoming_eq_open {a : Agenda n} (h : Inv successors a []) (t : Fin n) :
    a.incoming.get t = openArrows successors a.placed t := by
  rw [h.incoming_eq, List.count_nil, Nat.add_zero]

theorem Inv.done_eq_false {a : Agenda n} {pending : List (Fin n)} (h : Inv successors a pending)
    {p : Fin n} (hp : p ∉ a.placed) : a.done.get p = false := by
  rw [← Bool.not_eq_true, h.done_iff]
  exact hp

/-- The least ready position is the next one. -/
theorem Inv.isNext_of_pop {a : Agenda n} (h : Inv successors a []) {p : Fin n} {rest : Heap n}
    (hpop : a.ready.pop? = some (p, rest)) : IsNext successors a.placed p := by
  obtain ⟨-, hperm, hle⟩ := Heap.pop?_eq_some h.ready_ordered hpop
  have hpr : p ∈ a.ready.toList := hperm.mem_iff.2 List.mem_cons_self
  obtain ⟨hp, h0⟩ := (h.mem_ready p).1 hpr
  rw [h.incoming_eq_open] at h0
  refine ⟨hp, Or.inl ⟨h0, ?_⟩⟩
  intro q hq hq0
  apply hle
  rw [h.mem_ready, h.incoming_eq_open]
  exact ⟨hq, hq0⟩

/-- If none is ready, the least position that is left is the next one. -/
theorem Inv.isNext_of_firstOpen {a : Agenda n} (h : Inv successors a [])
    (hempty : a.ready.toList = []) {p : Fin n} (hf : firstOpen a.done a.earliest = some p) :
    IsNext successors a.placed p := by
  obtain ⟨hpd, hleast⟩ := firstOpen_some hf
  refine ⟨?_, Or.inr ⟨?_, ?_⟩⟩
  · rw [← h.done_iff, hpd]
    exact Bool.false_ne_true
  · intro q hq h0
    have hq' := (h.mem_ready q).2 ⟨hq, (h.incoming_eq_open q).trans h0⟩
    rw [hempty] at hq'
    exact List.not_mem_nil hq'
  · intro q hq
    exact hleast q (h.earliest_le q hq) (h.done_eq_false hq)

/-- What is popped is not placed, so that no position is passed over. -/
theorem Inv.done_of_pop (h : Inv successors a []) (hpop : a.ready.pop? = some (p, rest)) :
    a.done.get p = false :=
  h.done_eq_false (h.isNext_of_pop hpop).1

/-- While positions are left, the search for the least one comes to it. -/
theorem Inv.exists_firstOpen (h : Inv successors a []) (hlt : a.placed.length < n) :
    ∃ p, firstOpen a.done a.earliest = some p ∧ p ∉ a.placed ∧ ∀ q, q ∉ a.placed → p ≤ q := by
  cases hf : firstOpen a.done a.earliest with
  | none =>
      obtain ⟨i, hi⟩ := exists_notMem_placed hlt
      have hdone := firstOpen_none hf i (h.earliest_le i hi)
      rw [h.done_iff] at hdone
      exact absurd hdone hi
  | some p =>
      obtain ⟨hp, hleast⟩ := firstOpen_some hf
      refine ⟨p, rfl, ?_, fun q hq => hleast q (h.earliest_le q hq) (h.done_eq_false hq)⟩
      rw [← h.done_iff, hp]
      exact Bool.false_ne_true

/-- A step places the position whose turn it is. -/
theorem step_eq_place (h : Inv successors a []) (hlt : a.placed.length < n) :
    ∃ p rest k, Places successors a p rest k ∧
      step successors a = place successors { a with ready := rest, earliest := k } p := by
  unfold step
  cases hpop : a.ready.pop? with
  | some pr =>
      -- the bound stays as it was, since what is left after the step was left before it
      obtain ⟨p, rest⟩ := pr
      obtain ⟨hord, hperm, -⟩ := Heap.pop?_eq_some h.ready_ordered hpop
      obtain ⟨hnot, hnd⟩ := List.nodup_cons.1 (hperm.nodup_iff.1 h.ready_nodup)
      have hrest : ∀ i, i ∈ rest.toList ↔ i ∈ a.ready.toList ∧ i ≠ p := by
        intro i
        rw [hperm.mem_iff, List.mem_cons]
        constructor
        · exact fun hi => ⟨Or.inr hi, fun e => hnot (e ▸ hi)⟩
        · exact fun hi => hi.1.resolve_left hi.2
      have hdone : a.done[p] = false := h.done_of_pop hpop
      simp only [hdone, Bool.false_eq_true, if_false]
      refine ⟨p, rest, a.earliest, ⟨h.isNext_of_pop hpop, hord, hnd, hrest, ?_⟩, rfl⟩
      exact fun i hi => h.earliest_le i fun hm => hi (List.mem_cons_of_mem _ hm)
  | none =>
      have hempty := Heap.pop?_eq_none hpop
      -- all positions that are left are on cycles or behind them, and the least one is the bound
      obtain ⟨p, hf, -, hleast⟩ := h.exists_firstOpen hlt
      simp only [hf]
      refine ⟨p, a.ready, p, ?_, rfl⟩
      refine ⟨h.isNext_of_firstOpen hempty hf, h.ready_ordered, h.ready_nodup, ?_, ?_⟩
      · intro q
        rw [hempty]
        simp
      · exact fun q hq => hleast q fun hm => hq (List.mem_cons_of_mem _ hm)

/-- A step keeps the invariant and places one more position. -/
theorem step_inv (h : Inv successors a []) (hlt : a.placed.length < n) :
    ∃ p, IsNext successors a.placed p ∧ Inv successors (step successors a) [] ∧
      (step successors a).placed = p :: a.placed := by
  obtain ⟨p, rest, k, hp, hstep⟩ := step_eq_place h hlt
  have hplaced := hp.inv h
  rw [hstep]
  exact ⟨p, hp.next, foldl_release_inv (successors p) hplaced⟩

/-! ## All steps -/

/-- A run of as many steps as positions are left keeps the invariant and places them all. -/
theorem run_inv (k : Nat) {a : Agenda n} (h : Inv successors a [])
    (hk : a.placed.length + k = n) :
    Inv successors (run successors k a) [] ∧ (run successors k a).placed.length = n := by
  induction k generalizing a with
  | zero => exact ⟨h, hk⟩
  | succ k ih =>
      obtain ⟨p, -, h', hp⟩ := step_inv h (by omega)
      refine ih h' ?_
      rw [hp, List.length_cons]
      omega

end Agenda

/-- The order is what the steps have placed in the end. Successors that are the position itself are
left out beforehand. -/
theorem orderedPositions_eq_run (successors : Fin n → List (Fin n)) :
    orderedPositions successors =
      (Agenda.run (fun i => (successors i).filter (· != i)) n
        (Agenda.start fun i => (successors i).filter (· != i))).placed.reverse := by
  have hothers : (fun i => (Vector.ofFn fun i => (successors i).filter (· != i))[i]) =
      fun i => (successors i).filter (· != i) := funext fun i => Vector.getElem_ofFn i.isLt
  rw [← hothers]
  rfl

/-- **The order holds every position exactly once.** -/
theorem orderedPositions_perm (successors : Fin n → List (Fin n)) :
    (orderedPositions successors).Perm (List.finRange n) := by
  rw [orderedPositions_eq_run]
  obtain ⟨hinv, hlen⟩ := Agenda.run_inv n
    (Agenda.start_inv fun i => (successors i).filter (· != i)) (by simp [Agenda.start])
  refine (List.reverse_perm _).trans ?_
  refine (hinv.nodup.subperm fun i _ => List.mem_finRange i).perm_of_length_le ?_
  rw [hlen, List.length_finRange]

end DotDoc
