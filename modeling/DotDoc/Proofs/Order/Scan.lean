import DotDoc.Proofs.Order.Placement

set_option autoImplicit false

/-!
# Scanning for the next item

The items of a list may point to each other. A scan goes through the list from its beginning and
takes the first item to which no item of the list points, or the first one of all if there is none;
then it starts again with the items that are left (`scan`).

This is a plain rule for the order that the agenda keeps counts and a heap for
(`orderedPositions_eq_scan`).
-/

namespace DotDoc

section Scanning

variable {α β : Type} (points : α → α → Bool)

/-- No item of the list points to this one. -/
def isFree (xs : List α) (x : α) : Bool := xs.all fun y => !points y x

set_option linter.unusedVariables false in
/-- The items in the order in which they are taken: always the first one that none of those that are
left points to, or the first one if there is none. -/
def scan : List α → List α
  | [] => []
  | x :: rest =>
    match h : (x :: rest).find? (isFree points (x :: rest)) with
    | some y => y :: scan ((x :: rest).eraseP (isFree points (x :: rest)))
    | none => x :: scan rest
termination_by xs => xs.length
decreasing_by
  · have hlen := List.length_eraseP_of_mem (List.mem_of_find?_eq_some h) (List.find?_some h)
    rw [hlen]
    simp
  · simp

variable {points}

theorem isFree_iff {xs : List α} {x : α} :
    isFree points xs x = true ↔ ∀ y ∈ xs, points y x = false := by
  simp [isFree]

/-- The first free item is taken. -/
theorem scan_append_cons {pre post : List α} {x : α}
    (hpre : ∀ y ∈ pre, isFree points (pre ++ x :: post) y = false)
    (hx : isFree points (pre ++ x :: post) x = true) :
    scan points (pre ++ x :: post) = x :: scan points (pre ++ post) := by
  have hfind : (pre ++ x :: post).find? (isFree points (pre ++ x :: post)) = some x := by
    rw [List.find?_eq_some_iff_append]
    exact ⟨hx, pre, post, rfl, fun y hy => by simp [hpre y hy]⟩
  have herase : (pre ++ x :: post).eraseP (isFree points (pre ++ x :: post)) = pre ++ post := by
    rw [List.eraseP_append_right _ fun y hy => by simp [hpre y hy], List.eraseP_cons_of_pos hx]
  generalize hxs : pre ++ x :: post = xs at hfind herase ⊢
  cases xs with
  | nil => simp at hxs
  | cons y rest =>
      rw [scan]
      split
      · rename_i z hz
        rw [hfind] at hz
        rw [herase, Option.some.inj hz]
      · rename_i hnone
        rw [hfind] at hnone
        cases hnone

/-- If no item is free, the first one is taken. -/
theorem scan_cons {x : α} {rest : List α}
    (h : ∀ y ∈ x :: rest, isFree points (x :: rest) y = false) :
    scan points (x :: rest) = x :: scan points rest := by
  have hfind : (x :: rest).find? (isFree points (x :: rest)) = none := by
    rw [List.find?_eq_none]
    exact fun y hy => by simp [h y hy]
  rw [scan]
  split
  · rename_i z hz
    rw [hfind] at hz
    cases hz
  · rfl

variable (points) in
/-- What holds of a scan follows from what holds of the scan of the items that are left after the
first one was taken. -/
theorem scan_induction {P : List α → List α → Prop} (nil : P [] [])
    (free : ∀ pre x post, (∀ y ∈ pre, isFree points (pre ++ x :: post) y = false) →
      isFree points (pre ++ x :: post) x = true → P (pre ++ post) (scan points (pre ++ post)) →
      P (pre ++ x :: post) (x :: scan points (pre ++ post)))
    (stuck : ∀ x rest, (∀ y ∈ x :: rest, isFree points (x :: rest) y = false) →
      P rest (scan points rest) → P (x :: rest) (x :: scan points rest))
    (xs : List α) : P xs (scan points xs) := by
  cases xs with
  | nil =>
      rw [scan]
      exact nil
  | cons x rest =>
      cases hfind : (x :: rest).find? (isFree points (x :: rest)) with
      | none =>
          have h : ∀ y ∈ x :: rest, isFree points (x :: rest) y = false := by
            simpa using List.find?_eq_none.1 hfind
          rw [scan_cons h]
          exact stuck x rest h (scan_induction nil free stuck rest)
      | some y =>
          obtain ⟨hy, pre, post, hsplit, hpre⟩ := List.find?_eq_some_iff_append.1 hfind
          -- fewer items are left
          have hlen : (pre ++ post).length < (x :: rest).length := by simp [hsplit]
          rw [hsplit] at hy hpre ⊢
          have hpre' : ∀ z ∈ pre, isFree points (pre ++ y :: post) z = false := by
            simpa using hpre
          rw [scan_append_cons hpre' hy]
          exact free pre y post hpre' hy (scan_induction nil free stuck (pre ++ post))
termination_by xs.length
decreasing_by
  · simp
  · exact hlen

/-- A scan takes every item once. -/
theorem scan_perm (xs : List α) : (scan points xs).Perm xs := by
  refine scan_induction points (P := fun xs order => order.Perm xs) ?_ ?_ ?_ xs
  · exact .refl []
  · intro pre x post _ _ ih
    exact (ih.cons x).trans List.perm_middle.symm
  · intro x rest _ ih
    exact ih.cons x

theorem isFree_map (f : β → α) (xs : List β) (x : β) :
    isFree points (xs.map f) (f x) = isFree (fun x y => points (f x) (f y)) xs x := by
  simp [isFree, Function.comp_def]

/-- Instead of items one may scan what stands for them. -/
theorem scan_map (f : β → α) (xs : List β) :
    scan points (xs.map f) = (scan (fun x y => points (f x) (f y)) xs).map f := by
  refine scan_induction _ (P := fun xs order => scan points (xs.map f) = order.map f) ?_ ?_ ?_ xs
  · simp [scan]
  · intro pre x post hpre hx ih
    have hmap : (pre ++ x :: post).map f = pre.map f ++ f x :: post.map f := by simp
    rw [hmap, scan_append_cons, ← List.map_append, ih, List.map_cons]
    · rw [← hmap]
      intro y hy
      obtain ⟨z, hz, rfl⟩ := List.mem_map.1 hy
      rw [isFree_map]
      exact hpre z hz
    · rw [← hmap, isFree_map]
      exact hx
  · intro x rest h ih
    rw [List.map_cons, scan_cons, ih, List.map_cons]
    rw [← List.map_cons]
    intro y hy
    obtain ⟨z, hz, rfl⟩ := List.mem_map.1 hy
    rw [isFree_map]
    exact h z hz

end Scanning

/-! ## The agenda -/

section Positions

variable {n : Nat} {successors : Fin n → List (Fin n)}

/-- The positions that are left, in ascending order. -/
def unplaced (placed : List (Fin n)) : List (Fin n) :=
  (List.finRange n).filter fun i => !placed.contains i

theorem mem_unplaced {placed : List (Fin n)} {i : Fin n} : i ∈ unplaced placed ↔ i ∉ placed := by
  simp [unplaced]

theorem unplaced_sorted (placed : List (Fin n)) : (unplaced placed).Pairwise (· < ·) :=
  (List.pairwise_lt_finRange n).filter _

theorem unplaced_cons {placed pre post : List (Fin n)} {p : Fin n}
    (h : unplaced placed = pre ++ p :: post) : unplaced (p :: placed) = pre ++ post := by
  have hnd : (pre ++ p :: post).Nodup := h ▸ (List.nodup_finRange n).filter _
  have hp : p ∉ pre ++ post := (List.nodup_middle.1 hnd).notMem
  have hfilter : unplaced (p :: placed) = (unplaced placed).filter fun i => i ≠ p := by
    rw [unplaced, unplaced, List.filter_filter]
    refine List.filter_congr fun i _ => ?_
    simp
  have hkeep : (pre ++ post).filter (fun i => i ≠ p) = pre ++ post := by
    refine List.filter_eq_self.2 fun i hi => ?_
    simpa using fun hip : i = p => hp (hip ▸ hi)
  rw [hfilter, h, List.filter_append, List.filter_cons_of_neg (by simp), ← List.filter_append,
    hkeep]

/-- No position that is left has an arrow to `t`. -/
theorem openArrows_eq_zero_iff {placed : List (Fin n)} {t : Fin n} :
    openArrows successors placed t = 0 ↔
      isFree (fun i j => decide (j ∈ successors i)) (unplaced placed) t = true := by
  rw [isFree_iff, openArrows, List.sum_eq_zero_iff_forall_eq_nat]
  simp [unplaced, List.count_eq_zero]

/-- The position whose turn it is is the one that a scan of those that are left takes. -/
theorem IsNext.scan_eq {placed : List (Fin n)} {p : Fin n} (h : IsNext successors placed p) :
    scan (fun i j => decide (j ∈ successors i)) (unplaced placed) =
      p :: scan (fun i j => decide (j ∈ successors i)) (unplaced (p :: placed)) := by
  obtain ⟨hp, hturn⟩ := h
  obtain ⟨pre, post, hsplit⟩ := List.append_of_mem (mem_unplaced.2 hp)
  have hpre : ∀ q ∈ pre, q < p ∧ q ∉ placed := by
    intro q hq
    have hsorted := unplaced_sorted placed
    rw [hsplit] at hsorted
    refine ⟨(List.pairwise_append.1 hsorted).2.2 q hq p List.mem_cons_self, ?_⟩
    rw [← mem_unplaced, hsplit]
    exact List.mem_append_left _ hq
  rw [unplaced_cons hsplit]
  rcases hturn with ⟨hfree, hleast⟩ | ⟨hnone, hleast⟩
  · rw [openArrows_eq_zero_iff, hsplit] at hfree
    rw [hsplit]
    refine scan_append_cons (fun q hq => Bool.eq_false_iff.2 fun hqfree => ?_) hfree
    rw [← hsplit, ← openArrows_eq_zero_iff] at hqfree
    exact absurd (hleast q (hpre q hq).2 hqfree) (Fin.not_le.2 (hpre q hq).1)
  · -- there is nothing before the least position
    cases pre with
    | cons q rest =>
        have hq := hpre q List.mem_cons_self
        exact absurd (hleast q hq.2) (Fin.not_le.2 hq.1)
    | nil =>
        rw [hsplit]
        refine scan_cons fun q hq => Bool.eq_false_iff.2 fun hqfree => ?_
        have hqleft : q ∉ placed := mem_unplaced.1 (hsplit ▸ hq)
        rw [List.nil_append] at hsplit
        rw [← hsplit, ← openArrows_eq_zero_iff] at hqfree
        exact hnone q hqleft hqfree

namespace Agenda

/-- A run places the positions that are left in the order of a scan. -/
theorem placed_run (k : Nat) {a : Agenda n} (h : Inv successors a [])
    (hk : a.placed.length + k = n) :
    (run successors k a).placed.reverse =
      a.placed.reverse ++ scan (fun i j => decide (j ∈ successors i)) (unplaced a.placed) := by
  induction k generalizing a with
  | zero =>
      have hall : unplaced a.placed = [] := by
        refine List.filter_eq_nil_iff.2 fun i hi => ?_
        have hperm : a.placed.Perm (List.finRange n) := by
          refine (h.nodup.subperm fun i _ => List.mem_finRange i).perm_of_length_le ?_
          rw [List.length_finRange]
          omega
        simpa using hperm.mem_iff.2 hi
      rw [run, hall, scan, List.append_nil]
  | succ k ih =>
      obtain ⟨p, hnext, hinv, hplaced⟩ := step_inv h (by omega)
      have hlen : (step successors a).placed.length + k = n := by
        rw [hplaced, List.length_cons]
        omega
      rw [run, ih hinv hlen, hplaced, hnext.scan_eq]
      simp

end Agenda

/-- **The agenda gives the order of a scan.** -/
theorem orderedPositions_eq_scan (successors : Fin n → List (Fin n)) :
    orderedPositions successors =
      scan (fun i j => decide (j ∈ successors i ∧ j ≠ i)) (List.finRange n) := by
  have hrun := Agenda.placed_run n
    (Agenda.start_inv fun i => (successors i).filter (· != i)) (by simp [Agenda.start])
  have hleft : unplaced (Agenda.start fun i => (successors i).filter (· != i)).placed =
      List.finRange n :=
    List.filter_eq_self.2 fun i _ => by simp [Agenda.start]
  rw [hleft] at hrun
  rw [orderedPositions_eq_run]
  refine hrun.trans ?_
  simp [Agenda.start]

end Positions

end DotDoc
