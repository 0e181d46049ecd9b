import DotDoc.Proofs.Order.Scan
import Mathlib.Data.Fintype.Card
import Mathlib.Data.Set.Finite.Basic
import Mathlib.Order.WellFounded

set_option autoImplicit false

/-!
# Scans and cycles

If nothing is free in a list, then every item has a predecessor in it, so that cycles lead to all of
them (`exists_cycle_of_stuck`). Hence a scan takes an item to which no cycle leads after all items
that point to it (`scan_behind`). Without cycles no item is taken before one that points to it, and
no cycles is what this means (`acyclic_iff_scan`). Of all such orders the scan is the least one in
the positions of the list (`scan_least`).
-/

namespace DotDoc

open Relation (TransGen ReflTransGen)

variable {α : Type} (points : α → α → Bool)

/-- One item of the list points to another one. -/
def Among (xs : List α) (x y : α) : Prop := x ∈ xs ∧ y ∈ xs ∧ points x y = true

/-- No item of the list comes back to itself. -/
def Acyclic (xs : List α) : Prop := ∀ x, ¬ TransGen (Among points xs) x x

/-- The item neither lies on a cycle nor does a cycle lead to it. -/
def OffCycles (xs : List α) (x : α) : Prop :=
  ∀ c, TransGen (Among points xs) c c → ¬ ReflTransGen (Among points xs) c x

/-- No item stands before one that points to it. -/
def PointersFirst (order : List α) : Prop := order.Pairwise fun x y => points y x = false

instance (order : List α) : Decidable (PointersFirst points order) :=
  inferInstanceAs (Decidable (order.Pairwise fun x y => points y x = false))

variable {points} {xs ys order : List α} {t : α}

theorem Among.mono (h : xs ⊆ ys) {x y : α} (hxy : Among points xs x y) : Among points ys x y :=
  ⟨h hxy.1, h hxy.2.1, hxy.2.2⟩

theorem Acyclic.mono (h : xs ⊆ ys) (hys : Acyclic points ys) : Acyclic points xs :=
  fun x hx => hys x (TransGen.mono (fun _ _ => Among.mono h) _ _ hx)

theorem OffCycles.mono (h : xs ⊆ ys) (ht : OffCycles points ys t) : OffCycles points xs t := by
  intro c hc hct
  apply ht c
  · exact TransGen.mono (fun _ _ => Among.mono h) _ _ hc
  · exact ReflTransGen.mono (fun _ _ => Among.mono h) _ _ hct

/-- Cycles lead to an item only by way of those that point to it. -/
theorem offCycles_of_pointers (h : ∀ s, Among points xs s t → OffCycles points xs s) :
    OffCycles points xs t := by
  intro c hc hct
  rcases Relation.ReflTransGen.cases_tail hct with rfl | ⟨s, hcs, hst⟩
  · -- the last arrow of a cycle through the item comes from one that points to it
    obtain ⟨s, hcs, hst⟩ := Relation.TransGen.tail'_iff.1 hc
    exact h s hst _ hc hcs
  · exact h s hst c hc hcs

/-! ## Cycles -/

/-- Where no item is free, a cycle leads to every one. -/
theorem exists_cycle_of_stuck (h : ∀ y ∈ xs, isFree points xs y = false) (ht : t ∈ xs) :
    ∃ c, TransGen (Among points xs) c c ∧ ReflTransGen (Among points xs) c t := by
  by_contra hnone
  -- the items that lead to `t` are finitely many, so one of them would be the first one
  let Leading := {x // x ∈ xs ∧ ReflTransGen (Among points xs) x t}
  have hfinite : Finite Leading := by
    apply Set.Finite.subset xs.finite_toSet
    exact fun x hx => hx.1
  let before : Leading → Leading → Prop := fun x y => TransGen (Among points xs) x.1 y.1
  have htrans : IsTrans Leading before := ⟨fun _ _ _ hxy hyz => TransGen.trans hxy hyz⟩
  have hirrefl : Std.Irrefl before := ⟨fun x hx => hnone ⟨x.1, hx, x.2.2⟩⟩
  have hwf : WellFounded before := Finite.wellFounded_of_trans_of_irrefl before
  obtain ⟨first, -, hfirst⟩ := hwf.has_min Set.univ ⟨⟨t, ht, .refl⟩, trivial⟩
  obtain ⟨x, hx, hxt⟩ := first
  -- but it is not free
  have hpointed : ∃ y ∈ xs, points y x = true := by
    have hnot := h x hx
    rw [← Bool.not_eq_true, isFree_iff] at hnot
    push Not at hnot
    simpa using hnot
  obtain ⟨y, hy, hyx⟩ := hpointed
  have hstep : Among points xs y x := ⟨hy, hx, hyx⟩
  exact hfirst ⟨y, hy, .head hstep hxt⟩ trivial (.single hstep)

/-- **An item to which no cycle leads is taken after all items that point to it.** -/
theorem scan_behind (xs : List α) : ∀ t ∈ xs, OffCycles points xs t →
    ∃ pre post, scan points xs = pre ++ t :: post ∧ ∀ s ∈ xs, points s t = true → s ∈ pre := by
  refine scan_induction points (P := fun xs order => ∀ t ∈ xs,
    OffCycles points xs t → ∃ pre post, order = pre ++ t :: post ∧
      ∀ s ∈ xs, points s t = true → s ∈ pre) ?_ ?_ ?_ xs
  · intro t ht
    cases ht
  · intro above x below _ hx ih t ht hoff
    by_cases htx : t = x
    · subst htx
      refine ⟨[], _, rfl, fun s hs hst => ?_⟩
      rw [isFree_iff.1 hx s hs] at hst
      cases hst
    · -- `t` is taken later, and what points to it is `x` or is taken later as well
      have hsub : above ++ below ⊆ above ++ x :: below := by simp
      have ht' : t ∈ above ++ below := by simpa [htx] using ht
      obtain ⟨pre, post, hsplit, hpre⟩ := ih t ht' (hoff.mono hsub)
      refine ⟨x :: pre, post, by rw [hsplit, List.cons_append], fun s hs hst => ?_⟩
      rcases List.mem_cons.1 (List.perm_middle.mem_iff.1 hs) with rfl | hs
      · exact List.mem_cons_self
      · exact List.mem_cons_of_mem x (hpre s hs hst)
  · intro x rest hstuck _ t ht hoff
    obtain ⟨c, hc, hct⟩ := exists_cycle_of_stuck hstuck ht
    exact absurd hct (hoff c hc)

/-! ## Orders -/

/-- An order in which no item stands before one that points to it leaves no room for a cycle. -/
theorem PointersFirst.acyclic (h : PointersFirst points order)
    (hself : ∀ x, points x x = false) : Acyclic points order := by
  classical
  have hlt : ∀ x y, Among points order x y → order.idxOf x < order.idxOf y := by
    intro x y hxy
    obtain ⟨hx, hy, hpoints⟩ := hxy
    have hix := List.idxOf_lt_length_of_mem hx
    have hiy := List.idxOf_lt_length_of_mem hy
    by_contra hle
    rcases Nat.lt_or_eq_of_le (Nat.le_of_not_lt hle) with hlt | heq
    · have hnot := List.pairwise_iff_getElem.1 h _ _ hiy hix hlt
      rw [List.getElem_idxOf, List.getElem_idxOf, hpoints] at hnot
      cases hnot
    · have hsame : y = x := (List.idxOf_inj hy).1 heq
      rw [hsame, hself] at hpoints
      cases hpoints
  have htrans : ∀ x y, TransGen (Among points order) x y → order.idxOf x < order.idxOf y := by
    intro x y hxy
    induction hxy with
    | single hstep => exact hlt _ _ hstep
    | tail _ hstep ih => exact Nat.lt_trans ih (hlt _ _ hstep)
  exact fun x hx => Nat.lt_irrefl _ (htrans x x hx)

/-- **There is no cycle if and only if the scan takes no item before one that points to it.** -/
theorem acyclic_iff_scan (hself : ∀ x, points x x = false) (xs : List α) :
    Acyclic points xs ↔ PointersFirst points (scan points xs) := by
  constructor
  · refine scan_induction points
      (P := fun xs order => Acyclic points xs → PointersFirst points order) ?_ ?_ ?_ xs
    · exact fun _ => List.Pairwise.nil
    · intro pre x post _ hx ih hxs
      have hsub : pre ++ post ⊆ pre ++ x :: post := by simp
      apply List.Pairwise.cons
      · intro y hy
        exact isFree_iff.1 hx y (hsub ((scan_perm _).mem_iff.1 hy))
      · exact ih (hxs.mono hsub)
    · intro x rest hstuck _ hxs
      obtain ⟨c, hc, -⟩ := exists_cycle_of_stuck hstuck List.mem_cons_self
      exact absurd hc (hxs c)
  · intro h
    exact (h.acyclic hself).mono (scan_perm xs).symm.subset

/-- What stands first in such an order is free. -/
theorem PointersFirst.isFree_head (hself : ∀ x, points x x = false) {z : α} {rest : List α}
    (h : PointersFirst points (z :: rest)) (hperm : (z :: rest).Perm xs) :
    isFree points xs z = true := by
  rw [isFree_iff]
  intro y hy
  rcases List.mem_cons.1 (hperm.mem_iff.2 hy) with rfl | hy
  · exact hself y
  · exact (List.pairwise_cons.1 h).1 y hy

/-- **The scan is the least of these orders**: all others are greater if the items are compared one
by one by their positions in the list. -/
theorem scan_least (hself : ∀ x, points x x = false) (position : α → Nat) (xs : List α) :
    xs.Pairwise (fun x y => position x < position y) → ∀ order, order.Perm xs →
      PointersFirst points order → order = scan points xs ∨
        List.Lex (· < ·) ((scan points xs).map position) (order.map position) := by
  refine scan_induction points (P := fun xs least =>
    xs.Pairwise (fun x y => position x < position y) → ∀ order, order.Perm xs →
      PointersFirst points order → order = least ∨
        List.Lex (· < ·) (least.map position) (order.map position)) ?_ ?_ ?_ xs
  · intro _ order hperm _
    exact .inl (List.perm_nil.1 hperm)
  · intro pre x post hpre hx ih hsorted order hperm horder
    cases order with
    | nil => exact absurd hperm.length_eq (by simp)
    | cons z rest =>
        have hz := horder.isFree_head hself hperm
        -- nothing before `x` is free, so `z` is `x` or stands behind it
        have hnot : z ∉ pre := by
          intro hzpre
          rw [hpre z hzpre] at hz
          cases hz
        have hzmem : z = x ∨ z ∈ post := by
          have hmem := hperm.mem_iff.1 List.mem_cons_self
          simpa [hnot] using hmem
        rcases hzmem with rfl | hzpost
        · have hsublist : (pre ++ post).Sublist (pre ++ z :: post) := by simp
          have hperm' := (hperm.trans List.perm_middle).cons_inv
          have horder' := (List.pairwise_cons.1 horder).2
          rcases ih (hsorted.sublist hsublist) rest hperm' horder' with rfl | hlt
          · exact .inl rfl
          · exact .inr (.cons hlt)
        · right
          apply List.Lex.rel
          exact (List.pairwise_cons.1 (List.pairwise_append.1 hsorted).2.1).1 z hzpost
  · intro x rest hstuck _ _ order hperm horder
    cases order with
    | nil => exact absurd hperm.length_eq (by simp)
    | cons z rest' =>
        have hz := horder.isFree_head hself hperm
        rw [hstuck z (hperm.mem_iff.1 List.mem_cons_self)] at hz
        cases hz

end DotDoc
