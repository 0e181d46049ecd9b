set_option autoImplicit false

/-!
# Heaps of positions

A heap holds positions below `n` and gives back the least one first. It is a
binary tree in which no position is greater than those under it; two heaps are
merged along their right spines, and the subtrees change sides on the way so
that the spines stay short.

Main statements: `Heap.toList_merge`, merging loses and adds nothing;
`Heap.ordered_merge`, it keeps the heap order.
-/

namespace DotDoc

/-- A binary tree of positions below `n`. -/
inductive Heap (n : Nat) where
  | leaf
  | node (p : Fin n) (left right : Heap n)

namespace Heap

variable {n : Nat}

/-- The number of positions. -/
def size : Heap n → Nat
  | leaf => 0
  | node _ l r => l.size + r.size + 1

/-- All positions, in tree order. -/
def toList : Heap n → List (Fin n)
  | leaf => []
  | node p l r => p :: (l.toList ++ r.toList)

/-- No position is greater than one under it. -/
def Ordered : Heap n → Prop
  | leaf => True
  | node p l r => (∀ q ∈ l.toList, p ≤ q) ∧ (∀ q ∈ r.toList, p ≤ q) ∧ l.Ordered ∧ r.Ordered

/-- One heap of the positions of two. -/
def merge : Heap n → Heap n → Heap n
  | leaf, h => h
  | h, leaf => h
  | node p l r, node q l' r' =>
    if p ≤ q then node p (merge r (node q l' r')) l else node q (merge r' (node p l r)) l'
termination_by a b => a.size + b.size
decreasing_by
  · simp only [size]
    omega
  · simp only [size]
    omega

/-- A heap with one more position. -/
def insert (h : Heap n) (p : Fin n) : Heap n := merge (node p leaf leaf) h

/-- The heap of the given positions. -/
def ofList (ps : List (Fin n)) : Heap n := ps.foldl insert leaf

/-- The least position and the heap without it. -/
def pop? : Heap n → Option (Fin n × Heap n)
  | leaf => none
  | node p l r => some (p, merge l r)

/-! ## What merging keeps -/

/-- Merging keeps every position as often as it occurs. -/
theorem toList_merge (a b : Heap n) : (merge a b).toList.Perm (a.toList ++ b.toList) := by
  fun_induction merge a b with
  | case1 => simp [toList]
  | case2 => simp [toList]
  | case3 p l r q l' r' h ih =>
    refine List.perm_iff_count.2 fun x => ?_
    have := ih.count_eq x
    simp only [toList, List.cons_append, List.count_cons, List.count_append] at this ⊢
    omega
  | case4 p l r q l' r' h ih =>
    refine List.perm_iff_count.2 fun x => ?_
    have := ih.count_eq x
    simp only [toList, List.cons_append, List.count_cons, List.count_append] at this ⊢
    omega

theorem toList_insert (h : Heap n) (p : Fin n) : (h.insert p).toList.Perm (p :: h.toList) :=
  toList_merge (node p leaf leaf) h

/-- A bound of the root bounds the whole heap. -/
theorem Ordered.le_of_root {p q : Fin n} {l r : Heap n} (h : (node p l r).Ordered) (hq : q ≤ p) :
    ∀ x ∈ (node p l r).toList, q ≤ x := by
  intro x hx
  simp only [toList, List.mem_cons, List.mem_append] at hx
  rcases hx with rfl | hx | hx
  · exact hq
  · exact Nat.le_trans hq (h.1 x hx)
  · exact Nat.le_trans hq (h.2.1 x hx)

theorem ordered_merge {a b : Heap n} (ha : a.Ordered) (hb : b.Ordered) : (merge a b).Ordered := by
  fun_induction merge a b with
  | case1 => exact hb
  | case2 => exact ha
  | case3 p l r q l' r' h ih =>
    refine ⟨fun x hx => ?_, ha.1, ih ha.2.2.2 hb, ha.2.2.1⟩
    rcases List.mem_append.1 ((toList_merge _ _).mem_iff.1 hx) with hx | hx
    · exact ha.2.1 x hx
    · exact hb.le_of_root h x hx
  | case4 p l r q l' r' h ih =>
    refine ⟨fun x hx => ?_, hb.1, ih hb.2.2.2 ha, hb.2.2.1⟩
    rcases List.mem_append.1 ((toList_merge _ _).mem_iff.1 hx) with hx | hx
    · exact hb.2.1 x hx
    · exact ha.le_of_root (Nat.le_of_lt (Nat.lt_of_not_le h)) x hx

theorem ordered_insert {h : Heap n} (hh : h.Ordered) (p : Fin n) : (h.insert p).Ordered :=
  ordered_merge ⟨by simp [toList], by simp [toList], trivial, trivial⟩ hh

/-- The heap of some positions holds them, each as often as it is given. -/
theorem toList_ofList (ps : List (Fin n)) : (ofList ps).toList.Perm ps := by
  have key : ∀ (ps : List (Fin n)) (h : Heap n),
      (ps.foldl insert h).toList.Perm (h.toList ++ ps) := by
    intro ps
    induction ps with
    | nil => intro h; simp
    | cons p rest ih =>
        intro h
        rw [List.foldl_cons]
        refine (ih (h.insert p)).trans ?_
        exact ((h.toList_insert p).append_right rest).trans List.perm_middle.symm
  exact key ps .leaf

theorem ordered_ofList (ps : List (Fin n)) : (ofList ps).Ordered := by
  have key : ∀ (ps : List (Fin n)) (h : Heap n), h.Ordered → (ps.foldl insert h).Ordered := by
    intro ps
    induction ps with
    | nil => exact fun h hh => hh
    | cons p rest ih => exact fun h hh => ih _ (ordered_insert hh p)
  exact key ps .leaf trivial

/-- What is popped off an ordered heap is its least position, and the rest is
what remains. -/
theorem pop?_eq_some {h rest : Heap n} {p : Fin n} (hh : h.Ordered)
    (hp : h.pop? = some (p, rest)) :
    rest.Ordered ∧ h.toList.Perm (p :: rest.toList) ∧ ∀ q ∈ h.toList, p ≤ q := by
  cases h with
  | leaf => cases hp
  | node p' l r =>
    simp only [pop?, Option.some.injEq, Prod.mk.injEq] at hp
    obtain ⟨rfl, rfl⟩ := hp
    exact ⟨ordered_merge hh.2.2.1 hh.2.2.2, (toList_merge l r).symm.cons _,
      hh.le_of_root (Nat.le_refl _)⟩

theorem pop?_eq_none {h : Heap n} (hp : h.pop? = none) : h.toList = [] := by
  cases h with
  | leaf => rfl
  | node p l r => cases hp

end Heap

end DotDoc
