import DotDoc.Context.Basic
import Mathlib.Data.List.TakeWhile

set_option autoImplicit false

/-!
# How stacks of contexts change

Leaving an active context takes it and all that is above it off the stack, and an inactive one
cannot be left (`Stack.leave_of_mem`, `Stack.leave_of_notMem`).

Whatever happens to a stack, contexts are taken off its top and new ones are put on it
(`Stack.Grown`). So a context that was begun before and is not on the stack does not come back
(`Grown.notMem`), and a context that stays keeps what is below it (`Grown.of_mem`).
-/

namespace DotDoc

namespace Stack

/-! ## Leaving -/

theorem leave_of_notMem {s : Stack} {c : ContextId} (h : c ∉ s) : s.leave c = .inactive := by
  have hall : s.dropWhile (· != c) = [] := by
    rw [List.dropWhile_eq_nil_iff]
    intro d hd
    exact bne_iff_ne.2 fun hdc => h (hdc ▸ hd)
  rw [leave, hall]

/-- A context is left with all that is above it. -/
theorem leave_append {above below : Stack} {c : ContextId} (h : c ∉ above) :
    leave (above ++ c :: below) c = .left below above.isEmpty := by
  have hdrop : (above ++ c :: below).dropWhile (· != c) = c :: below := by
    have hpos : ∀ d ∈ above, (d != c) = true := fun d hd =>
      bne_iff_ne.2 fun hdc => h (hdc ▸ hd)
    rw [List.dropWhile_append_of_pos hpos]
    simp
  rw [leave, hdrop]
  cases above with
  | nil => simp
  | cons d rest =>
      have hd : d ≠ c := fun hdc => h (hdc ▸ List.mem_cons_self)
      simp [hd]

theorem leave_of_mem {s : Stack} {c : ContextId} (h : c ∈ s) : ∃ above below,
    s = above ++ c :: below ∧ c ∉ above ∧ s.leave c = .left below above.isEmpty := by
  obtain ⟨above, below, rfl, habove⟩ := List.eq_append_cons_of_mem h
  exact ⟨above, below, rfl, habove, leave_append habove⟩

/-! ## Growing -/

/-- The second stack is the first one with contexts taken off its top and new ones put on it, whose
numbers lie between the two bounds. -/
def Grown (n m : Nat) (s t : Stack) : Prop :=
  ∃ new k, t = new ++ s.drop k ∧ new.Pairwise (· > ·) ∧ ∀ d ∈ new, n ≤ d ∧ d < m

variable {n m p : Nat} {s t u : Stack}

theorem grown_drop (n m : Nat) (s : Stack) (k : Nat) : Grown n m s (s.drop k) :=
  ⟨[], k, rfl, .nil, fun _ h => absurd h List.not_mem_nil⟩

theorem Grown.refl (n m : Nat) (s : Stack) : Grown n m s s := grown_drop n m s 0

/-- A new context on top. -/
theorem grown_cons {c : ContextId} (s : Stack) : Grown c (c + 1) s (c :: s) := by
  refine ⟨[c], 0, rfl, List.pairwise_singleton _ _, ?_⟩
  intro d hd
  rw [List.mem_singleton.1 hd]
  exact ⟨Nat.le_refl c, Nat.lt_succ_self c⟩

theorem Grown.trans (hnm : n ≤ m) (hmp : m ≤ p) (hst : Grown n m s t) (htu : Grown m p t u) :
    Grown n p s u := by
  obtain ⟨new, k, rfl, hpair, hnew⟩ := hst
  obtain ⟨new', k', rfl, hpair', hnew'⟩ := htu
  -- the second change may take off some of what the first one put on
  refine ⟨new' ++ new.drop k', k + (k' - new.length), ?_, ?_, ?_⟩
  · rw [List.drop_append, List.drop_drop, List.append_assoc]
  · rw [List.pairwise_append]
    refine ⟨hpair', hpair.drop, ?_⟩
    intro d hd e he
    exact Nat.lt_of_lt_of_le (hnew e (List.mem_of_mem_drop he)).2 (hnew' d hd).1
  · intro d hd
    rcases List.mem_append.1 hd with hd | hd
    · exact ⟨Nat.le_trans hnm (hnew' d hd).1, (hnew' d hd).2⟩
    · have h := hnew d (List.mem_of_mem_drop hd)
      exact ⟨h.1, Nat.lt_of_lt_of_le h.2 hmp⟩

/-- A context that was begun before and is not on the stack does not come back. -/
theorem Grown.notMem (h : Grown n m s t) {c : ContextId} (hc : c < n) (hs : c ∉ s) : c ∉ t := by
  obtain ⟨new, k, rfl, -, hnew⟩ := h
  intro hct
  rcases List.mem_append.1 hct with hct | hct
  · exact absurd (hnew c hct).1 (Nat.not_le_of_lt hc)
  · exact hs (List.mem_of_mem_drop hct)

/-- A context that was begun before and is still on the stack keeps what is below it. -/
theorem Grown.of_mem {c : ContextId} (h : Grown n m (c :: s) t) (hc : c < n) (hs : c ∉ s)
    (hct : c ∈ t) : ∃ inner, t = inner ++ c :: s ∧ c ∉ inner := by
  obtain ⟨new, k, rfl, -, hnew⟩ := h
  have hfresh : c ∉ new := fun h => absurd (hnew c h).1 (Nat.not_le_of_lt hc)
  -- if anything was taken off, the context went with it
  cases k with
  | zero => exact ⟨new, rfl, hfresh⟩
  | succ k =>
      rcases List.mem_append.1 hct with h | h
      · exact absurd h hfresh
      · have hcs : c ∈ s.drop k := h
        exact absurd (List.mem_of_mem_drop hcs) hs

/-- Numbers of active contexts stay below the next one. -/
theorem Grown.lt (h : Grown n m s t) (hnm : n ≤ m) (hs : ∀ d ∈ s, d < n) : ∀ d ∈ t, d < m := by
  obtain ⟨new, k, rfl, -, hnew⟩ := h
  intro d hd
  rcases List.mem_append.1 hd with hd | hd
  · exact (hnew d hd).2
  · exact Nat.lt_of_lt_of_le (hs d (List.mem_of_mem_drop hd)) hnm

end Stack

end DotDoc
