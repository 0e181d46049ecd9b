import DotDoc.Proofs.Session.Matching

set_option autoImplicit false

/-!
# Numbers in a shared world

A flow that is handed out the numbers below `n` when it runs alone is handed out others in a world
that it shares, different ones for different ones (`Placed`). When it is handed out further numbers,
they are the next in both worlds (`Placed.next`). A renaming may keep to this and give whatever
number that is not in use to what the flow has not been handed out (`Renaming.exists_extends`).
-/

namespace DotDoc

variable {μ : Nat → Nat} {n m : Nat}

/-- Numbers below `n` stand for different numbers below `m`. -/
structure Placed (μ : Nat → Nat) (n m : Nat) : Prop where
  bound_pos : 0 < m
  pos : ∀ x, 0 < x → x < n → 0 < μ x
  lt : ∀ x, 0 < x → x < n → μ x < m
  injective : ∀ x y, 0 < x → x < n → 0 < y → y < n → μ x = μ y → x = y

/-- The next numbers stand for the next ones. -/
def placeNext (μ : Nat → Nat) (n m : Nat) : Nat → Nat := fun x => if x < n then μ x else m + (x - n)

theorem placeNext_of_lt {x : Nat} (h : x < n) : placeNext μ n m x = μ x :=
  if_pos h

theorem placeNext_add (μ : Nat → Nat) (n m k : Nat) : placeNext μ n m (n + k) = m + k := by
  rw [placeNext, if_neg (by omega), Nat.add_sub_cancel_left]

theorem placeNext_cases (μ : Nat → Nat) (n m x : Nat) :
    x < n ∧ placeNext μ n m x = μ x ∨ n ≤ x ∧ placeNext μ n m x = m + (x - n) := by
  by_cases h : x < n
  · exact .inl ⟨h, if_pos h⟩
  · exact .inr ⟨Nat.le_of_not_lt h, if_neg h⟩

/-- Further numbers are placed at the next ones. -/
theorem Placed.next {n' : Nat} (h : Placed μ n m) (hle : n ≤ n') :
    Placed (placeNext μ n m) n' (m + (n' - n)) where
  bound_pos := Nat.lt_of_lt_of_le h.bound_pos (Nat.le_add_right m _)
  pos x hx hlt := by
    have hm := h.bound_pos
    rcases placeNext_cases μ n m x with ⟨hxn, heq⟩ | ⟨-, heq⟩
    · rw [heq]
      exact h.pos x hx hxn
    · omega
  lt x hx hlt := by
    rcases placeNext_cases μ n m x with ⟨hxn, heq⟩ | ⟨hxn, heq⟩
    · have := h.lt x hx hxn
      omega
    · omega
  injective x y hx hxlt hy hylt heq := by
    rcases placeNext_cases μ n m x with ⟨hxn, hx'⟩ | ⟨hxn, hx'⟩
    · rcases placeNext_cases μ n m y with ⟨hyn, hy'⟩ | ⟨hyn, hy'⟩
      · exact h.injective x y hx hxn hy hyn (hx' ▸ hy' ▸ heq)
      · have := h.lt x hx hxn
        omega
    · rcases placeNext_cases μ n m y with ⟨hyn, hy'⟩ | ⟨hyn, hy'⟩
      · have := h.lt y hy hyn
        omega
      · omega

/-- Numbers in use stand for what they are placed at, the others for what is given for them. -/
def placeUsed (μ : Nat → Nat) (n : Nat) (g : Nat → Nat) : Nat → Nat :=
  fun x => if 0 < x ∧ x < n then μ x else g x

theorem Placed.injective_placeUsed {g : Nat → Nat} (h : Placed μ n m)
    (hg : Function.Injective g)
    (hne : ∀ x y, x = 0 ∨ n ≤ x → 0 < y → y < n → g x ≠ μ y) :
    Function.Injective (placeUsed μ n g) := by
  have hunused : ∀ {x : Nat}, ¬ (0 < x ∧ x < n) → x = 0 ∨ n ≤ x := by omega
  intro x y heq
  rw [placeUsed, placeUsed] at heq
  split at heq
  · rename_i hx
    split at heq
    · rename_i hy
      exact h.injective x y hx.1 hx.2 hy.1 hy.2 heq
    · rename_i hy
      exact absurd heq.symm (hne y x (hunused hy) hx.1 hx.2)
  · rename_i hx
    split at heq
    · rename_i hy
      exact absurd heq (hne x y (hunused hx) hy.1 hy.2)
    · exact hg heq

theorem Placed.mono {m' : Nat} (h : Placed μ n m) (hle : m ≤ m') : Placed μ n m' where
  bound_pos := Nat.lt_of_lt_of_le h.bound_pos hle
  pos := h.pos
  lt x hx hxn := Nat.lt_of_lt_of_le (h.lt x hx hxn) hle
  injective := h.injective

namespace Renaming

/-- Numbers that are in use stand for what they are placed at, and contexts with other numbers for
ones whose numbers are not in use. -/
structure Extends (ν : Renaming) (μ : Nat → Nat) (n m : Nat) : Prop where
  ident : ∀ x, 0 < x → x < n → ν.ident x = μ x
  context : ∀ x, 0 < x → x < n → ν.context x = μ x
  unused : ∀ x, x = 0 ∨ n ≤ x → m ≤ ν.context x

namespace Extends

variable {ν : Renaming} {n' : Nat}

/-- Before the last numbers were placed. -/
theorem before (h : ν.Extends (placeNext μ n m) n' (m + (n' - n))) (hle : n ≤ n') :
    ν.Extends μ n m where
  ident x hx hlt := by rw [h.ident x hx (by omega), placeNext_of_lt hlt]
  context x hx hlt := by rw [h.context x hx (by omega), placeNext_of_lt hlt]
  unused x hx := by
    by_cases hused : 0 < x ∧ x < n'
    · have hsum : n + (x - n) = x := by omega
      rw [h.context x hused.1 hused.2, ← hsum, placeNext_add]
      exact Nat.le_add_right m _
    · have := h.unused x (by omega)
      omega

/-- The last numbers are those that were handed out. -/
theorem allots (h : ν.Extends (placeNext μ n m) n' (m + (n' - n))) (hn : 0 < n) :
    ν.Allots n n' m := by
  intro k hk
  rw [h.ident _ (by omega) hk, h.context _ (by omega) hk, placeNext_add]
  exact ⟨rfl, rfl⟩

/-- Others have placed numbers, too. -/
theorem mono (h : ν.Extends μ n n') (hle : m ≤ n') : ν.Extends μ n m where
  ident := h.ident
  context := h.context
  unused x hx := Nat.le_trans hle (h.unused x hx)

end Extends

/-- There is a renaming that keeps to where numbers are placed, and leaves one of the numbers that
are not in use to others. -/
theorem exists_extends (h : Placed μ n m) (free : Nat) :
    ∃ ν : Renaming, ν.Extends μ n m ∧ ∀ x, x = 0 ∨ n ≤ x → ν.context x ≠ free := by
  have hused : ∀ (g : Nat → Nat) (x : Nat), 0 < x → x < n → placeUsed μ n g x = μ x :=
    fun g x hx hlt => if_pos ⟨hx, hlt⟩
  have hunused : ∀ (g : Nat → Nat) (x : Nat), x = 0 ∨ n ≤ x → placeUsed μ n g x = g x :=
    fun g x hx => if_neg (by omega)
  have hident : Function.Injective (placeUsed μ n fun x => if x = 0 then 0 else m + x) := by
    refine h.injective_placeUsed (fun x y heq => ?_) fun x y hx hy hlt heq => ?_
    · split at heq <;> split at heq <;> omega
    · have hpos := h.pos y hy hlt
      have hbound := h.lt y hy hlt
      split at heq <;> omega
  have hcontext : Function.Injective (placeUsed μ n fun x => m + (free + 1) + x) := by
    refine h.injective_placeUsed (fun x y heq => ?_) fun x y hx hy hlt heq => ?_
    · omega
    · have hbound := h.lt y hy hlt
      omega
  refine ⟨⟨_, _, hident, hcontext, hunused _ 0 (.inl rfl)⟩, ⟨hused _, hused _, ?_⟩, ?_⟩
  · intro x hx
    show m ≤ placeUsed μ n _ x
    rw [hunused _ x hx]
    omega
  · intro x hx
    show placeUsed μ n _ x ≠ free
    rw [hunused _ x hx]
    omega

end Renaming

end DotDoc
