import DotDoc.Proofs.Session.Reads
import DotDoc.Proofs.Session.RenamedMoves

set_option autoImplicit false

/-!
# Whole runs under other numbers

A run of steps of any kind changes a flow under other numbers in the same way (`runAll_carries`).
What the steps list of what is reported meanwhile is no part of the flow, and is left out of account.

So a session that is run comes to the same flow under all renamings that keep the numbers handed out
(`Flow.renamed_session`). Two flows that are alike under other numbers, but for what is stored under
some names, stay so along any steps that do not read these names (`Flow.Akin.runAll`).
-/

namespace DotDoc

open Renaming (Matches)

variable {ν : Renaming} {α β γ δ : Type}

namespace Renaming

section Computations

variable {σ : Type} [Numbered σ]

/-- The second computation changes the state under other numbers as the first one does, whatever
their results are. -/
structure Carries (ν : Renaming) (a : StateM σ α) (b : StateM σ β) : Prop where
  le : ∀ s, Numbered.next s ≤ Numbered.next (a.run s).2
  run : ∀ s s', Numbered.Renamed ν s s' →
    ν.Allots (Numbered.next s) (Numbered.next (a.run s).2) (Numbered.next s') →
    ν.Ends s (a.run s).2 s' (b.run s').2

theorem Matches.carries {f : α → β} {a : StateM σ α} {b : StateM σ β} (h : ν.Matches f a b) :
    ν.Carries a b where
  le := h.le
  run s s' hs hallots := (h.run s s' hs hallots).2

/-- What follows depends on the result, which has its counterpart. -/
theorem Matches.followed {f : α → β} {a : StateM σ α} {b : StateM σ β} {k : α → StateM σ γ}
    {k' : β → StateM σ δ} (ha : ν.Matches f a b) (hk : ∀ x, ν.Carries (k x) (k' (f x))) :
    ν.Carries (a >>= k) (b >>= k') where
  le s := Nat.le_trans (ha.le s) ((hk _).le _)
  run s s' hs hallots := by
    have hle₁ := ha.le s
    have hle₂ := (hk (a.run s).1).le (a.run s).2
    obtain ⟨hr, hends⟩ := ha.run s s' hs (hallots.left hle₂)
    have hends' := (hk (a.run s).1).run _ _ hends.renamed (hends.next ▸ hallots.right hle₁)
    have hb : (b >>= k').run s' = (k' (f (a.run s).1)).run (b.run s').2 := by rw [← hr]; rfl
    rw [hb]
    exact hends.trans hends' hle₁ hle₂

namespace Carries

theorem pure (x : α) (y : β) : ν.Carries (Pure.pure x : StateM σ α) (Pure.pure y : StateM σ β) where
  le _ := Nat.le_refl _
  run _ _ hs _ := .refl hs

/-- What follows does not depend on the results. -/
theorem bind {a : StateM σ α} {b : StateM σ β} {k : α → StateM σ γ} {k' : β → StateM σ δ}
    (ha : ν.Carries a b) (hk : ∀ x y, ν.Carries (k x) (k' y)) : ν.Carries (a >>= k) (b >>= k') where
  le s := Nat.le_trans (ha.le s) ((hk _ (b.run s).1).le _)
  run s s' hs hallots := by
    have hle₁ := ha.le s
    have hle₂ := (hk (a.run s).1 (b.run s').1).le (a.run s).2
    have hends := ha.run s s' hs (hallots.left hle₂)
    have hends' := (hk (a.run s).1 (b.run s').1).run _ _ hends.renamed
      (hends.next ▸ hallots.right hle₁)
    exact hends.trans hends' hle₁ hle₂

/-- Computations that depend on the state. -/
theorem read {k : σ → StateM σ α} {k' : σ → StateM σ β}
    (h : ∀ s s', Numbered.Renamed ν s s' → ν.Carries (k s) (k' s')) :
    ν.Carries (get >>= k) (get >>= k') where
  le s := by
    obtain ⟨s', hs⟩ := Numbered.exists_renamed ν s
    exact (h s s' hs).le s
  run s s' hs := (h s s' hs).run s s' hs

end Carries

end Computations

/-- A block on another stack. -/
theorem Carries.onStack (f : Stack → Stack)
    (hf : ∀ s : Stack, f (s.map ν.context) = (f s).map ν.context) {body : FlowM α}
    {body' : FlowM β} (h : ν.Carries body body') :
    ν.Carries (Flow.onStack f body) (Flow.onStack f body') where
  le s := h.le { s with stack := f s.stack }
  run s s' hs hallots := by
    obtain ⟨hnext, hrenamed, hapart⟩ := h.run { s with stack := f s.stack }
      { s' with stack := f s'.stack } ⟨by rw [hs.stack]; exact hf s.stack, hs.names, hs.fits⟩
      hallots
    exact ⟨hnext, ⟨hs.stack, hrenamed.names, hrenamed.fits⟩, hapart⟩

end Renaming

open Renaming (Carries)

/-! ## Steps -/

mutual

/-- **A step changes a flow under other numbers in the same way.** -/
theorem Step.run_carries : ∀ s : Step, ν.Carries s.run s.run
  | .call _ _ => (Step.run_matches rfl).carries
  | .enter _ _ => (Step.run_matches rfl).carries
  | .finish _ _ => (Step.run_matches rfl).carries
  | .leave _ _ _ => (Step.run_matches rfl).carries
  | .within context bind interrupt body => by
    refine (Flow.blockContext_matches context).followed fun begun => ?_
    cases begun with
    | error f => exact .pure _ _
    | ok v =>
        refine (Flow.bind_matches bind v).followed fun _ => ?_
        cases v with
        | context c =>
            refine .bind ?_ fun _ _ => Flow.depth_matches.carries.bind fun _ _ => .pure _ _
            exact (runAll_carries body).bind fun _ _ =>
              (Flow.leave_matches c interrupt).carries.bind fun _ _ => .pure _ _
        | _ => exact Flow.depth_matches.carries.bind fun _ _ => .pure _ _
  | .copied body =>
    ((runAll_carries body).onStack id fun _ => rfl).bind fun _ _ =>
      Flow.depth_matches.carries.bind fun _ _ => .pure _ _
  | .apart body =>
    ((runAll_carries body).onStack (fun _ => []) fun _ => rfl).bind fun _ _ =>
      Flow.depth_matches.carries.bind fun _ _ => .pure _ _
  | .logged body =>
    .bind (.read fun _ _ _ => (runAll_carries body).bind fun _ _ => .read fun _ _ _ => .pure _ _)
      fun _ _ => .pure _ _

theorem runAll_carries : ∀ steps : List Step, ν.Carries (runAll steps) (runAll steps)
  | [] => .pure _ _
  | s :: rest => s.run_carries.bind fun _ _ => (runAll_carries rest).bind fun _ _ => .pure _ _

end

namespace Flow

/-- The flow that a session comes to. -/
def session (steps : List Step) : Flow := ((runAll steps).run initial).2

/-- **A session does not depend on numbers that it has not handed out.** -/
theorem renamed_session (steps : List Step)
    (h : ν.Allots 1 (session steps).world.nextIdent 1) :
    Renamed ν (session steps) (session steps) :=
  ((runAll_carries steps).run initial initial ⟨rfl, rfl, fun _ => rfl⟩ h).renamed

theorem one_le_session (steps : List Step) : 1 ≤ (session steps).world.nextIdent :=
  (later_runAll steps initial).nextIdent_le

/-! ## Flows that are alike but for some names -/

variable {veiled : List String}

/-- The second flow is the first under other numbers, in a world that may hold more, but for what is
stored under the veiled names. -/
structure Akin (veiled : List String) (ν : Renaming) (s s' : Flow) : Prop where
  stack : s'.stack = s.stack.map ν.context
  names : ∀ n ∉ veiled, s'.names.get? n = (s.names.get? n).map (Value.rename ν)
  fits : ν.Fits s.world.contexts s'.world.contexts

/-- What a run makes of two flows that are alike. -/
structure Akin.Ends (veiled : List String) (ν : Renaming) (s t s' t' : Flow) : Prop where
  next : t'.world.nextIdent = s'.world.nextIdent + (t.world.nextIdent - s.world.nextIdent)
  akin : Akin veiled ν t t'
  apart : ∀ c ∉ Set.range ν.context, t'.world.contexts.defaults c = s'.world.contexts.defaults c

/-- **Flows that are alike stay so along steps that do not read the veiled names.** -/
theorem Akin.runAll {s s' : Flow} (h : Akin veiled ν s s') {steps : List Step}
    (hread : ∀ n ∈ readsAll steps, n ∉ veiled)
    (hallots : ν.Allots s.world.nextIdent ((DotDoc.runAll steps).run s).2.world.nextIdent
      s'.world.nextIdent) :
    Akin.Ends veiled ν s ((DotDoc.runAll steps).run s).2 s' ((DotDoc.runAll steps).run s').2 := by
  -- in between stands the flow that is the first one under other numbers in all names
  let t : Flow := { s' with names := s.names.rename ν }
  have hbut : SameBut veiled t s' := by
    refine ⟨rfl, rfl, fun n hn => ?_⟩
    rw [h.names n hn]
    exact (Names.get?_rename n).symm
  obtain ⟨hnext, hrenamed, hapart⟩ :=
    (runAll_carries steps).run s t ⟨h.stack, rfl, h.fits⟩ hallots
  obtain ⟨-, hsame⟩ := blind_runAll steps hread t s' hbut
  refine ⟨?_, ⟨?_, fun n hn => ?_, ?_⟩, ?_⟩
  · rw [hsame.world]
    exact hnext
  · rw [hsame.stack]
    exact hrenamed.stack
  · rw [hsame.names n hn, hrenamed.names, Names.get?_rename]
  · rw [hsame.world]
    exact hrenamed.fits
  · rw [hsame.world]
    exact hapart

end Flow

end DotDoc
