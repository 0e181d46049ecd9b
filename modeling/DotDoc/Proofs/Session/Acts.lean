import DotDoc.Proofs.Session.Making
import DotDoc.Session.Elements

set_option autoImplicit false

/-!
# Acting on the world

An action on the world that hands out numbers gives results of a kind in the same sense as a
computation that makes elements (`Act.Gives`). It may fail; what it made before it failed stays
recorded. The operations on graphs give known values if they are given known ones
(`Act.addLinks_gives`, `Act.addNodes_gives`, `Act.addSubgraphs_gives`, `Act.merge_gives`,
`Act.changeAttributes_gives`).
-/

namespace DotDoc

variable {I : Registry → Nat → Prop} {σ τ : Registry} {α β : Type}

namespace Act

/-- From a registry on, the action gives results of the kind `P` where it does not fail. -/
def Gives (I : Registry → Nat → Prop) (σ : Registry) (P : Registry → α → Prop) (a : Act α) : Prop :=
  ∀ τ w, σ ≤ τ → I τ w.nextIdent → ∃ υ, τ ≤ υ ∧ I υ (a.run w).2.nextIdent ∧
    ∀ x, (a.run w).1 = .ok x → P υ x

/-- The action gives results of no particular kind. -/
abbrev Goes (I : Registry → Nat → Prop) (σ : Registry) (a : Act α) : Prop :=
  Gives I σ (fun _ _ => True) a

/-! ## Rules -/

theorem Gives.pure {P : Registry → α → Prop} {x : α} (h : ∀ τ, σ ≤ τ → P τ x) :
    Gives I σ P (Pure.pure x : Act α) := by
  refine fun τ w hτ hI => ⟨τ, le_refl τ, hI, fun y hy => ?_⟩
  cases hy
  exact h τ hτ

theorem Gives.throw {P : Registry → α → Prop} (f : Failure) :
    Gives I σ P (MonadExcept.throw f : Act α) :=
  fun τ _ _ hI => ⟨τ, le_refl τ, hI, fun _ hy => nomatch hy⟩

theorem run_bind (a : Act α) (f : α → Act β) (w : World) :
    (a >>= f).run w = match (a.run w).1 with
      | .ok x => (f x).run (a.run w).2
      | .error e => (.error e, (a.run w).2) := by
  show ExceptT.bindCont f (a.run w).1 (a.run w).2 = _
  cases (a.run w).1 <;> rfl

theorem Gives.bind {P : Registry → α → Prop} {Q : Registry → β → Prop} {a : Act α} {f : α → Act β}
    (ha : Gives I σ P a) (hf : ∀ τ x, σ ≤ τ → P τ x → Gives I τ Q (f x)) :
    Gives I σ Q (a >>= f) := by
  intro τ w hτ hI
  obtain ⟨υ, hτυ, hI, hP⟩ := ha τ w hτ hI
  rw [run_bind]
  cases hr : (a.run w).1 with
  | error e => exact ⟨υ, hτυ, hI, fun y hy => nomatch hy⟩
  | ok x =>
      obtain ⟨φ, hυφ, hI, hQ⟩ := hf υ x (le_trans hτ hτυ) (hP x hr) υ _ (le_refl υ) hI
      exact ⟨φ, le_trans hτυ hυφ, hI, hQ⟩

theorem Gives.mono {P Q : Registry → α → Prop} {a : Act α} (ha : Gives I σ P a)
    (h : ∀ τ x, σ ≤ τ → P τ x → Q τ x) : Gives I σ Q a := by
  intro τ w hτ hI
  obtain ⟨υ, hτυ, hI, hP⟩ := ha τ w hτ hI
  exact ⟨υ, hτυ, hI, fun x hx => h υ x (le_trans hτ hτυ) (hP x hx)⟩

/-- After an action whose result is of no interest. -/
theorem Gives.after {Q : Registry → β → Prop} {a : Act α} {f : α → Act β} (ha : Goes I σ a)
    (hf : ∀ τ x, σ ≤ τ → Gives I τ Q (f x)) : Gives I σ Q (a >>= f) :=
  ha.bind fun τ x hτ _ => hf τ x hτ

theorem Gives.goes {P : Registry → α → Prop} {a : Act α} (ha : Gives I σ P a) : Goes I σ a :=
  ha.mono fun _ _ _ _ => trivial

/-- An action that goes on after something else is done in one case. -/
theorem Gives.guarded {P : Registry → β → Prop} {c : Prop} [Decidable c] {a : Act PUnit}
    {f : PUnit → Act β} (ha : Goes I σ a) (hf : ∀ τ, σ ≤ τ → Gives I τ P (f ⟨⟩)) :
    Gives I σ P (if c then (do f (← a)) else f ⟨⟩) := by
  split
  · exact ha.after fun τ _ hτ => hf τ hτ
  · exact hf σ (le_refl σ)

/-- An action that comes after a check. -/
theorem Gives.checked {P : Registry → β → Prop} {c : Prop} [Decidable c] {e : Failure}
    {f : PUnit → Act β} (hf : Gives I σ P (f ⟨⟩)) :
    Gives I σ P (if c then (do f (← MonadExcept.throw e)) else f ⟨⟩) := by
  split
  · exact (Gives.throw (P := fun _ _ => False) e).bind fun _ _ _ h => h.elim
  · exact hf

theorem Gives.make {P : Registry → α → Prop} {s : Supply α} (hs : s.Gives I σ P) :
    Gives I σ P (Act.make s) := by
  intro τ w hτ hI
  obtain ⟨υ, hτυ, hI, hP⟩ := hs τ w.nextIdent hτ hI
  refine ⟨υ, hτυ, hI, fun x hx => ?_⟩
  cases hx
  exact hP

/-- The value of a new element. -/
theorem Gives.made {P : Registry → α → Prop} {s : Supply α} {f : α → Value} (hs : s.Gives I σ P)
    (hP : ∀ τ a, P τ a → τ.Knows (f a)) :
    Gives I σ Registry.Knows (do return f (← Act.make s)) := by
  refine (Gives.make hs).bind fun τ a _ ha => ?_
  exact .pure fun _ hυ => (hP τ a ha).mono hυ

/-- An action that hands out no number. -/
theorem goes_of_nextIdent {a : Act α} (h : ∀ w, (a.run w).2.nextIdent = w.nextIdent) :
    Goes I σ a :=
  fun τ w _ hI => ⟨τ, le_refl τ, (h w).symm ▸ hI, fun _ _ => trivial⟩

theorem goes_pure (x : α) : Goes I σ (Pure.pure x : Act α) := .pure fun _ _ => trivial

theorem goes_ident (hK : Registry.Keeps I) : Goes I σ ident := .make (.next hK)

/-- An action for each item of a list. -/
theorem Gives.mapM {f : α → Act β} {P : Registry → β → Prop}
    (hP : ∀ {τ υ y}, τ ≤ υ → P τ y → P υ y) {xs : List α} {σ : Registry}
    (hf : ∀ x ∈ xs, ∀ τ, σ ≤ τ → Gives I τ P (f x)) :
    Gives I σ (fun τ ys => ∀ y ∈ ys, P τ y) (xs.mapM f) := by
  induction xs generalizing σ with
  | nil => exact .pure fun _ _ y hy => absurd hy List.not_mem_nil
  | cons x rest ih =>
      rw [List.mapM_cons]
      refine (hf x List.mem_cons_self σ (le_refl σ)).bind fun τ y hτ hy => ?_
      refine (ih fun z hz υ hυ =>
        hf z (List.mem_cons_of_mem x hz) υ (le_trans hτ hυ)).bind fun υ ys hυ hys => ?_
      refine .pure fun φ hφ z hz => ?_
      -- the first result was given when less was recorded
      rcases List.mem_cons.1 hz with rfl | hz
      · exact hP (le_trans hυ hφ) hy
      · exact hP hφ (hys z hz)

theorem goes_mapM {f : α → Act β} (hf : ∀ σ x, Goes I σ (f x)) (xs : List α) :
    Goes I σ (xs.mapM f) :=
  (Gives.mapM (P := fun _ _ => True) (fun _ _ => trivial) fun x _ τ _ => hf τ x).goes

/-! ## Reports and failures -/

theorem goes_report (e : Event) : Goes I σ (report e) := goes_of_nextIdent fun _ => rfl

theorem goes_get : Goes I σ (get : Act World) := goes_of_nextIdent fun _ => rfl

theorem goes_debug (v : Value) : Goes I σ (debug v) := goes_get.after fun _ _ _ => goes_pure _

theorem gives_refuse {P : Registry → α → Prop} (cause : String → Failure) (v : Value) :
    Gives I σ P (refuse cause v) :=
  (goes_debug v).after fun _ _ _ => .throw _

theorem goes_defaults (active : Stack) : Goes I σ (defaults active) := by
  cases active with
  | nil => exact goes_pure _
  | cons c rest => exact goes_get.after fun _ _ _ => goes_pure _

theorem goes_setDefaults (c : ContextId) (slot : ElementKind) (t : AttrTable) :
    Goes I σ (setDefaults c slot t) :=
  goes_of_nextIdent fun _ => rfl

theorem goes_newContext (hK : Registry.Keeps I) : Goes I σ newContext :=
  (goes_ident hK).after fun _ _ _ =>
    (goes_of_nextIdent fun _ => rfl).after fun _ _ _ => goes_pure _

theorem goes_serialize (g : Graph Value) (d : Dot.Dialect) : Goes I σ (serialize g d) := by
  unfold serialize
  cases g.serialize d with
  | ok text => exact (goes_report _).after fun _ _ _ => goes_pure _
  | error e => exact .throw _

end Act

open Act (Gives Goes)

/-! ## Texts, labels and tables -/

theorem Value.goes_toText (v : Value) : Goes I σ v.toText := by
  unfold Value.toText
  split
  · exact Act.goes_pure _
  · exact Act.goes_pure _
  · exact Act.goes_pure _
  · exact Act.goes_serialize _ _
  · exact Act.goes_debug _

theorem Value.goes_toLabel (v : Value) : Goes I σ v.toLabel := by
  unfold Value.toLabel
  split
  · exact Act.goes_pure _
  · exact (Value.goes_toText _).after fun _ _ _ => Act.goes_pure _

theorem Value.goes_toAttr (v : Value) : Goes I σ v.toAttr := by
  unfold Value.toAttr
  split
  · exact Act.goes_pure _
  · exact Act.goes_pure _
  · exact (Value.goes_toText _).after fun _ _ _ => Act.goes_pure _

theorem Value.goes_toCompass (v : Value) : Goes I σ v.toCompass := by
  unfold Value.toCompass
  split
  · exact Act.goes_pure _
  · split
    · exact Act.goes_pure _
    · exact .throw _
  · exact (Value.goes_toText _).after fun _ _ _ => .throw _

namespace AttrTable

theorem goes_convertEntries (es : List (Value × Value)) : Goes I σ (convertEntries es) :=
  Act.goes_mapM (fun _ e => e.2.goes_toAttr.after fun _ _ _ =>
    e.1.goes_toText.after fun _ _ _ => Act.goes_pure _) es

theorem goes_givenEntries (items : Value) : Goes I σ (givenEntries items) := by
  unfold givenEntries
  split
  · exact Act.goes_pure _
  · split
    · exact goes_convertEntries _
    · exact Act.goes_pure _
    · exact .throw _

theorem goes_ofGiven (items : Value) (named : List (String × Value)) :
    Goes I σ (ofGiven items named) :=
  (goes_givenEntries items).after fun _ _ _ =>
    (goes_convertEntries _).after fun _ _ _ => Act.goes_pure _

theorem goes_setEntries (t : AttrTable) (es : List (Value × Value)) :
    Goes I σ (t.setEntries es) :=
  (goes_convertEntries _).after fun _ _ _ => Act.goes_pure _

theorem goes_mergeGiven (t : AttrTable) (upper : Value) : Goes I σ (t.mergeGiven upper) := by
  unfold mergeGiven
  split
  · exact Act.goes_pure _
  · split
    · exact goes_setEntries _ _
    · exact Act.goes_pure _
    · exact .throw _

theorem goes_withAttr (t : AttrTable) (key value : Value) : Goes I σ (t.withAttr key value) := by
  unfold withAttr
  split
  · exact goes_setEntries _ _
  · exact .throw _

end AttrTable

end DotDoc
