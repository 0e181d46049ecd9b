import DotDoc.Proofs.Session.Acts
import DotDoc.Proofs.Session.RenamedDocuments

set_option autoImplicit false

/-!
# Running under other numbers

A computation that hands out numbers can be run on two states the second of which is the first under
other numbers. If the numbers that it hands out in the two runs correspond (`Renaming.Allots`), the
second run does what the first does: its result is that of the first under other numbers, and so is
the state it ends in (`Renaming.Matches`). What the second state holds besides is left alone.

Main statements: the rules `Matches.bind` and `Acts.bind`, by which computations match that are put
together from ones that do, and those for the actions on the world.
-/

namespace DotDoc

variable {ν : Renaming} {α β γ δ : Type}

namespace Renaming

/-- The numbers from `n` on, short of `n'`, become those from `m` on. -/
def Allots (ν : Renaming) (n n' m : Nat) : Prop :=
  ∀ k, n + k < n' → ν.ident (n + k) = m + k ∧ ν.context (n + k) = m + k

namespace Allots

variable {n₀ n₁ n₂ m : Nat}

theorem left (h : ν.Allots n₀ n₂ m) (hle : n₁ ≤ n₂) : ν.Allots n₀ n₁ m :=
  fun k hk => h k (by omega)

theorem right (h : ν.Allots n₀ n₂ m) (hle : n₀ ≤ n₁) : ν.Allots n₁ n₂ (m + (n₁ - n₀)) := by
  intro k hk
  have hsum : n₀ + (n₁ - n₀ + k) = n₁ + k := by omega
  rw [← hsum, Nat.add_assoc]
  exact h _ (by omega)

end Allots

end Renaming

/-! ## States with numbers -/

/-- States out of which numbers are handed out. `Renamed` relates a state to one that holds the same
under other numbers, and perhaps more; `Apart` says of two states that they hold the same besides
what is so related. -/
class Numbered (σ : Type) where
  next : σ → Nat
  Renamed : Renaming → σ → σ → Prop
  Apart : Renaming → σ → σ → Prop
  exists_renamed : ∀ ν s, ∃ s', Renamed ν s s'
  apart_refl : ∀ ν s, Apart ν s s
  apart_trans : ∀ ν s t u, Apart ν s t → Apart ν t u → Apart ν s u

instance : Numbered Nat where
  next n := n
  Renamed _ _ _ := True
  Apart _ _ _ := True
  exists_renamed _ n := ⟨n, trivial⟩
  apart_refl _ _ := trivial
  apart_trans _ _ _ _ _ _ := trivial

instance : Numbered World where
  next w := w.nextIdent
  Renamed ν w w' := ν.Fits w.contexts w'.contexts
  Apart ν w w' := ∀ c ∉ Set.range ν.context, w'.contexts.defaults c = w.contexts.defaults c
  exists_renamed ν w := by
    obtain ⟨cs, hcs⟩ := ν.exists_fits w.contexts
    exact ⟨⟨0, cs, []⟩, hcs⟩
  apart_refl _ _ _ _ := rfl
  apart_trans _ _ _ _ h h' c hc := (h' c hc).trans (h c hc)

namespace Renaming

section Computations

variable {σ : Type} [Numbered σ]

open Numbered (next Renamed Apart)

/-- How a run on the second state ends if it corresponds to one on the first. -/
structure Ends (ν : Renaming) (s t s' t' : σ) : Prop where
  next : next t' = next s' + (next t - next s)
  renamed : Renamed ν t t'
  apart : Apart ν s' t'

theorem Ends.refl {s s' : σ} (h : Renamed ν s s') : ν.Ends s s s' s' := by
  refine ⟨?_, h, Numbered.apart_refl ν s'⟩
  omega

/-- What happens one after the other. -/
theorem Ends.trans {s t u s' t' u' : σ} (h : ν.Ends s t s' t') (h' : ν.Ends t u t' u')
    (hst : Numbered.next s ≤ Numbered.next t) (htu : Numbered.next t ≤ Numbered.next u) :
    ν.Ends s u s' u' := by
  refine ⟨?_, h'.renamed, Numbered.apart_trans ν _ _ _ h.apart h'.apart⟩
  rw [h'.next, h.next]
  omega

/-- The second computation does under other numbers what the first does, with the result turned into
its counterpart. -/
structure Matches (ν : Renaming) (f : α → β) (a : StateM σ α) (b : StateM σ β) : Prop where
  le : ∀ s, next s ≤ next (a.run s).2
  run : ∀ s s', Renamed ν s s' → ν.Allots (next s) (next (a.run s).2) (next s') →
    (b.run s').1 = f (a.run s).1 ∧ ν.Ends s (a.run s).2 s' (b.run s').2

namespace Matches

theorem pure {f : α → β} {x : α} {y : β} (h : y = f x) :
    ν.Matches f (Pure.pure x : StateM σ α) (Pure.pure y : StateM σ β) where
  le _ := Nat.le_refl _
  run _ _ hs _ := ⟨h, .refl hs⟩

theorem bind {f : α → β} {g : γ → δ} {a : StateM σ α} {b : StateM σ β} {k : α → StateM σ γ}
    {k' : β → StateM σ δ} (ha : ν.Matches f a b) (hk : ∀ x, ν.Matches g (k x) (k' (f x))) :
    ν.Matches g (a >>= k) (b >>= k') where
  le s := Nat.le_trans (ha.le s) ((hk _).le _)
  run s s' hs hallots := by
    have hle₁ := ha.le s
    have hle₂ : next (a.run s).2 ≤ next ((k (a.run s).1).run (a.run s).2).2 := (hk _).le _
    obtain ⟨hr, hends⟩ := ha.run s s' hs (hallots.left hle₂)
    obtain ⟨hr', hends'⟩ := (hk (a.run s).1).run _ _ hends.renamed
      (hends.next ▸ hallots.right hle₁)
    have hb : (b >>= k').run s' = (k' (f (a.run s).1)).run (b.run s').2 := by rw [← hr]; rfl
    rw [hb]
    exact ⟨hr', hends.trans hends' hle₁ hle₂⟩

/-- A computation that depends on the state. -/
theorem read {f : α → β} {k : σ → StateM σ α} {k' : σ → StateM σ β}
    (h : ∀ s s', Renamed ν s s' → ν.Matches f (k s) (k' s')) :
    ν.Matches f (get >>= k) (get >>= k') where
  le s := by
    obtain ⟨s', hs⟩ := Numbered.exists_renamed ν s
    exact (h s s' hs).le s
  run s s' hs := (h s s' hs).run s s' hs

end Matches

end Computations

/-! ## Contexts -/

theorem Fits.set {cs cs' : Contexts} (h : ν.Fits cs cs') (c : ContextId) (d : Defaults) :
    ν.Fits (cs.set c d) (cs'.set (ν.context c) d) := by
  intro c'
  rw [Contexts.defaults, Contexts.defaults, Table.get?_set, Table.get?_set]
  by_cases hc : c' = c
  · rw [if_pos hc, if_pos (congrArg ν.context hc)]
  · rw [if_neg hc, if_neg fun h' => hc (ν.context_injective h')]
    exact h c'

/-- Setting what one context holds leaves alone what numbers of no such context hold. -/
theorem defaults_set_of_notMem {cs : Contexts} {c : ContextId} {d : ContextId}
    (hd : d ∉ Set.range ν.context) {e : Defaults} :
    Contexts.defaults (cs.set (ν.context c) e) d = cs.defaults d := by
  rw [Contexts.defaults, Table.get?_set, if_neg fun h => hd ⟨c, h.symm⟩]
  rfl

/-! ## Actions -/

/-- The second action does under other numbers what the first does. It fails if the first does, with
the same failure. -/
def Acts (ν : Renaming) (f : α → β) (a : Act α) (b : Act β) : Prop :=
  ν.Matches (Except.map f) a.run b.run

/-- The result is the same under other numbers. -/
abbrev ActsSame (ν : Renaming) (a b : Act α) : Prop := ν.Acts (fun x => x) a b

namespace Acts

open Act

variable {f : α → β} {g : γ → δ}

theorem pure {x : α} {y : β} (h : y = f x) :
    ν.Acts f (Pure.pure x : Act α) (Pure.pure y : Act β) :=
  Matches.pure (congrArg Except.ok h)

theorem throw (e : Failure) :
    ν.Acts f (MonadExcept.throw e : Act α) (MonadExcept.throw e : Act β) :=
  Matches.pure rfl

theorem bind {a : Act α} {b : Act β} {k : α → Act γ} {k' : β → Act δ} (ha : ν.Acts f a b)
    (hk : ∀ x, ν.Acts g (k x) (k' (f x))) : ν.Acts g (a >>= k) (b >>= k') := by
  show ν.Matches _ (a.run >>= ExceptT.bindCont k) (b.run >>= ExceptT.bindCont k')
  refine Matches.bind ha fun r => ?_
  cases r with
  | ok x => exact hk x
  | error e => exact Matches.pure rfl

/-- An action for each item of a list. -/
theorem mapM {xs : List γ} {r : γ → δ} {a : γ → Act α} {b : δ → Act β}
    (h : ∀ x ∈ xs, ν.Acts f (a x) (b (r x))) :
    ν.Acts (List.map f) (xs.mapM a) ((xs.map r).mapM b) := by
  induction xs with
  | nil => exact .pure rfl
  | cons x rest ih =>
      rw [List.map_cons, List.mapM_cons, List.mapM_cons]
      refine (h x List.mem_cons_self).bind fun y => ?_
      exact (ih fun z hz => h z (List.mem_cons_of_mem x hz)).bind fun ys => .pure rfl

/-- An action after a check. -/
theorem checked {c c' : Bool} (hc : c' = c) {e : Failure} {a : Act α} {b : Act β}
    (h : ν.Acts f a b) :
    ν.Acts f (if c then a else MonadExcept.throw e) (if c' then b else MonadExcept.throw e) := by
  rw [hc]
  split
  · exact h
  · exact .throw e

/-- An action that goes on after something else is done in one case. -/
theorem guarded {c c' : Bool} (hc : c' = c) {a b : Act PUnit} {k : PUnit → Act α}
    {k' : PUnit → Act β} (hab : ν.ActsSame a b) (h : ν.Acts f (k ⟨⟩) (k' ⟨⟩)) :
    ν.Acts f (if c then (do k (← a)) else k ⟨⟩) (if c' then (do k' (← b)) else k' ⟨⟩) := by
  rw [hc]
  split
  · exact hab.bind fun _ => h
  · exact h

/-- An action that depends on what the contexts hold. -/
theorem read {k : World → Act α} {k' : World → Act β}
    (h : ∀ w w' : World, ν.Fits w.contexts w'.contexts → ν.Acts f (k w) (k' w')) :
    ν.Acts f (get >>= k) (get >>= k') := by
  show ν.Matches _ (get >>= fun w => (k w).run) (get >>= fun w => (k' w).run)
  exact Matches.read h

/-! ### Actions on the world -/

theorem make {s : Supply α} {s' : Supply β} (h : ν.Matches f s s') :
    ν.Acts f (Act.make s) (Act.make s') where
  le w := h.le w.nextIdent
  run w w' hw hallots := by
    obtain ⟨hr, hends⟩ := h.run w.nextIdent w'.nextIdent trivial hallots
    exact ⟨congrArg Except.ok hr, hends.next, hw, fun _ _ => rfl⟩

theorem ident : ν.Acts ν.ident Act.ident Act.ident := by
  refine make ⟨fun n => Nat.le_succ n, fun n m _ hallots => ?_⟩
  refine ⟨(hallots 0 (Nat.lt_succ_self n)).1.symm, ?_, trivial, trivial⟩
  show m + 1 = m + (n + 1 - n)
  omega

theorem report (e : Event) : ν.ActsSame (Act.report e) (Act.report e) where
  le w := Nat.le_refl w.nextIdent
  run w w' hw _ := by
    refine ⟨rfl, ?_, hw, fun _ _ => rfl⟩
    show w'.nextIdent = w'.nextIdent + (w.nextIdent - w.nextIdent)
    omega

theorem debug (v : Value) : ν.ActsSame (Act.debug v) (Act.debug (v.rename ν)) :=
  read fun _ _ hw => .pure (Value.debug_rename hw v)

theorem refuse (cause : String → Failure) (v : Value) :
    ν.Acts f (Act.refuse cause v) (Act.refuse cause (v.rename ν)) :=
  (debug v).bind fun shown => .throw (cause shown)

theorem defaults (active : Stack) :
    ν.ActsSame (Act.defaults active) (Act.defaults (active.map ν.context)) := by
  cases active with
  | nil => exact .pure rfl
  | cons c rest => exact read fun _ _ hw => .pure (hw c)

theorem setDefaults (c : ContextId) (slot : ElementKind) (t : AttrTable) :
    ν.ActsSame (Act.setDefaults c slot t) (Act.setDefaults (ν.context c) slot t) where
  le w := Nat.le_refl w.nextIdent
  run w w' hw _ := by
    refine ⟨rfl, ?_, ?_, ?_⟩
    · show w'.nextIdent = w'.nextIdent + (w.nextIdent - w.nextIdent)
      omega
    · show ν.Fits (w.contexts.set c _) (w'.contexts.set (ν.context c) _)
      rw [hw c]
      exact hw.set c _
    · exact fun d hd => defaults_set_of_notMem hd

theorem newContext : ν.Acts ν.context Act.newContext Act.newContext where
  le w := Nat.le_succ w.nextIdent
  run w w' hw hallots := by
    have hc : ν.context w.nextIdent = w'.nextIdent := (hallots 0 (Nat.lt_succ_self _)).2
    refine ⟨congrArg Except.ok hc.symm, ?_, ?_, ?_⟩
    · show w'.nextIdent + 1 = w'.nextIdent + (w.nextIdent + 1 - w.nextIdent)
      omega
    · show ν.Fits (w.contexts.set w.nextIdent _) (w'.contexts.set w'.nextIdent _)
      rw [← hc]
      exact hw.set _ _
    · intro d hd
      show Contexts.defaults (w'.contexts.set w'.nextIdent .none) d = _
      rw [← hc]
      exact defaults_set_of_notMem hd

theorem serialize (g : Graph Value) (d : Dot.Dialect) :
    ν.ActsSame (Act.serialize g d) (Act.serialize (g.rename ν) d) := by
  have h := Graph.serialize_rename ν g d
  unfold Act.serialize
  revert h
  generalize g.serialize d = x
  generalize (g.rename ν).serialize d = y
  intro h
  cases h with
  | ok h =>
      rw [← h, Graph.debug_rename]
      exact (report _).bind fun _ => .pure rfl
  | @error e e' h =>
      show ν.ActsSame (MonadExcept.throw (Act.unwritable e)) (MonadExcept.throw (Act.unwritable e'))
      rw [unwritable_of_twin ν h]
      exact .throw _

end Acts

end Renaming

end DotDoc
