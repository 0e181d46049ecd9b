import DotDoc.Proofs.Session.Moves
import DotDoc.Proofs.Session.RenamedCalls
import DotDoc.Proofs.Session.Runs

set_option autoImplicit false

/-!
# Moves under other numbers

A flow whose stack, names and world are those of another under other numbers makes the same moves
(`Progress.move_matches`). Steps on a copy of the stack, in a flow of their own, or with a record of
what is reported are left out: a flow that takes turns with others does not run them.
-/

namespace DotDoc

open Renaming (Acts Matches)

variable {ν : Renaming}

/-! ## States of a flow -/

/-- The second flow is the first under other numbers, in a world that may hold more. -/
structure Flow.Renamed (ν : Renaming) (s s' : Flow) : Prop where
  stack : s'.stack = s.stack.map ν.context
  names : s'.names = s.names.rename ν
  fits : ν.Fits s.world.contexts s'.world.contexts

instance : Numbered Flow where
  next s := s.world.nextIdent
  Renamed := Flow.Renamed
  Apart ν s s' := Numbered.Apart ν s.world s'.world
  exists_renamed ν s := by
    obtain ⟨w, hw⟩ := Numbered.exists_renamed ν s.world
    exact ⟨⟨s.stack.map ν.context, w, s.names.rename ν⟩, rfl, rfl, hw⟩
  apart_refl ν s := Numbered.apart_refl ν s.world
  apart_trans ν s t u := Numbered.apart_trans ν s.world t.world u.world

namespace Flow

/-- A change that hands out no number and leaves the contexts alone. -/
theorem Renamed.ends {s t s' t' : Flow} (h : Renamed ν s s')
    (hworld : t.world.contexts = s.world.contexts)
    (hworld' : t'.world.contexts = s'.world.contexts)
    (hnext : t.world.nextIdent = s.world.nextIdent)
    (hnext' : t'.world.nextIdent = s'.world.nextIdent) (hstack : t'.stack = t.stack.map ν.context)
    (hnames : t'.names = t.names.rename ν) : ν.Ends s t s' t' where
  next := by
    show t'.world.nextIdent = s'.world.nextIdent + (t.world.nextIdent - s.world.nextIdent)
    omega
  renamed := ⟨hstack, hnames, by rw [hworld, hworld']; exact h.fits⟩
  apart c _ := by rw [hworld']

theorem act_matches {α β : Type} {f : α → β} {g : Stack → Names → Act α}
    {g' : Stack → Names → Act β}
    (h : ∀ active names, ν.Acts f (g active names) (g' (active.map ν.context) (names.rename ν))) :
    ν.Matches (Except.map f) (Flow.act g) (Flow.act g') where
  le s := (h s.stack s.names).le s.world
  run s s' hs hallots := by
    obtain ⟨hr, hends⟩ := (h s.stack s.names).run s.world s'.world hs.fits hallots
    rw [← hs.stack, ← hs.names] at hr hends
    exact ⟨hr, hends.next, ⟨hs.stack, hs.names, hends.renamed⟩, hends.apart⟩

theorem bind_matches (name : Option String) (v : Value) :
    ν.Matches (fun x => x) (Flow.bind name v) (Flow.bind name (v.rename ν)) where
  le s := by cases name <;> exact Nat.le_refl s.world.nextIdent
  run s s' hs _ := by
    cases name with
    | none => exact ⟨rfl, hs.ends rfl rfl rfl rfl hs.stack hs.names⟩
    | some n =>
        refine ⟨rfl, hs.ends rfl rfl rfl rfl hs.stack ?_⟩
        show s'.names.set n (v.rename ν) = Names.rename ν (s.names.set n v)
        rw [hs.names, Names.set_rename]

theorem depth_matches : ν.Matches (fun x => x) Flow.depth Flow.depth :=
  Matches.read fun s s' hs => .pure (by rw [hs.stack, Stack.depth, List.length_map]; rfl)

theorem enter_matches : ν.Matches ν.context Flow.enter Flow.enter where
  le s := Nat.le_succ s.world.nextIdent
  run s s' hs hallots := by
    have hc : ν.context s.world.nextIdent = s'.world.nextIdent :=
      (hallots 0 (Nat.lt_succ_self _)).2
    refine ⟨hc.symm, ?_, ⟨?_, hs.names, ?_⟩, ?_⟩
    · show s'.world.nextIdent + 1 =
        s'.world.nextIdent + (s.world.nextIdent + 1 - s.world.nextIdent)
      omega
    · show s'.world.nextIdent :: s'.stack = (s.world.nextIdent :: s.stack).map ν.context
      rw [List.map_cons, hc, hs.stack]
    · show ν.Fits (s.world.contexts.set s.world.nextIdent _)
        (s'.world.contexts.set s'.world.nextIdent _)
      rw [← hc]
      exact hs.fits.set _ _
    · intro d hd
      show Contexts.defaults (s'.world.contexts.set s'.world.nextIdent .none) d = _
      rw [← hc]
      exact Renaming.defaults_set_of_notMem hd

theorem finish_matches : ν.Matches (fun x => x) Flow.finish Flow.finish where
  le s := by
    obtain ⟨stack, w, names⟩ := s
    cases stack <;> exact Nat.le_refl w.nextIdent
  run s s' hs _ := by
    obtain ⟨stack, w, names⟩ := s
    obtain ⟨stack', w', names'⟩ := s'
    obtain ⟨hstack, hnames, hfits⟩ := hs
    cases hstack
    cases stack with
    | nil => exact ⟨rfl, Renamed.ends ⟨rfl, hnames, hfits⟩ rfl rfl rfl rfl rfl hnames⟩
    | cons c rest => exact ⟨rfl, Renamed.ends ⟨rfl, hnames, hfits⟩ rfl rfl rfl rfl rfl hnames⟩

end Flow

/-- A stack with other numbers is left likewise. -/
theorem Stack.leave_map (s : Stack) (c : ContextId) :
    Stack.leave (s.map ν.context) (ν.context c) = match s.leave c with
      | .inactive => .inactive
      | .left rest innermost => .left (rest.map ν.context) innermost := by
  have hne : (fun d => d != ν.context c) ∘ ν.context = fun d => d != c :=
    funext fun d => congrArg (! ·) (ν.beq_context d c)
  have hhead : ((s.map ν.context).head? == some (ν.context c)) = (s.head? == some c) := by
    cases s with
    | nil => rfl
    | cons d rest => exact ν.beq_context d c
  rw [leave, List.dropWhile_map, hne, hhead, leave]
  cases s.dropWhile fun d => d != c <;> rfl

namespace Flow

theorem leave_matches (c : ContextId) (failed : Bool) :
    ν.Matches (fun x => x) (Flow.leave c failed) (Flow.leave (ν.context c) failed) where
  le s := by
    rw [run_leave]
    cases s.stack.leave c <;> exact Nat.le_refl s.world.nextIdent
  run s s' hs _ := by
    rw [run_leave, run_leave, hs.stack, Stack.leave_map, hs.fits c]
    cases s.stack.leave c with
    | inactive => exact ⟨rfl, hs.ends rfl rfl rfl rfl hs.stack hs.names⟩
    | left rest innermost =>
        exact ⟨rfl, hs.ends rfl rfl rfl rfl rfl hs.names⟩

theorem blockContext_matches (context : Option String) :
    ν.Matches (Except.map (Value.rename ν)) (Flow.blockContext context)
      (Flow.blockContext context) := by
  cases context with
  | none => exact enter_matches.bind fun c => .pure rfl
  | some n =>
      refine Matches.read fun s s' hs => ?_
      rw [hs.names, Names.get?_rename]
      cases s.names.get? n with
      | none => exact .pure rfl
      | some v => exact .pure rfl

theorem refusal_matches (on : Option String) :
    ν.Matches (fun x => x) (Flow.refusal on) (Flow.refusal on) := by
  cases on with
  | none => exact .pure rfl
  | some n =>
      refine Matches.read fun s s' hs => ?_
      rw [hs.names, Names.get?_rename]
      cases s.names.get? n with
      | none => exact .pure rfl
      | some v => exact .pure (by cases v <;> rfl)

/-! ## Steps -/

theorem call_matches (c : Call) (bind : Option String) :
    ν.Matches (fun x => x) (Flow.call c bind) (Flow.call c bind) := by
  refine (act_matches fun active names => Act.perform_acts active c).bind fun answer => ?_
  cases answer with
  | error f => exact .pure rfl
  | ok answer =>
      have hstored := bind_matches (ν := ν) bind answer.stored
      rw [← Answer.stored_rename] at hstored
      refine hstored.bind fun _ => Matches.read fun s s' hs => .pure ?_
      rw [Answer.report_rename hs.fits]

theorem entryOf_matches (bind : Option String) (failure : Option Failure) :
    ν.Matches (fun x => x) (entryOf bind failure) (entryOf bind failure) := by
  cases failure with
  | some f => exact .pure rfl
  | none => exact (bind_matches bind .none).bind fun _ => .pure rfl

end Flow

/-- The step has no steps of its own. -/
def Step.single : Step → Bool
  | .within _ _ _ _ => false
  | .copied _ => false
  | .apart _ => false
  | .logged _ => false
  | _ => true

/-- A step that has no steps of its own is the same under other numbers. -/
theorem Step.run_matches {s : Step} (hs : s.single = true) :
    ν.Matches (fun x => x) s.run s.run := by
  cases s with
  | call c bind => exact Flow.call_matches c bind
  | enter on bind =>
      refine (Flow.refusal_matches on).bind fun refused => ?_
      cases refused with
      | some f => exact .pure rfl
      | none =>
          refine Flow.enter_matches.bind fun c => ?_
          refine (Flow.bind_matches bind (.context c)).bind fun _ => ?_
          refine Matches.read fun s s' hs => .pure ?_
          rw [← Value.report_rename hs.fits]
          rfl
  | finish on bind =>
      refine (Flow.refusal_matches on).bind fun refused => ?_
      cases refused with
      | some f => exact .pure rfl
      | none => exact Flow.finish_matches.bind fun failure => Flow.entryOf_matches bind failure
  | leave on failed bind =>
      refine Matches.read fun s s' hs => ?_
      rw [hs.names, Names.get?_rename]
      cases s.names.get? on with
      | none => exact .pure rfl
      | some v =>
          cases v with
          | context c =>
              exact (Flow.leave_matches c failed).bind fun failure =>
                Flow.entryOf_matches bind failure
          | _ => exact .pure rfl
  | within context bind interrupt body => exact absurd hs Bool.false_ne_true
  | copied body => exact absurd hs Bool.false_ne_true
  | apart body => exact absurd hs Bool.false_ne_true
  | logged body => exact absurd hs Bool.false_ne_true

mutual

/-- The step can be run in turn with the steps of other flows: it is no run on a copy of the stack,
in a flow of its own, or with a record of what is reported. -/
def Step.plain : Step → Bool
  | .within _ _ _ body => plainAll body
  | .copied _ => false
  | .apart _ => false
  | .logged _ => false
  | _ => true

/-- All of the steps can be. -/
def plainAll : List Step → Bool
  | [] => true
  | s :: rest => s.plain && plainAll rest

end

/-! ## Progress -/

/-- A block with another number for its context. -/
def Pending.rename (ν : Renaming) (b : Pending) : Pending :=
  { b with context := ν.context b.context }

namespace Progress

/-- The progress of a flow with other numbers: what it has reported and what it is about to do are
the same. -/
def rename (ν : Renaming) (p : Progress) : Progress :=
  { p with blocks := p.blocks.map (Pending.rename ν) }

/-- Only plain steps are left. -/
structure Plain (p : Progress) : Prop where
  todo : plainAll p.todo = true
  blocks : ∀ b ∈ p.blocks, plainAll b.todo = true

theorem leaveBlock_matches (p : Progress) (b : Pending) (outer : List Pending) :
    ν.Matches (rename ν) (p.leaveBlock b outer)
      ((p.rename ν).leaveBlock (b.rename ν) (outer.map (Pending.rename ν))) :=
  (Flow.leave_matches b.context b.interrupt).bind fun _ =>
    Flow.depth_matches.bind fun _ => .pure rfl

theorem enterBlock_matches (p : Progress) (context bind : Option String) (interrupt : Bool)
    (body rest : List Step) :
    ν.Matches (rename ν) (p.enterBlock context bind interrupt body rest)
      ((p.rename ν).enterBlock context bind interrupt body rest) := by
  refine (Flow.blockContext_matches context).bind fun begun => ?_
  cases begun with
  | error f => exact .pure rfl
  | ok v =>
      refine (Flow.bind_matches bind v).bind fun _ => ?_
      cases v with
      | context c => exact .pure rfl
      | _ => exact Flow.depth_matches.bind fun _ => .pure rfl

/-- **A move is the same under other numbers.** -/
theorem move_matches {p : Progress} (hp : p.Plain) :
    ν.Matches (rename ν) p.move (p.rename ν).move := by
  obtain ⟨entries, todo, blocks⟩ := p
  cases todo with
  | nil =>
      cases blocks with
      | nil => exact .pure rfl
      | cons b outer => exact leaveBlock_matches _ b outer
  | cons step rest =>
      have hplain := (Bool.and_eq_true_iff.1 hp.todo).1
      cases step with
      | call c bind => exact (Step.run_matches rfl).bind fun entry => .pure rfl
      | enter on bind => exact (Step.run_matches rfl).bind fun entry => .pure rfl
      | finish on bind => exact (Step.run_matches rfl).bind fun entry => .pure rfl
      | leave on failed bind => exact (Step.run_matches rfl).bind fun entry => .pure rfl
      | within context bind interrupt body =>
          exact enterBlock_matches _ context bind interrupt body rest
      | copied body => exact absurd hplain Bool.false_ne_true
      | apart body => exact absurd hplain Bool.false_ne_true
      | logged body => exact absurd hplain Bool.false_ne_true

end Progress

end DotDoc
