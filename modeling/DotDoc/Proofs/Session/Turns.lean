import DotDoc.Proofs.Session.Numbers
import DotDoc.Proofs.Session.RenamedMoves

set_option autoImplicit false

/-!
# Flows that take turns

Several flows run in one world. Each has a stack of its own, empty at the start, and names of its
own; the world hands out numbers to all of them and holds the defaults of all their contexts. They
take turns in any order, a move at a time.

Main statement: `Turns.undisturbed`, whatever the order of the turns, each flow does what it does
when it runs alone. What carries it is `Turns.Kept`: the numbers that a flow has been handed out are
apart from those of the others, and under any renaming that keeps to them the flow is what it is
alone. A move keeps to the numbers it is handed out, so it does not meet the contexts of the others.
-/

namespace DotDoc

/-! ## Taking turns -/

/-- A flow that takes turns with others: its stack, its names, and how far it has come. -/
structure Thread where
  stack : Stack
  names : Names
  progress : Progress

/-- The flow before its first step. -/
def Thread.start (steps : List Step) : Thread := ⟨[], ∅, .start steps⟩

/-- Flows that take turns in a world. -/
structure Turns (ι : Type) where
  world : World
  threads : ι → Thread

variable {ι : Type}

namespace Turns

/-- The flows before the first turn. -/
def start (steps : ι → List Step) : Turns ι := ⟨.initial, fun i => .start (steps i)⟩

/-- The state of one of the flows. -/
def flow (s : Turns ι) (i : ι) : Flow := ⟨(s.threads i).stack, s.world, (s.threads i).names⟩

variable [DecidableEq ι]

/-- It is the turn of a flow, which makes a move. -/
def turn (s : Turns ι) (i : ι) : Turns ι :=
  let moved := (s.threads i).progress.move.run (s.flow i)
  { world := moved.2.world
    threads := Function.update s.threads i ⟨moved.2.stack, moved.2.names, moved.1⟩ }

/-- The flows take turns in the order of a schedule. -/
def run (s : Turns ι) (schedule : List ι) : Turns ι := schedule.foldl turn s

end Turns

/-- A flow that runs alone, after a number of moves. -/
def alone (steps : List Step) (k : Nat) : Progress × Flow :=
  (Progress.moves k (.start steps)).run .initial

/-! ## What holds after each turn -/

/-- A flow that takes turns is under other numbers what it is when it runs alone. -/
structure Mirrors (ν : Renaming) (a : Progress × Flow) (p : Progress) (f : Flow) : Prop where
  progress : p = a.1.rename ν
  flow : Flow.Renamed ν a.2 f

/-- The number that a flow which runs alone hands out next. -/
def nextAlone (a : Progress × Flow) : Nat := a.2.world.nextIdent

/-- The numbers of each flow are placed among those of the shared world, apart from the numbers of
the other flows. Under any renaming that keeps to where they are placed, the flow is what it is when
it runs alone. -/
structure Turns.Kept (a : ι → Progress × Flow) (s : Turns ι) (μ : ι → Nat → Nat) : Prop where
  plain : ∀ i, (a i).1.Plain
  pos : ∀ i, 0 < nextAlone (a i)
  placed : ∀ i, Placed (μ i) (nextAlone (a i)) s.world.nextIdent
  disjoint : ∀ i j, i ≠ j → ∀ x y, 0 < x → x < nextAlone (a i) → 0 < y → y < nextAlone (a j) →
    μ i x ≠ μ j y
  mirrors : ∀ i (ν : Renaming), ν.Extends (μ i) (nextAlone (a i)) s.world.nextIdent →
    Mirrors ν (a i) (s.threads i).progress (s.flow i)

theorem Progress.plain_move {p : Progress} (hp : p.Plain) (f : Flow) : (p.move.run f).1.Plain := by
  obtain ⟨entries, todo, blocks⟩ := p
  cases todo with
  | nil =>
      cases blocks with
      | nil => exact hp
      | cons b outer =>
          exact ⟨hp.blocks b List.mem_cons_self, fun c hc =>
            hp.blocks c (List.mem_cons_of_mem b hc)⟩
  | cons step rest =>
      obtain ⟨hstep, hrest⟩ := Bool.and_eq_true_iff.1 hp.todo
      cases step with
      | within context bind interrupt body =>
          show ((enterBlock ⟨entries, _, blocks⟩ context bind interrupt body rest).run f).1.Plain
          rw [enterBlock, StateT.run_bind]
          obtain ⟨begun, g⟩ := (Flow.blockContext context).run f
          cases begun with
          | error e => exact ⟨hrest, hp.blocks⟩
          | ok v =>
              cases v with
              | context c => exact ⟨hstep, List.forall_mem_cons.2 ⟨hrest, hp.blocks⟩⟩
              | _ => exact ⟨hrest, hp.blocks⟩
      | _ => exact ⟨hrest, hp.blocks⟩

namespace Turns.Kept

variable [DecidableEq ι] {a : ι → Progress × Flow} {s : Turns ι} {μ : ι → Nat → Nat}

/-- What a flow's own turn does, under a renaming that keeps to where the numbers are then
placed. -/
theorem move (h : Kept a s μ) (i : ι) {ν : Renaming} {n' : Nat}
    (hn' : nextAlone ((a i).1.move.run (a i).2) = n')
    (hν : ν.Extends (placeNext (μ i) (nextAlone (a i)) s.world.nextIdent) n'
      (s.world.nextIdent + (n' - nextAlone (a i)))) :
    Mirrors ν ((a i).1.move.run (a i).2) ((s.turn i).threads i).progress ((s.turn i).flow i) ∧
      (s.turn i).world.nextIdent = s.world.nextIdent + (n' - nextAlone (a i)) ∧
      ∀ c ∉ Set.range ν.context,
        (s.turn i).world.contexts.defaults c = s.world.contexts.defaults c := by
  subst hn'
  have hmatches := Progress.move_matches (ν := ν) (h.plain i)
  have hle : nextAlone (a i) ≤ nextAlone ((a i).1.move.run (a i).2) := hmatches.le (a i).2
  obtain ⟨hprogress, hflow⟩ := h.mirrors i ν (hν.before hle)
  rw [← hprogress] at hmatches
  obtain ⟨hmoved, hends⟩ := hmatches.run (a i).2 (s.flow i) hflow (hν.allots (h.pos i))
  have hthread : (s.turn i).threads i = ⟨((s.threads i).progress.move.run (s.flow i)).2.stack,
      ((s.threads i).progress.move.run (s.flow i)).2.names,
      ((s.threads i).progress.move.run (s.flow i)).1⟩ := Function.update_self i _ _
  refine ⟨⟨?_, ?_⟩, hends.next, hends.apart⟩
  · rw [hthread]
    exact hmoved
  · rw [Turns.flow, hthread]
    exact hends.renamed

omit [DecidableEq ι] in
/-- Where the numbers of a flow are then placed, no other flow has placed numbers. -/
theorem placeNext_ne (h : Kept a s μ) {i j : ι} (hij : i ≠ j) {x y : Nat} (hx : 0 < x)
    (hy : 0 < y) (hyn : y < nextAlone (a j)) :
    placeNext (μ i) (nextAlone (a i)) s.world.nextIdent x ≠ μ j y := by
  intro heq
  rcases placeNext_cases (μ i) (nextAlone (a i)) s.world.nextIdent x with ⟨hxn, hx'⟩ | ⟨-, hx'⟩
  · exact h.disjoint i j hij x y hx hxn hy hyn (hx' ▸ heq)
  · have := (h.placed j).lt y hy hyn
    omega

/-- A turn of one flow leaves alone what the contexts of the others hold. -/
theorem apart (h : Kept a s μ) {i j : ι} (hij : i ≠ j) {n' : Nat}
    (hn' : nextAlone ((a i).1.move.run (a i).2) = n') {ν : Renaming}
    (hν : ν.Extends (μ j) (nextAlone (a j)) (s.world.nextIdent + (n' - nextAlone (a i))))
    (c : Nat) :
    (s.turn i).world.contexts.defaults (ν.context c) =
      s.world.contexts.defaults (ν.context c) := by
  have hle : nextAlone (a i) ≤ n' :=
    hn' ▸ (Progress.move_matches (ν := ν) (h.plain i)).le (a i).2
  have hplaced := (h.placed i).next hle
  -- the flow whose turn it is can be given a renaming that does not meet this context
  obtain ⟨ρ, hρ, hfree⟩ := Renaming.exists_extends hplaced (ν.context c)
  refine (h.move i hn' hρ).2.2 _ ?_
  rintro ⟨(x : Nat), hx⟩
  by_cases hused : 0 < x ∧ x < n'
  · have hbound := hplaced.lt x hused.1 hused.2
    rw [hρ.context x hused.1 hused.2] at hx
    by_cases hc : 0 < c ∧ c < nextAlone (a j)
    · rw [hν.context c hc.1 hc.2] at hx
      exact h.placeNext_ne hij hused.1 hc.1 hc.2 hx
    · rw [hx] at hbound
      exact absurd hbound (Nat.not_lt.2 (hν.unused c (by omega)))
  · exact hfree x (by omega) hx

/-- **A turn of one flow leaves each of them what it is when it runs alone.** -/
theorem turn (h : Kept a s μ) (i : ι) :
    Kept (Function.update a i ((a i).1.move.run (a i).2)) (s.turn i)
      (Function.update μ i (placeNext (μ i) (nextAlone (a i)) s.world.nextIdent)) := by
  generalize hn' : nextAlone ((a i).1.move.run (a i).2) = n'
  have hle : nextAlone (a i) ≤ n' := by
    obtain ⟨ν, -⟩ := Renaming.exists_extends (h.placed i) 0
    exact hn' ▸ (Progress.move_matches (ν := ν) (h.plain i)).le (a i).2
  have hplaced := (h.placed i).next hle
  have hnext : (s.turn i).world.nextIdent = s.world.nextIdent + (n' - nextAlone (a i)) := by
    obtain ⟨ν, hν, -⟩ := Renaming.exists_extends hplaced 0
    exact (h.move i hn' hν).2.1
  have hothers : ∀ j, j ≠ i → (s.turn i).threads j = s.threads j :=
    fun j hj => Function.update_of_ne hj _ _
  refine ⟨fun j => ?_, fun j => ?_, fun j => ?_, fun j k hjk => ?_, fun j ν hν => ?_⟩
  · by_cases hj : j = i
    · rw [hj, Function.update_self]
      exact Progress.plain_move (h.plain i) (a i).2
    · rw [Function.update_of_ne hj]
      exact h.plain j
  · by_cases hj : j = i
    · rw [hj, Function.update_self, hn']
      exact Nat.lt_of_lt_of_le (h.pos i) hle
    · rw [Function.update_of_ne hj]
      exact h.pos j
  · rw [hnext]
    by_cases hj : j = i
    · rw [hj, Function.update_self, Function.update_self, hn']
      exact hplaced
    · rw [Function.update_of_ne hj, Function.update_of_ne hj]
      exact (h.placed j).mono (Nat.le_add_right _ _)
  · intro x y hx hxn hy hyn
    by_cases hj : j = i
    · have hk : k ≠ i := fun hk => hjk (hj.trans hk.symm)
      rw [Function.update_of_ne hk] at hyn ⊢
      rw [hj, Function.update_self]
      exact h.placeNext_ne (fun heq => hk heq.symm) hx hy hyn
    · rw [Function.update_of_ne hj] at hxn ⊢
      by_cases hk : k = i
      · rw [hk, Function.update_self]
        exact (h.placeNext_ne (fun heq => hj heq.symm) hy hx hxn).symm
      · rw [Function.update_of_ne hk] at hyn ⊢
        exact h.disjoint j k hjk x y hx hxn hy hyn
  · by_cases hj : j = i
    · rw [hj, Function.update_self, Function.update_self, hn', hnext] at hν
      rw [hj, Function.update_self]
      exact (h.move i hn' hν).1
    · rw [Function.update_of_ne hj, Function.update_of_ne hj, hnext] at hν
      rw [Function.update_of_ne hj, Turns.flow, hothers j hj]
      obtain ⟨hprogress, hflow⟩ := h.mirrors j ν (hν.mono (Nat.le_add_right _ _))
      exact ⟨hprogress, hflow.stack, hflow.names, fun c =>
        (h.apart (fun heq => hj heq.symm) hn' hν c).trans (hflow.fits c)⟩

end Turns.Kept

/-! ## Whole schedules -/

namespace Turns

theorem kept_start (steps : ι → List Step) (hplain : ∀ i, plainAll (steps i) = true) :
    Kept (fun i => alone (steps i) 0) (start steps) (fun _ x => x) where
  plain i := ⟨hplain i, fun _ hb => absurd hb List.not_mem_nil⟩
  pos _ := Nat.one_pos
  placed _ := ⟨Nat.one_pos, fun _ hx _ => hx, fun _ _ hlt => hlt, fun _ _ _ _ _ _ heq => heq⟩
  disjoint _ _ _ _ _ hx hlt _ _ := absurd hx (Nat.not_lt.2 (Nat.le_of_lt_succ hlt))
  mirrors _ _ _ := ⟨rfl, rfl, rfl, fun _ => rfl⟩

variable [DecidableEq ι]

/-- After any schedule, each flow is what it is alone after as many moves as it had turns. -/
theorem kept_run (steps : ι → List Step) (hplain : ∀ i, plainAll (steps i) = true)
    (schedule : List ι) :
    ∃ μ, Kept (fun i => alone (steps i) (schedule.count i)) ((start steps).run schedule) μ := by
  induction schedule using List.reverseRecOn with
  | nil => exact ⟨_, kept_start steps hplain⟩
  | append_singleton schedule i ih =>
      obtain ⟨μ, h⟩ := ih
      have halone : (fun j => alone (steps j) ((schedule ++ [i]).count j)) =
          Function.update (fun j => alone (steps j) (schedule.count j)) i
            ((alone (steps i) (schedule.count i)).1.move.run
              (alone (steps i) (schedule.count i)).2) := by
        funext j
        by_cases hj : j = i
        · rw [hj, Function.update_self, List.count_append, List.count_singleton_self]
          rfl
        · have hnone : [i].count j = 0 :=
            List.count_eq_zero_of_not_mem fun hmem => hj (List.mem_singleton.1 hmem)
          rw [Function.update_of_ne hj, List.count_append, hnone, Nat.add_zero]
      have hrun : (start steps).run (schedule ++ [i]) = ((start steps).run schedule).turn i :=
        List.foldl_concat _ _ _ _
      rw [halone, hrun]
      exact ⟨_, h.turn i⟩

/-- A flow that has had some turns is undisturbed by the others. -/
structure Undisturbed (steps : List Step) (turns : Nat) (s : Turns ι) (i : ι) : Prop where
  /-- Its stack, its values and what its contexts hold are under other numbers what they are when it
  runs alone and has made as many moves. -/
  mirrors : ∃ ν, Mirrors ν (alone steps turns) (s.threads i).progress (s.flow i)
  /-- Its steps have had the same results and failures. -/
  entries : (s.threads i).progress.entries = (alone steps turns).1.entries
  /-- Every value that it has stored is reported as it is when it runs alone. -/
  reports : ∀ n, ((s.threads i).names.get? n).map (Value.report s.world.contexts) =
    ((alone steps turns).2.names.get? n).map (Value.report (alone steps turns).2.world.contexts)
  /-- If it has had turns enough, it has come to what a session of its own comes to. -/
  ends : turnsAll steps ≤ turns →
    (s.threads i).progress = ⟨runSession steps, [], []⟩ ∧
      ∃ ν, Flow.Renamed ν ((runAll steps).run .initial).2 (s.flow i)

/-- **Flows that take turns do not disturb each other.** -/
theorem undisturbed (steps : ι → List Step) (hplain : ∀ i, plainAll (steps i) = true)
    (schedule : List ι) (i : ι) :
    Undisturbed (steps i) (schedule.count i) ((start steps).run schedule) i := by
  obtain ⟨μ, h⟩ := kept_run steps hplain schedule
  obtain ⟨ν, hν, -⟩ := Renaming.exists_extends (h.placed i) 0
  have hmirrors := h.mirrors i ν hν
  refine ⟨⟨ν, hmirrors⟩, by rw [hmirrors.progress]; rfl, fun n => ?_, fun henough => ?_⟩
  · have hnames : (((start steps).run schedule).threads i).names =
        (alone (steps i) (schedule.count i)).2.names.rename ν := hmirrors.flow.names
    rw [hnames, Names.get?_rename, Option.map_map]
    exact congrArg (Option.map · _) (funext fun v => v.report_rename hmirrors.flow.fits)
  · have halone : alone (steps i) (schedule.count i) =
        (⟨runSession (steps i), [], []⟩, ((runAll (steps i)).run .initial).2) :=
      Progress.moves_eq_runAll (steps i) .initial henough
    rw [halone] at hmirrors
    exact ⟨hmirrors.progress, ν, hmirrors.flow⟩

/-- One flow is interrupted in a block and leaves a context that is no longer active; the other ends
one context too many. The first has begun its context after the other one, under another number than
alone. -/
theorem undisturbed_two : ∃ (steps : Bool → List Step) (schedule : List Bool),
    (∀ i, plainAll (steps i) = true) ∧ turnsAll (steps true) ≤ schedule.count true ∧
      (((start steps).run schedule).threads true).stack = [2] ∧
      (alone (steps true) (schedule.count true)).2.stack = [1] ∧
      Undisturbed (steps true) (schedule.count true) ((start steps).run schedule) true := by
  let steps : Bool → List Step := fun
    | true => [.enter none none,
        .within none (some "c") true [.call (.node (some (.text "n")) []) (some "n")],
        .leave "c" false none]
    | false => [.enter none none, .finish none none, .finish none none]
  have hplain : ∀ i, plainAll (steps i) = true := by decide
  exact ⟨steps, [false, true, true, false, true, false, true, true], hplain, by decide,
    by decide +kernel, by decide +kernel, undisturbed steps hplain _ true⟩

end Turns

end DotDoc
