import DotDoc.Proofs.Session.Chronicle
import DotDoc.Proofs.Session.Members
import DotDoc.Proofs.Session.RenamedRuns

set_option autoImplicit false

/-!
# Constructions in another order

A plan lists calls whose results are stored under names. Where two neighbouring calls of a plan do
not read each other's names, they can change places (`Plan.Swap`): the numbers that they are handed
out change places, too, and nothing else does. By such swaps one gets from a plan to all others that
list the same calls and in which no call comes before what it reads (`Plan.swaps_of_perm`).

So constructions can be made in another order, and others can be made in between that are not read
afterwards. No text that is written in the end is different (`Flow.text?_rearranged`).
-/

namespace DotDoc

open Relation (ReflTransGen)

/-! ## Stretches of numbers that change places -/

/-- The `a` numbers from `n` on and the `b` numbers after them change places. -/
def exchange (n a b : Nat) : Nat → Nat := fun x =>
  if x < n then x else if x < n + a then x + b else if x < n + a + b then x - a else x

theorem exchange_injective (n a b : Nat) : Function.Injective (exchange n a b) := by
  intro x y h
  simp only [exchange] at h
  split_ifs at h <;> omega

namespace Renaming

variable {n : Nat} (hn : 0 < n) (a b : Nat)

/-- Elements and contexts with numbers that change places. -/
def exchange : Renaming where
  ident := DotDoc.exchange n a b
  context := DotDoc.exchange n a b
  ident_injective := exchange_injective n a b
  context_injective := exchange_injective n a b
  ident_zero := if_pos hn

/-- What becomes of a number in one of the stretches that `exchange` tells apart. -/
theorem allots_exchange {i j m : Nat}
    (h : ∀ k, i + k < j → DotDoc.exchange n a b (i + k) = m + k) :
    (exchange hn a b).Allots i j m :=
  fun k hk => ⟨h k hk, h k hk⟩

theorem exchange_before : (exchange hn a b).Allots 1 n 1 :=
  allots_exchange hn a b fun _ hk => if_pos hk

theorem exchange_first : (exchange hn a b).Allots n (n + a) (n + b) :=
  allots_exchange hn a b fun k hk => by
    rw [DotDoc.exchange, if_neg (by omega), if_pos hk]
    omega

theorem exchange_second : (exchange hn a b).Allots (n + a) (n + a + b) n :=
  allots_exchange hn a b fun k hk => by
    rw [DotDoc.exchange, if_neg (by omega), if_neg (by omega), if_pos hk]
    omega

theorem exchange_after (m : Nat) : (exchange hn a b).Allots (n + a + b) m (n + a + b) :=
  allots_exchange hn a b fun k _ => by
    rw [DotDoc.exchange, if_neg (by omega), if_neg (by omega), if_neg (by omega)]

end Renaming

/-! ## Plans -/

/-- Calls with the names that their results are stored under. -/
abbrev Plan := List (String × Call)

namespace Plan

/-- The steps that carry out a plan. -/
def steps (p : Plan) : List Step := p.map fun e => .call e.2 (some e.1)

/-- The names that results are stored under. -/
def names (p : Plan) : List String := p.map Prod.fst

/-- No call comes before one whose result it reads. -/
def Ordered (p : Plan) : Prop := p.Pairwise fun e e' => e'.1 ∉ e.2.reads

instance (p : Plan) : Decidable p.Ordered :=
  inferInstanceAs (Decidable (p.Pairwise fun e e' => e'.1 ∉ e.2.reads))

/-- Two neighbouring calls that do not read each other's results change places. -/
inductive Swap : Plan → Plan → Prop
  | swap (before after : Plan) {e e' : String × Call} (hne : e.1 ≠ e'.1) (h : e'.1 ∉ e.2.reads)
    (h' : e.1 ∉ e'.2.reads) : Swap (before ++ e :: e' :: after) (before ++ e' :: e :: after)

theorem swaps_cons (x : String × Call) {p q : Plan} (h : ReflTransGen Swap p q) :
    ReflTransGen Swap (x :: p) (x :: q) := by
  refine h.lift (x :: ·) ?_
  rintro _ _ ⟨before, after, hne, h, h'⟩
  exact .swap (x :: before) after hne h h'

/-- A call that is independent of all calls before it can be made first. -/
theorem swaps_front {x : String × Call} {front : Plan} (rest : Plan)
    (h : ∀ e ∈ front, e.1 ≠ x.1 ∧ x.1 ∉ e.2.reads ∧ e.1 ∉ x.2.reads) :
    ReflTransGen Swap (front ++ x :: rest) (x :: (front ++ rest)) := by
  induction front with
  | nil => exact .refl
  | cons e front ih =>
      obtain ⟨hne, hx, he⟩ := h e List.mem_cons_self
      have hrest := ih fun e' he' => h e' (List.mem_cons_of_mem e he')
      exact (swaps_cons e hrest).tail (.swap [] (front ++ rest) hne hx he)

/-- **Plans of the same calls differ by swaps**, if in both of them no call comes before one whose
result it reads. -/
theorem swaps_of_perm {p q : Plan} (h : p.Perm q) (hp : p.Ordered) (hq : q.Ordered)
    (hnames : p.names.Nodup) : ReflTransGen Swap p q := by
  -- the calls of the second plan are brought to their places one after the other
  induction q generalizing p with
  | nil =>
      rw [h.eq_nil]
  | cons x q ih =>
      -- what the other plan makes first is made at some place of this one
      obtain ⟨front, rest, rfl⟩ := List.append_of_mem (h.mem_iff.2 List.mem_cons_self)
      have hperm : (front ++ rest).Perm q := (List.perm_middle.symm.trans h).cons_inv
      have hsub : (front ++ rest).Sublist (front ++ x :: rest) :=
        List.Sublist.append_left (List.sublist_cons_self x rest) front
      obtain ⟨hxq, hq⟩ := List.pairwise_cons.1 hq
      have hfront : ∀ e ∈ front, e.1 ≠ x.1 ∧ x.1 ∉ e.2.reads ∧ e.1 ∉ x.2.reads := by
        intro e he
        refine ⟨?_, ?_, hxq e (hperm.mem_iff.1 (List.mem_append_left rest he))⟩
        · rw [names, List.map_append, List.nodup_append] at hnames
          exact hnames.2.2 _ (List.mem_map_of_mem he) _ List.mem_cons_self
        · exact (List.pairwise_append.1 hp).2.2 e he x List.mem_cons_self
      refine (swaps_front rest hfront).trans (swaps_cons x (ih hperm (hp.sublist hsub) hq ?_))
      exact hnames.sublist (hsub.map Prod.fst)

theorem mem_readsAll_steps {p : Plan} {n : String} :
    n ∈ readsAll p.steps ↔ ∃ e ∈ p, n ∈ e.2.reads := by
  induction p with
  | nil => simp [steps, readsAll]
  | cons e rest ih =>
      show n ∈ e.2.reads ++ readsAll (steps rest) ↔ _
      rw [List.mem_append, ih]
      simp

end Plan

/-- The call may make a context or set attributes of one. Constructions do not, nor do links, members,
merges and ports. -/
def Call.setsContexts : Call → Bool
  | .newContext => true
  | .attr .. => true
  | .attrs .. => true
  | .field _ .attrs _ => true
  | _ => false

/-! ## Building -/

theorem run_runAll_append (steps more : List Step) (f : Flow) :
    ((runAll (steps ++ more)).run f).2 = ((runAll more).run ((runAll steps).run f).2).2 := by
  induction steps generalizing f with
  | nil => rfl
  | cons s rest ih => exact ih (s.run.run f).2

namespace Flow

variable {ν : Renaming} {veiled : List String} {f s s' : Flow} {p q : Plan}

theorem session_append (steps more : List Step) :
    session (steps ++ more) = ((runAll more).run (session steps)).2 :=
  run_runAll_append steps more initial

/-- The flow after a plan is carried out. -/
def build (f : Flow) (p : Plan) : Flow := ((runAll p.steps).run f).2

theorem build_append (f : Flow) (p q : Plan) : f.build (p ++ q) = (f.build p).build q := by
  rw [build, Plan.steps, List.map_append]
  exact run_runAll_append p.steps q.steps f

theorem build_cons (f : Flow) (e : String × Call) (p : Plan) :
    f.build (e :: p) = (f.build [e]).build p :=
  build_append f [e] p

theorem session_build (pre : List Step) (p : Plan) :
    (session pre).build p = session (pre ++ p.steps) :=
  (session_append pre p.steps).symm

theorem le_build (f : Flow) (p : Plan) : f.world.nextIdent ≤ (f.build p).world.nextIdent :=
  (later_runAll p.steps f).nextIdent_le

theorem build_stack (f : Flow) (p : Plan) : (f.build p).stack = f.stack := by
  induction p generalizing f with
  | nil => rfl
  | cons e rest ih =>
      rw [build_cons, ih]
      exact stack_call e.2 (some e.1) f

/-- A plan stores nothing under other names than its own. -/
theorem build_names {n : String} (h : n ∉ p.names) : (f.build p).names.get? n = f.names.get? n := by
  induction p generalizing f with
  | nil => rfl
  | cons e rest ih =>
      obtain ⟨hne, hrest⟩ := not_or.1 (mt List.mem_cons.2 h)
      rw [build_cons, ih hrest]
      show ((Flow.call e.2 (some e.1)).run f).2.names.get? n = _
      rw [run_call]
      cases ((Act.perform f.stack f.names e.2).run f.world).1 with
      | error _ => rfl
      | ok answer =>
          show Table.get? (f.names.set e.1 answer.stored) n = _
          rw [Table.get?_set, if_neg hne]

/-! ## Plans that leave contexts alone -/

/-- All along the plan the contexts hold what they hold. -/
def Steady (f : Flow) : Plan → Prop
  | [] => True
  | e :: rest => (∀ c, (f.build [e]).world.contexts.defaults c = f.world.contexts.defaults c) ∧
    (f.build [e]).Steady rest

theorem steady_append : f.Steady (p ++ q) ↔ f.Steady p ∧ (f.build p).Steady q := by
  induction p generalizing f with
  | nil => exact (iff_of_eq (true_and _)).symm
  | cons e rest ih =>
      show (_ ∧ (f.build [e]).Steady (rest ++ q)) ↔ (_ ∧ (f.build [e]).Steady rest) ∧ _
      rw [ih, build_cons f e rest, and_assoc]

theorem Steady.defaults (h : f.Steady p) (c : ContextId) :
    (f.build p).world.contexts.defaults c = f.world.contexts.defaults c := by
  induction p generalizing f with
  | nil => rfl
  | cons e rest ih =>
      rw [build_cons]
      exact (ih h.2).trans (h.1 c)

theorem defaults_ext {d d' : Defaults} (h : ∀ slot, d.get slot = d'.get slot) : d = d' := by
  obtain ⟨graphs, nodes, links⟩ := d
  obtain ⟨graphs', nodes', links'⟩ := d'
  cases h .graph
  cases h .node
  cases h .link
  rfl

theorem happenings_eq_nil (f : Flow) {c : Call} (h : c.setsContexts = false) :
    f.happenings c = [] := by
  have hcall : c.happenings f.names = Pure.pure [] := by
    cases c with
    | field on field index =>
        cases field with
        | attrs => exact absurd h Bool.noConfusion
        | _ => rfl
    | newContext => exact absurd h Bool.noConfusion
    | attr on key v => exact absurd h Bool.noConfusion
    | attrs on items named => exact absurd h Bool.noConfusion
    | _ => rfl
  rw [happenings, hcall]
  rfl

/-- A call to which nothing happens in contexts leaves them as they are. -/
theorem steady_cons_of_happenings {e : String × Call} {rest : Plan} (h : f.happenings e.2 = [])
    (hrest : (f.build [e]).Steady rest) : f.Steady (e :: rest) := by
  refine ⟨fun c => defaults_ext fun slot => ?_, hrest⟩
  have hworld : (f.build [e]).world = ((Act.perform f.stack f.names e.2).run f.world).2 := by
    show ((Flow.call e.2 (some e.1)).run f).2.world = _
    rw [run_call]
    cases ((Act.perform f.stack f.names e.2).run f.world).1 <;> rfl
  have htables := (Act.perform_does f.stack f.names e.2).tables f.world c slot
  change _ = (f.happenings e.2).replay c slot _ at htables
  rw [h] at htables
  rw [hworld]
  exact htables

/-- A plan in which no call makes a context or sets attributes in place is such a plan. -/
theorem steady_of_calls (h : ∀ e ∈ p, e.2.setsContexts = false) : f.Steady p := by
  induction p generalizing f with
  | nil => trivial
  | cons e rest ih =>
      obtain ⟨he, hrest⟩ := List.forall_mem_cons.1 h
      exact steady_cons_of_happenings (happenings_eq_nil f he) (ih hrest)

/-! ## Plans carried out by flows that are alike -/

theorem Akin.build (h : Akin veiled ν s s') (hread : ∀ e ∈ p, ∀ n ∈ e.2.reads, n ∉ veiled)
    (hallots : ν.Allots s.world.nextIdent (s.build p).world.nextIdent s'.world.nextIdent) :
    Akin.Ends veiled ν s (s.build p) s' (s'.build p) := by
  refine h.runAll (fun n hn => ?_) hallots
  obtain ⟨e, he, hne⟩ := Plan.mem_readsAll_steps.1 hn
  exact hread e he n hne

/-- A plan that leaves contexts alone does so in a flow that is alike. -/
theorem Akin.steady (h : Akin veiled ν s s') (hread : ∀ e ∈ p, ∀ n ∈ e.2.reads, n ∉ veiled)
    (hallots : ν.Allots s.world.nextIdent (s.build p).world.nextIdent s'.world.nextIdent)
    (hp : s.Steady p) : s'.Steady p := by
  induction p generalizing s s' with
  | nil => trivial
  | cons e rest ih =>
      obtain ⟨he, hrest⟩ := hp
      obtain ⟨hreadFirst, hreadRest⟩ := List.forall_mem_cons.1 hread
      rw [build_cons] at hallots
      have hle := le_build s [e]
      have hends := h.build (p := [e]) (List.forall_mem_singleton.2 hreadFirst)
        (hallots.left (le_build _ rest))
      refine ⟨fun c => ?_, ih hends.akin hreadRest (hends.next ▸ hallots.right hle) hrest⟩
      by_cases hc : c ∈ Set.range ν.context
      · obtain ⟨d, rfl⟩ := hc
        rw [hends.akin.fits d, he d, h.fits d]
      · exact hends.apart c hc

/-- A flow is alike to what it becomes by a plan, but for the names of the plan. -/
theorem Renamed.akin_build (h : Renamed ν f f) (hp : f.Steady p) :
    Akin p.names ν f (f.build p) where
  stack := by
    rw [build_stack]
    exact h.stack
  names n hn := by
    rw [build_names hn, ← Names.get?_rename, ← h.names]
  fits c := (hp.defaults _).trans (h.fits c)

theorem Renamed.build_akin (h : Renamed ν f f) (hp : f.Steady p) :
    Akin p.names ν (f.build p) f where
  stack := by
    rw [build_stack]
    exact h.stack
  names n hn := by
    rw [build_names hn, ← Names.get?_rename, ← h.names]
  fits c := (h.fits c).trans (hp.defaults c).symm

/-! ## Swaps -/

/-- A call that does not read what another one stores goes the same way with that one made and without
it, in either direction. -/
theorem Akin.build_apart {x e : String × Call} (h : Akin (Plan.names [x]) ν s s')
    (hx : x.1 ∉ e.2.reads) (hsteady : s.Steady [e])
    (hallots : ν.Allots s.world.nextIdent (s.build [e]).world.nextIdent s'.world.nextIdent) :
    Akin.Ends (Plan.names [x]) ν s (s.build [e]) s' (s'.build [e]) ∧ s'.Steady [e] := by
  have hread : ∀ y ∈ [e], ∀ n ∈ y.2.reads, n ∉ Plan.names [x] := by
    intro y hy n hn hmem
    rw [List.mem_singleton.1 hy] at hn
    exact hx (List.mem_singleton.1 hmem ▸ hn)
  exact ⟨h.build hread hallots, h.steady hread hallots hsteady⟩

/-- The second call is made first, and then the first one: what both flows come to is alike. The one
name is stored as the second call has stored it, and all others as the first one leaves them. -/
theorem Akin.of_swap {f : Flow} {e e' : String × Call} (hne : e.1 ≠ e'.1)
    (hsecond : (f.build [e]).Steady [e'])
    (hback : Akin (Plan.names [e]) ν ((f.build [e]).build [e']) (f.build [e']))
    (hforth : Akin (Plan.names [e']) ν (f.build [e]) ((f.build [e']).build [e])) :
    Akin [] ν ((f.build [e]).build [e']) ((f.build [e']).build [e]) where
  stack := by rw [hforth.stack, build_stack (f.build [e])]
  names n _ := by
    by_cases hn : n = e'.1
    · have hn₁ : n ∉ Plan.names [e] := fun hmem => hne ((List.mem_singleton.1 hmem).symm.trans hn)
      rw [build_names hn₁, hback.names n hn₁]
    · have hn₂ : n ∉ Plan.names [e'] := fun hmem => hn (List.mem_singleton.1 hmem)
      rw [hforth.names n hn₂, build_names hn₂]
  fits c := by rw [hforth.fits c, hsecond.defaults c]

/-- **Two calls that do not read each other's results can change places.** The flows are alike
afterwards, and later numbers are the same. -/
theorem exists_akin_swap (pre : List Step) {e e' : String × Call} (hne : e.1 ≠ e'.1)
    (h : e'.1 ∉ e.2.reads) (h' : e.1 ∉ e'.2.reads) (hsteady : (session pre).Steady [e, e']) :
    (session pre).Steady [e', e] ∧
      ∃ ν, Akin [] ν ((session pre).build [e, e']) ((session pre).build [e', e]) ∧
        ∀ m, ν.Allots ((session pre).build [e, e']).world.nextIdent m
          ((session pre).build [e', e]).world.nextIdent := by
  have hself : ∀ ν : Renaming, ν.Allots 1 (session pre).world.nextIdent 1 →
      Renamed ν (session pre) (session pre) := fun ν => renamed_session pre
  have hpos := one_le_session pre
  generalize session pre = f at hsteady hself hpos ⊢
  rw [build_cons f e [e'], build_cons f e' [e]]
  obtain ⟨hfirst, hsecond⟩ : f.Steady [e] ∧ (f.build [e]).Steady [e'] :=
    ⟨⟨hsteady.1, trivial⟩, hsteady.2⟩
  -- what the two calls are handed out changes places
  obtain ⟨a, ha⟩ := Nat.exists_eq_add_of_le (le_build f [e])
  obtain ⟨b, hb⟩ := Nat.exists_eq_add_of_le (le_build (f.build [e]) [e'])
  rw [ha] at hb
  have hν := hself (.exchange hpos a b) (Renaming.exchange_before hpos a b)
  -- the second call goes first
  obtain ⟨hends', hsteady'⟩ := (hν.build_akin hfirst).build_apart h' hsecond (by
    rw [hb, ha]
    exact Renaming.exchange_second hpos a b)
  have hnext' : (f.build [e']).world.nextIdent = f.world.nextIdent + b := by
    rw [hends'.next, hb, ha]
    omega
  -- then the first one
  obtain ⟨hends, hlast⟩ := (hν.akin_build hsteady').build_apart h hfirst (by
    rw [ha, hnext']
    exact Renaming.exchange_first hpos a b)
  refine ⟨⟨hsteady'.1, hlast⟩, .exchange hpos a b,
    .of_swap hne hsecond hends'.akin hends.akin, fun m => ?_⟩
  have hnext : ((f.build [e']).build [e]).world.nextIdent = f.world.nextIdent + a + b := by
    rw [hends.next, hnext', ha]
    omega
  rw [hb, hnext]
  exact Renaming.exchange_after hpos a b m

/-! ## Texts -/

/-- What is written for the graph that is stored under a name, if one is stored there and it can be
written. -/
def text? (f : Flow) (n : String) (d : Dot.Dialect) : Option (Option String) :=
  match f.names.get? n with
  | some (.graph g) => some (g.serialize d).toOption
  | _ => none

/-- Flows that are alike have the same texts. -/
theorem Akin.text?_eq (h : Akin veiled ν s s') {n : String} (hn : n ∉ veiled) (d : Dot.Dialect) :
    s'.text? n d = s.text? n d := by
  rw [text?, text?, h.names n hn]
  cases s.names.get? n with
  | none => rfl
  | some v =>
      cases v with
      | graph g =>
          -- the graph that is stored is the same under other numbers
          have halike := Graph.serialize_rename ν g d
          show some ((g.rename ν).serialize d).toOption = some (g.serialize d).toOption
          revert halike
          generalize g.serialize d = x
          generalize (g.rename ν).serialize d = y
          intro halike
          cases halike with
          | ok htext => rw [htext]
          | error _ => rfl
      | _ => rfl

/-- A swap leaves all texts as they are, whatever steps come before and after. -/
theorem text?_swap (pre post : List Step) (hswap : Plan.Swap p q)
    (hsteady : (session pre).Steady p) :
    (session pre).Steady q ∧ ∀ n d,
      (session (pre ++ (q.steps ++ post))).text? n d =
        (session (pre ++ (p.steps ++ post))).text? n d := by
  obtain ⟨before, after, hne, h, h'⟩ := hswap
  rename_i e e'
  have hsplit : ∀ x y : String × Call, before ++ x :: y :: after = before ++ ([x, y] ++ after) :=
    fun _ _ => rfl
  rw [hsplit, steady_append, steady_append, session_build] at hsteady
  obtain ⟨hbefore, htwo, hafter⟩ := hsteady
  obtain ⟨htwo', ν, hakin, hallots⟩ := exists_akin_swap _ hne h h' htwo
  refine ⟨?_, fun n d => ?_⟩
  · rw [hsplit, steady_append, steady_append, session_build]
    exact ⟨hbefore, htwo', hakin.steady (fun _ _ _ _ => List.not_mem_nil) (hallots _) hafter⟩
  · -- both sessions go from the flows after the two calls through the same further steps
    have hsteps : ∀ x y : String × Call, session
        (pre ++ (Plan.steps (before ++ ([x, y] ++ after)) ++ post)) =
          ((runAll (after.steps ++ post)).run
            ((session (pre ++ before.steps)).build [x, y])).2 := by
      intro x y
      rw [session_build, ← session_append]
      simp only [Plan.steps, List.map_append, List.append_assoc]
    rw [hsplit, hsplit, hsteps, hsteps]
    exact (hakin.runAll (fun _ _ => List.not_mem_nil) (hallots _)).akin.text?_eq
      List.not_mem_nil d

/-- Constructions that nothing reads afterwards leave all other texts as they are. -/
theorem text?_extra (pre post : List Step) {extra : Plan} (hsteady : (session pre).Steady extra)
    (hpost : ∀ n ∈ readsAll post, n ∉ extra.names) {n : String} (hn : n ∉ extra.names)
    (d : Dot.Dialect) : (session (pre ++ (extra.steps ++ post))).text? n d =
      (session (pre ++ post)).text? n d := by
  have hpos := one_le_session pre
  -- the numbers of the extra constructions come before those of the steps that follow
  obtain ⟨b, hb⟩ := Nat.exists_eq_add_of_le (le_build (session pre) extra)
  obtain ⟨a, ha⟩ := Nat.exists_eq_add_of_le (later_runAll post (session pre)).nextIdent_le
  have hself := renamed_session pre (Renaming.exchange_before hpos a b)
  have hallots : (Renaming.exchange hpos a b).Allots (session pre).world.nextIdent
      ((runAll post).run (session pre)).2.world.nextIdent
      ((session pre).build extra).world.nextIdent := by
    rw [hb, ha]
    exact Renaming.exchange_first hpos a b
  have hends := (hself.akin_build hsteady).runAll hpost hallots
  rw [← List.append_assoc, session_append (pre ++ extra.steps), ← session_build,
    session_append pre post]
  exact hends.akin.text?_eq hn d

/-- **Constructions can be made in any order, and others in between.** The first plan has all calls
of the second one, and extra ones whose results are not read otherwise. -/
theorem text?_rearranged (pre post : List Step) {plan plan' extra : Plan}
    (hperm : plan'.Perm (plan ++ extra)) (hnames : plan'.names.Nodup) (hordered' : plan'.Ordered)
    (hordered : Plan.Ordered (plan ++ extra)) (hsteady : (session pre).Steady plan')
    (hpost : ∀ n ∈ readsAll post, n ∉ extra.names) {n : String} (hn : n ∉ extra.names)
    (d : Dot.Dialect) : (session (pre ++ (plan'.steps ++ post))).text? n d =
      (session (pre ++ (plan.steps ++ post))).text? n d := by
  -- swaps lead to the plan in which all extra calls come last
  have hswaps : ∀ q, ReflTransGen Plan.Swap plan' q → (session pre).Steady q ∧
      (session (pre ++ (q.steps ++ post))).text? n d =
        (session (pre ++ (plan'.steps ++ post))).text? n d := by
    intro q hq
    induction hq with
    | refl => exact ⟨hsteady, rfl⟩
    | tail _ hswap ih =>
        obtain ⟨hq, htext⟩ := text?_swap pre post hswap ih.1
        exact ⟨hq, (htext n d).trans ih.2⟩
  obtain ⟨hsteadyAll, htext⟩ := hswaps _ (Plan.swaps_of_perm hperm hordered' hordered hnames)
  obtain ⟨-, hsteadyExtra⟩ := steady_append.1 hsteadyAll
  rw [session_build] at hsteadyExtra
  have hextra := text?_extra (pre ++ plan.steps) post hsteadyExtra hpost hn d
  rw [← htext]
  simp only [Plan.steps, List.map_append, List.append_assoc] at hextra ⊢
  exact hextra

end Flow

open DotDoc.Flow (session text?)

/-- **Numbers show only where they are the same.** Twins have the same text, or neither can be
written. So calls that leave contexts alone, as constructions do, can be made in another order, and
others that are not read otherwise can be made in between: whatever was done before and is done later,
all other graphs are written with the same text in the end, or still cannot be written. -/
theorem numbers_unseen :
    (∀ {ρ ρ' : Type} {π : Pairing ρ ρ'} {g : Graph ρ} {g' : Graph ρ'}, Graph.Twin π g g' →
      g'.directed = g.directed → g'.strict = g.strict →
        ∀ d, Alike (Unwritable.Twin π) Eq (g.serialize d) (g'.serialize d)) ∧
    ∀ (pre post : List Step) {plan plan' extra : Plan}, plan'.Perm (plan ++ extra) →
      plan'.names.Nodup → plan'.Ordered → Plan.Ordered (plan ++ extra) →
      (session pre).Steady plan' → (∀ n ∈ readsAll post, n ∉ extra.names) →
        ∀ n ∉ extra.names, ∀ d, (session (pre ++ (plan'.steps ++ post))).text? n d =
          (session (pre ++ (plan.steps ++ post))).text? n d :=
  ⟨fun h hdirected hstrict d => h.serialize hdirected hstrict d,
    fun pre post _ _ _ hperm hnames hordered' hordered hsteady hpost _ hn d =>
      Flow.text?_rearranged pre post hperm hnames hordered' hordered hsteady hpost hn d⟩

/-- Two nodes of which one links to the other, and a subgraph with the other one. -/
def linkedPlan : Plan := [
  ("a", .node (some (.text "a")) []),
  ("b", .node (some (.text "b")) []),
  ("c", .link "a" [.name "b"]),
  ("s", .newGraph (some (.text "s")) false false none),
  ("t", .addNodes "s" [.name "b"])]

/-- A further node, and a link to it that is not used. -/
def asidePlan : Plan := [
  ("x", .node (some (.text "x")) []),
  ("y", .link "b" [.name "x"])]

/-- The calls of both plans in another order. -/
def mixedPlan : Plan := [3, 5, 1, 6, 4, 0, 2].filterMap fun i => (linkedPlan ++ asidePlan)[i]?

/-- A graph of what the plans make. -/
def closingSteps : List Step := [
  .call (.newGraph (some (.text "g")) true false none) (some "g"),
  .call (.addNodes "g" [.name "c"]) (some "g"),
  .call (.addGraphs "g" [.name "t"]) (some "g")]

/-- What is written for it. -/
def closingText : String :=
  "digraph \"g\" \x7b\nsubgraph \"s\" \x7b\n\"b\"\n\x7d\n\"a\" -> \"b\"\n\x7d"

theorem numbers_unseen_mixed :
    (session (linkedPlan.steps ++ closingSteps)).text? "g" .standard = some (some closingText) ∧
    (session (mixedPlan.steps ++ closingSteps)).text? "g" .standard = some (some closingText) ∧
    ∃ (g : Graph Value) (ν : Renaming), g.Built ∧ (g.rename ν).ident ≠ g.ident ∧
      g.serialize .standard = .ok closingText ∧
      (g.rename ν).serialize .standard = .ok closingText := by
  have hlinked : (session (linkedPlan.steps ++ closingSteps)).text? "g" .standard =
      some (some closingText) := by decide +kernel
  refine ⟨hlinked, ?_, ?_⟩
  · have hperm : mixedPlan.Perm (linkedPlan ++ asidePlan) :=
      (by decide : [3, 5, 1, 6, 4, 0, 2].Perm (List.range 7)).filterMap _
    have hsteady : (session []).Steady mixedPlan := Flow.steady_of_calls (by decide +kernel)
    have hmixed := numbers_unseen.2 [] closingSteps hperm (by decide +kernel) (by decide +kernel)
      (by decide +kernel) hsteady (by decide +kernel) "g" (by decide +kernel) .standard
    exact hmixed.trans hlinked
  · have hbuilds : sessionBuilds (linkedPlan.steps ++ closingSteps) "g" (fun g =>
        decide (0 < g.ident) && (g.serialize .standard).toOption == some closingText) = true := by
      decide +kernel
    obtain ⟨g, hg, hp⟩ := exists_of_sessionBuilds hbuilds
    rw [Bool.and_eq_true, decide_eq_true_eq, beq_iff_eq] at hp
    -- all numbers of the graph give way to the next ones
    let ν : Renaming := .exchange Nat.one_pos g.ident 1
    have hident : (g.rename ν).ident = g.ident + 1 := by
      rw [Graph.ident_rename]
      show exchange 1 g.ident 1 g.ident = _
      rw [exchange, if_neg (by omega), if_pos (by omega)]
    have halike := numbers_unseen.1 (Graph.twin_rename ν g) (Graph.directed_rename ν g)
      (Graph.strict_rename ν g) .standard
    refine ⟨g, ν, hg, by omega, ?_⟩
    generalize g.serialize .standard = x at hp halike ⊢
    generalize (g.rename ν).serialize .standard = y at halike ⊢
    cases halike with
    | ok htext =>
        obtain rfl := Option.some.inj hp.2
        exact ⟨rfl, congrArg Except.ok htext.symm⟩
    | error _ => cases hp.2

end DotDoc
