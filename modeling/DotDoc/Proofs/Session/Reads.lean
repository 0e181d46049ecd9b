import DotDoc.Proofs.Session.Runs

set_option autoImplicit false

/-!
# The names that are read

A call describes its arguments by names that values are stored under. It depends on nothing else
that is stored: where the names that it reads stand for the same values, the call is the same action
(`Act.perform_congr`). So is a whole run of steps (`Step.run_blind`, `blind_runAll`).
-/

namespace DotDoc

/-! ## Names in arguments, calls and steps -/

mutual

/-- The names in the description of an argument. -/
def Expr.reads : Expr → List String
  | .list items => readsItems items
  | .name n => [n]
  | .markup e => e.reads
  | .map entries => readsEntries entries
  | _ => []

/-- The names in some descriptions. -/
def readsItems : List Expr → List String
  | [] => []
  | e :: rest => e.reads ++ readsItems rest

/-- The names in the description of a map. -/
def readsEntries : List (Expr × Expr) → List String
  | [] => []
  | (k, e) :: rest => k.reads ++ (e.reads ++ readsEntries rest)

end

/-- The names in an argument that may be missing. -/
def readsGiven : Option Expr → List String
  | none => []
  | some e => e.reads

/-- The names in arguments that are given by name. -/
def readsNamed : Named → List String
  | [] => []
  | e :: rest => e.2.reads ++ readsNamed rest

/-- The names of the values that a call asks for. -/
def Call.reads : Call → List String
  | .label v _ => readsGiven v
  | .labelOf v => v.reads
  | .markup v => v.reads
  | .attributes items args => readsGiven items ++ readsNamed args
  | .withAttr on key v => on :: (key.reads ++ v.reads)
  | .merge on other => on :: other.reads
  | .lookup on key => on :: key.reads
  | .contains on key => on :: key.reads
  | .compassOf direction => direction.reads
  | .port name side => readsGiven name ++ readsGiven side
  | .record on name => on.toList ++ name.reads
  | .compass on direction => on.toList ++ direction.reads
  | .nodePort on name side => on :: (readsGiven name ++ readsGiven side)
  | .node name args => readsGiven name ++ readsNamed args
  | .graph name args => readsGiven name ++ readsNamed args
  | .newNode name items => readsGiven name ++ readsGiven items
  | .newGraph name _ _ items => readsGiven name ++ readsGiven items
  | .linkTo target items => target.reads ++ readsGiven items
  | .between start target items => start.reads ++ (target.reads ++ readsGiven items)
  | .newLink target start items => target.reads ++ (readsGiven start ++ readsGiven items)
  | .linkOf target => target.reads
  | .point anchor place => anchor.reads ++ readsGiven place
  | .abstractAttr key v => key.reads ++ v.reads
  | .attr on key v => on :: (key.reads ++ v.reads)
  | .attrs on items args => on :: (readsGiven items ++ readsNamed args)
  | .link on targets => on :: readsItems targets
  | .addNodes on nodes => on :: readsItems nodes
  | .addGraphs on graphs => on :: readsItems graphs
  | .named on name => on :: name.reads
  | .debug v => v.reads
  | .text v => v.reads
  | .same a b => a.reads ++ b.reads
  | .equal a b => a.reads ++ b.reads
  | .distinct items => readsItems items
  | .serialize v => v.reads
  | .endpoint on => [on]
  | .directed on _ => [on]
  | .strict on _ => [on]
  | .view on _ => [on]
  | .get on => [on]
  | .field on _ _ => [on]
  | .serializeTwice on => [on]
  | .serializeWith on _ => [on]
  | .source on _ _ _ => [on]
  | .foreignTarget _ => []
  | .abstractTarget => []
  | .chain _ _ => []
  | .nest _ _ => []
  | .newContext => []
  | .current => []
  | .defaults => []

mutual

/-- The names of the values that a step asks for. -/
def Step.reads : Step → List String
  | .call c _ => c.reads
  | .enter on _ => on.toList
  | .finish on _ => on.toList
  | .leave on _ _ => [on]
  | .within context _ _ body => context.toList ++ readsAll body
  | .copied body => readsAll body
  | .apart body => readsAll body
  | .logged body => readsAll body

/-- The names of the values that some steps ask for. -/
def readsAll : List Step → List String
  | [] => []
  | s :: rest => s.reads ++ readsAll rest

end

/-! ## Calls that read the same -/

/-- The names stand for the same in both tables. -/
def Names.Agree (names names' : Names) (read : List String) : Prop :=
  ∀ n ∈ read, names'.get? n = names.get? n

namespace Names

variable {names names' : Names}

theorem agree_cons {n : String} {ns : List String} :
    names.Agree names' (n :: ns) ↔ names'.get? n = names.get? n ∧ names.Agree names' ns :=
  List.forall_mem_cons

theorem agree_append {ns ms : List String} :
    names.Agree names' (ns ++ ms) ↔ names.Agree names' ns ∧ names.Agree names' ms :=
  List.forall_mem_append

theorem read_congr {n : String} (h : names'.get? n = names.get? n) :
    names'.read n = names.read n := by
  rw [read, read, h]

theorem readFor_congr {p : Value → Bool} {n : String} (h : names'.get? n = names.get? n) :
    names'.readFor p n = names.readFor p n := by
  rw [readFor, readFor, read_congr h]

end Names

section Arguments

variable {names names' : Names}

mutual

theorem Expr.eval_congr : ∀ e : Expr, names.Agree names' e.reads → e.eval names' = e.eval names
  | .none, _ => rfl
  | .bool _, _ => rfl
  | .int _, _ => rfl
  | .text _, _ => rfl
  | .list items, h => by
    rw [Expr.eval, Expr.eval, evalItems_congr items h]
  | .name n, h => Names.read_congr (h n List.mem_cons_self)
  | .markup e, h => by
    rw [Expr.eval, Expr.eval, Expr.eval_congr e h]
  | .number _, _ => rfl
  | .map entries, h => by
    rw [Expr.eval, Expr.eval, evalEntries_congr [] entries h]

theorem evalItems_congr : ∀ es : List Expr, names.Agree names' (readsItems es) →
    evalItems names' es = evalItems names es
  | [], _ => rfl
  | e :: rest, h => by
    obtain ⟨he, hrest⟩ := Names.agree_append.1 h
    rw [evalItems, evalItems, Expr.eval_congr e he, evalItems_congr rest hrest]

theorem evalEntries_congr (done : List (Value × Value)) : ∀ es : List (Expr × Expr),
    names.Agree names' (readsEntries es) → evalEntries names' done es = evalEntries names done es
  | [], _ => rfl
  | (k, e) :: rest, h => by
    obtain ⟨hk, h⟩ := Names.agree_append.1 h
    obtain ⟨he, hrest⟩ := Names.agree_append.1 h
    rw [evalEntries, evalEntries, Expr.eval_congr k hk, Expr.eval_congr e he]
    refine bind_congr fun key => bind_congr fun v => ?_
    rw [evalEntries_congr _ rest hrest]

end

theorem evalOr_congr {e : Option Expr} (missing : Value)
    (h : names.Agree names' (readsGiven e)) : evalOr names' e missing = evalOr names e missing := by
  cases e with
  | none => rfl
  | some e => exact e.eval_congr h

theorem mapM_eval_congr {e : Option Expr} (h : names.Agree names' (readsGiven e)) :
    (e.mapM fun e => e.eval names') = e.mapM fun e => e.eval names := by
  cases e with
  | none => rfl
  | some e => rw [Option.mapM_some, Option.mapM_some, e.eval_congr h]

theorem evalNamed_congr {named : Named} (h : names.Agree names' (readsNamed named)) :
    evalNamed names' named = evalNamed names named := by
  have hmap : (named.mapM fun e => do return (e.1, ← e.2.eval names') : Act _) =
      named.mapM fun e => do return (e.1, ← e.2.eval names) := by
    induction named with
    | nil => rfl
    | cons e rest ih =>
        obtain ⟨he, hrest⟩ := Names.agree_append.1 h
        rw [List.mapM_cons, List.mapM_cons, Expr.eval_congr e.2 he, ih hrest]
  rw [evalNamed, evalNamed, hmap]

theorem elim_readFor_congr {on : Option String} (missing : Act Value) (p : Value → Bool)
    (h : names.Agree names' on.toList) :
    on.elim missing (names'.readFor p) = on.elim missing (names.readFor p) := by
  cases on with
  | none => rfl
  | some n => exact Names.readFor_congr (h n List.mem_cons_self)

/-- **A call depends on the names that it reads alone.** -/
theorem Act.perform_congr (active : Stack) (c : Call) (h : names.Agree names' c.reads) :
    perform active names' c = perform active names c := by
  have heval : ∀ e : Expr, names.Agree names' e.reads → e.eval names' = e.eval names :=
    Expr.eval_congr
  have hitems : ∀ es, names.Agree names' (readsItems es) →
      evalItems names' es = evalItems names es := evalItems_congr
  have hor : ∀ e m, names.Agree names' (readsGiven e) → evalOr names' e m = evalOr names e m :=
    fun _ m => evalOr_congr m
  have hmap : ∀ e, names.Agree names' (readsGiven e) →
      (Option.mapM (fun e => e.eval names') e) = e.mapM fun e => e.eval names :=
    fun _ => mapM_eval_congr
  have hnamed : ∀ named, names.Agree names' (readsNamed named) →
      evalNamed names' named = evalNamed names named := fun _ => evalNamed_congr
  have hread : ∀ n, names'.get? n = names.get? n → names'.read n = names.read n :=
    fun _ => Names.read_congr
  have hreadFor : ∀ p n, names'.get? n = names.get? n → names'.readFor p n = names.readFor p n :=
    fun _ _ => Names.readFor_congr
  have helim : ∀ on m p, names.Agree names' (Option.toList on) →
      on.elim m (names'.readFor p) = on.elim m (names.readFor p) :=
    fun _ m p => elim_readFor_congr m p
  cases c <;>
    simp only [Call.reads, Names.agree_cons, Names.agree_append] at h <;>
    simp only [perform, heval, hitems, hor, hmap, hnamed, hread, hreadFor, helim, h]

end Arguments

/-! ## Runs that read the same -/

namespace Flow

variable {α β : Type} {veiled : List String}

/-- The second flow differs from the first at most in what is stored under the veiled names. -/
structure SameBut (veiled : List String) (s s' : Flow) : Prop where
  stack : s'.stack = s.stack
  world : s'.world = s.world
  names : ∀ n ∉ veiled, s'.names.get? n = s.names.get? n

theorem SameBut.agree {s s' : Flow} (h : SameBut veiled s s') {read : List String}
    (hread : ∀ n ∈ read, n ∉ veiled) : s.names.Agree s'.names read :=
  fun n hn => h.names n (hread n hn)

/-- What is stored under the veiled names does not matter to the computation. -/
def Blind (veiled : List String) (a : FlowM α) : Prop :=
  ∀ s s', SameBut veiled s s' → (a.run s').1 = (a.run s).1 ∧ SameBut veiled (a.run s).2 (a.run s').2

namespace Blind

theorem pure (x : α) : Blind veiled (Pure.pure x : FlowM α) := fun _ _ h => ⟨rfl, h⟩

theorem bind {a : FlowM α} {k : α → FlowM β} (ha : Blind veiled a)
    (hk : ∀ x, Blind veiled (k x)) : Blind veiled (a >>= k) := by
  intro s s' h
  obtain ⟨hr, hs⟩ := ha s s' h
  rw [StateT.run_bind, StateT.run_bind]
  show ((k (a.run s').1).run _).1 = ((k (a.run s).1).run _).1 ∧ SameBut veiled
    ((k (a.run s).1).run _).2 ((k (a.run s').1).run _).2
  rw [hr]
  exact hk _ _ _ hs

/-- A computation that depends on the flow. -/
theorem read {k : Flow → FlowM α} (hsame : ∀ s s', SameBut veiled s s' → k s' = k s)
    (hk : ∀ s, Blind veiled (k s)) : Blind veiled (get >>= k) := by
  intro s s' h
  show ((k s').run s').1 = ((k s).run s).1 ∧ SameBut veiled ((k s).run s).2 ((k s').run s').2
  rw [hsame s s' h]
  exact hk s s s' h

/-- A change that no name takes part in. -/
theorem change {a : FlowM α} (ha : ∀ s names, a.run { s with names } =
    ((a.run s).1, { (a.run s).2 with names })) (hkeeps : ∀ s, (a.run s).2.names = s.names) :
    Blind veiled a := by
  rintro s ⟨stack, world, names⟩ ⟨hstack, hworld, hnames⟩
  cases hstack
  cases hworld
  rw [ha s names]
  exact ⟨rfl, rfl, rfl, fun n hn => (hnames n hn).trans (by rw [hkeeps])⟩

end Blind

theorem blind_bind (name : Option String) (v : Value) : Blind veiled (Flow.bind name v) := by
  cases name with
  | none => exact .pure ()
  | some m =>
      intro s s' h
      refine ⟨rfl, h.stack, h.world, fun n hn => ?_⟩
      show Table.get? (s'.names.set m v) n = Table.get? (s.names.set m v) n
      rw [Table.get?_set, Table.get?_set, h.names n hn]

theorem blind_enter : Blind veiled Flow.enter := .change (fun _ _ => rfl) fun _ => rfl

theorem blind_finish : Blind veiled Flow.finish := by
  refine .change ?_ ?_
  · rintro ⟨stack, world, names⟩ names'
    cases stack <;> rfl
  · rintro ⟨stack, world, names⟩
    cases stack <;> rfl

theorem blind_leave (c : ContextId) (failed : Bool) : Blind veiled (Flow.leave c failed) := by
  refine .change (fun s names => ?_) fun s => ?_
  · rw [run_leave, run_leave]
    have hstack : ({ s with names } : Flow).stack = s.stack := rfl
    rw [hstack]
    cases s.stack.leave c <;> rfl
  · exact names_leave c failed s

theorem blind_depth : Blind veiled Flow.depth :=
  .read (fun s s' h => by rw [h.stack]) fun _ => .pure _

theorem blind_refusal {on : Option String} (hon : ∀ n ∈ on.toList, n ∉ veiled) :
    Blind veiled (Flow.refusal on) := by
  cases on with
  | none => exact .pure none
  | some n =>
      refine .read (fun s s' h => ?_) fun s => ?_
      · rw [h.names n (hon n List.mem_cons_self)]
      · cases s.names.get? n <;> exact .pure _

theorem blind_blockContext {context : Option String} (hc : ∀ n ∈ context.toList, n ∉ veiled) :
    Blind veiled (Flow.blockContext context) := by
  cases context with
  | none => exact blind_enter.bind fun _ => .pure _
  | some n =>
      refine .read (fun s s' h => ?_) fun s => ?_
      · rw [h.names n (hc n List.mem_cons_self)]
      · cases s.names.get? n <;> exact .pure _

theorem blind_call {c : Call} (bind : Option String) (hc : ∀ n ∈ c.reads, n ∉ veiled) :
    Blind veiled (Flow.call c bind) := by
  have hact : Blind veiled (Flow.act fun active names => Act.perform active names c) := by
    intro s s' h
    show ((Act.perform s'.stack s'.names c).run s'.world).1 =
        ((Act.perform s.stack s.names c).run s.world).1 ∧
      SameBut veiled { s with world := ((Act.perform s.stack s.names c).run s.world).2 }
        { s' with world := ((Act.perform s'.stack s'.names c).run s'.world).2 }
    -- the names that the call reads stand for the same, so it is the same action
    rw [Act.perform_congr s'.stack c (h.agree hc), h.stack, h.world]
    exact ⟨rfl, rfl, rfl, h.names⟩
  refine hact.bind fun r => ?_
  cases r with
  | error f => exact .pure _
  | ok answer =>
      exact (blind_bind bind _).bind fun _ => .read (fun s s' h => by rw [h.world]) fun _ => .pure _

theorem blind_entryOf (bind : Option String) (failure : Option Failure) :
    Blind veiled (entryOf bind failure) := by
  cases failure with
  | some f => exact .pure _
  | none => exact (blind_bind bind _).bind fun _ => .pure _

/-- A block on another stack. -/
theorem Blind.onStack {body : FlowM α} (f : Stack → Stack) (h : Blind veiled body) :
    Blind veiled (Flow.onStack f body) := by
  intro s s' hs
  obtain ⟨hr, hend⟩ := h { s with stack := f s.stack } { s' with stack := f s'.stack }
    ⟨congrArg f hs.stack, hs.world, hs.names⟩
  exact ⟨hr, hs.stack, hend.world, hend.names⟩

theorem Blind.logging {body : FlowM α} (h : Blind veiled body) :
    Blind veiled (Flow.logging body) :=
  .read (fun s s' hs => by rw [hs.world]) fun _ => h.bind fun _ =>
    .read (fun s s' hs => by rw [hs.world]) fun _ => .pure _

end Flow

open DotDoc.Flow (Blind)

variable {veiled : List String}

mutual

/-- **What is stored under names that a step does not read does not matter to it.** -/
theorem Step.run_blind : ∀ s : Step, (∀ n ∈ s.reads, n ∉ veiled) → Blind veiled s.run
  | .call c bind, h => Flow.blind_call bind h
  | .enter on bind, h => by
    refine (Flow.blind_refusal h).bind fun refused => ?_
    cases refused with
    | some f => exact .pure _
    | none =>
        exact Flow.blind_enter.bind fun c => (Flow.blind_bind bind _).bind fun _ =>
          .read (fun s s' hs => by rw [hs.world]) fun _ => .pure _
  | .finish on bind, h => by
    refine (Flow.blind_refusal h).bind fun refused => ?_
    cases refused with
    | some f => exact .pure _
    | none => exact Flow.blind_finish.bind fun failure => Flow.blind_entryOf bind failure
  | .leave on failed bind, h => by
    refine .read (fun s s' hs => ?_) fun s => ?_
    · rw [hs.names on (h on List.mem_cons_self)]
    · cases s.names.get? on with
      | none => exact .pure _
      | some v =>
          cases v with
          | context c =>
              exact (Flow.blind_leave c failed).bind fun failure => Flow.blind_entryOf bind failure
          | _ => exact .pure _
  | .within context bind interrupt body, h => by
    obtain ⟨hcontext, hbody⟩ := List.forall_mem_append.1 h
    refine (Flow.blind_blockContext hcontext).bind fun begun => ?_
    cases begun with
    | error f => exact .pure _
    | ok v =>
        refine (Flow.blind_bind bind v).bind fun _ => ?_
        cases v with
        | context c =>
            refine .bind ?_ fun r => Flow.blind_depth.bind fun _ => .pure _
            exact (blind_runAll body hbody).bind fun r =>
              (Flow.blind_leave c interrupt).bind fun _ => .pure _
        | _ => exact Flow.blind_depth.bind fun _ => .pure _
  | .copied body, h =>
    ((blind_runAll body h).onStack id).bind fun _ => Flow.blind_depth.bind fun _ => .pure _
  | .apart body, h =>
    ((blind_runAll body h).onStack _).bind fun _ => Flow.blind_depth.bind fun _ => .pure _
  | .logged body, h => (blind_runAll body h).logging.bind fun _ => .pure _

theorem blind_runAll : ∀ steps : List Step, (∀ n ∈ readsAll steps, n ∉ veiled) →
    Blind veiled (runAll steps)
  | [], _ => .pure _
  | s :: rest, h => by
    obtain ⟨hs, hrest⟩ := List.forall_mem_append.1 h
    exact (s.run_blind hs).bind fun _ => (blind_runAll rest hrest).bind fun _ => .pure _

end

end DotDoc
