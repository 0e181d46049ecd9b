import DotDoc.Proofs.Session.Quiet

set_option autoImplicit false

/-!
# What calls do to contexts

Two things happen to contexts: they are made, and entries are set in one of their tables. Which of
them a call does is told by the call and what its arguments stand for, without a look at the tables
(`Call.happenings`). Carrying out the happenings in the order of time, from an empty table on, gives
what a table of a context holds (`History.table`).

A call changes the tables of contexts as its happenings say, and where it fails nothing happens
(`Act.perform_does`).
-/

namespace DotDoc

variable {α β : Type}

/-! ## Setting attributes -/

/-- A text counts as the same as nothing else. -/
theorem Value.same_text_iff {s : String} {v : Value} :
    Value.same (.text s) v = true ↔ v = .text s := by
  have hequal : Value.equal (.text s) v = Value.identical (.text s) v := by
    unfold Value.equal
    cases v <;> rfl
  rw [Value.same, hequal, Bool.or_self]
  cases v with
  | text s' =>
      show (s == s') = true ↔ _
      rw [beq_iff_eq, Value.text.injEq, eq_comm]
  | _ => simp [Value.identical, Value.identity?]

namespace AttrTable

/-- An attribute entry from a key and a value, of which the value is converted first. -/
def convertEntry (key value : Value) : Act (String × AttrValue) := do
  let a ← value.toAttr
  return (← key.toText, a)

/-- The entry that is given for one attribute. -/
def givenEntry (key value : Value) : Act (List (String × AttrValue)) := do
  if key.isKey then return [← convertEntry key value] else throw .unusableKey

@[grind .] theorem quiet_convertEntry (key value : Value) : (convertEntry key value).Quiet := by
  unfold convertEntry
  grind

@[grind .] theorem quiet_givenEntry (key value : Value) : (givenEntry key value).Quiet := by
  unfold givenEntry
  grind

theorem convertEntries_eq (es : List (Value × Value)) :
    convertEntries es = es.mapM fun e => convertEntry e.1 e.2 := rfl

/-- The entry of a table as values. -/
def entryValues (e : String × AttrValue) : Value × Value := (.text e.1, .ofAttr e.2)

theorem convertEntry_entryValues (e : String × AttrValue) :
    convertEntry (entryValues e).1 (entryValues e).2 = pure e := by
  obtain ⟨k, a⟩ := e
  cases a <;> rfl

theorem convertEntries_entryValues (es : List (String × AttrValue)) :
    convertEntries (es.map entryValues) = pure es := by
  rw [convertEntries_eq]
  induction es with
  | nil => rfl
  | cons e rest ih => rw [List.map_cons, List.mapM_cons, convertEntry_entryValues, pure_bind, ih,
      pure_bind]

/-- A text key is set where it stands. -/
theorem convertEntries_setEntry_text (k : String) (value : Value)
    (es : List (String × AttrValue)) :
    convertEntries (Value.setEntry (.text k) value (es.map entryValues)) =
      (do return Entries.set k (← value.toAttr) es) := by
  have hpure : (Value.text k).toText = pure k := rfl
  induction es with
  | nil => simp [convertEntries, Value.setEntry, Entries.set, hpure]
  | cons e rest ih =>
      rw [List.map_cons, Value.setEntry]
      by_cases hk : e.1 = k
      · -- the value is converted in the place of the old one, and the rest is as it was
        have hsame : Value.same (entryValues e).1 (.text k) = true :=
          Value.same_text_iff.2 (by rw [hk])
        have hrest := convertEntries_entryValues rest
        rw [convertEntries_eq] at hrest ⊢
        rw [hsame, if_pos rfl, List.mapM_cons, hrest]
        simp [convertEntry, Entries.set, hk, entryValues, hpure]
      · have hsame : Value.same (entryValues e).1 (.text k) = false := by
          rw [Bool.eq_false_iff, entryValues, Ne, Value.same_text_iff, Value.text.injEq]
          exact fun h => hk h.symm
        rw [hsame]
        have hhead := convertEntry_entryValues e
        rw [convertEntries_eq] at ih ⊢
        simp [hhead, ih, Entries.set, hk]

theorem setEntry_of_ne_text {key value : Value} (hkey : ∀ k, key ≠ .text k)
    (es : List (String × AttrValue)) :
    Value.setEntry key value (es.map entryValues) = es.map entryValues ++ [(key, value)] := by
  induction es with
  | nil => rfl
  | cons e rest ih =>
      have hne : Value.same (entryValues e).1 key = false := by
        rw [Bool.eq_false_iff, entryValues, Ne, Value.same_text_iff]
        exact hkey e.1
      rw [List.map_cons, Value.setEntry, hne, ih]
      rfl

/-- **To give an attribute a value is to set the one entry that is given.** -/
theorem withAttr_eq (t : AttrTable) (key value : Value) :
    t.withAttr key value = (do return Table.setAll t (← givenEntry key value)) := by
  unfold withAttr givenEntry
  split
  · show (do return Table.ofList (← convertEntries
      (Value.setEntry key value (t.entries.map entryValues)))) = _
    -- the keys of a table are texts, so any other key comes as a new one at the end
    by_cases hkey : ∃ k, key = .text k
    · obtain ⟨k, rfl⟩ := hkey
      have hpure : (Value.text k).toText = pure k := rfl
      have hset : ∀ a, Table.ofList (Entries.set k a t.entries) = t.set k a := fun a =>
        Table.ofList_entries (t.set k a)
      rw [convertEntries_setEntry_text]
      simp [convertEntry, hpure, hset]
    · rw [setEntry_of_ne_text (fun k h => hkey ⟨k, h⟩), convertEntries_eq, List.mapM_append,
        ← convertEntries_eq, convertEntries_entryValues]
      have hlast : ∀ e, Table.ofList (t.entries ++ [e]) = t.set e.1 e.2 := by
        intro e
        rw [Table.ofList, Table.setAll_append, ← Table.ofList, Table.ofList_entries]
        rfl
      simp [hlast]
  · rfl

end AttrTable

/-! ## What happens to contexts -/

/-- A context is made, or entries are set in one of its tables. -/
inductive Happening where
  | made (c : ContextId)
  | updated (c : ContextId) (slot : ElementKind) (entries : List (String × AttrValue))
deriving DecidableEq

/-- What has happened to contexts, in the order of time. -/
abbrev History := List Happening

/-- A table of a context after one more happening: empty where the context is made, with the entries
set where it is updated, and as it was where something else happens. -/
def Happening.replay (c : ContextId) (slot : ElementKind) (t : AttrTable) : Happening → AttrTable
  | made d => if d = c then ∅ else t
  | updated d kind entries => if d = c ∧ kind = slot then t.setAll entries else t

/-- The context that is made, if one is. -/
def Happening.made? : Happening → Option ContextId
  | made c => some c
  | updated _ _ _ => none

namespace History

/-- The contexts that were made, in the order of time. -/
def made (h : History) : List ContextId := h.filterMap Happening.made?

/-- A table of a context after more has happened. -/
def replay (h : History) (c : ContextId) (slot : ElementKind) (t : AttrTable) : AttrTable :=
  h.foldl (Happening.replay c slot) t

theorem replay_append (h h' : History) (c : ContextId) (slot : ElementKind) (t : AttrTable) :
    (h ++ h' : History).replay c slot t = h'.replay c slot (h.replay c slot t) :=
  List.foldl_append

/-- What results for a table of a context if its updates are carried out again, from the empty table
and in the order of time. -/
def table (h : History) (c : ContextId) (slot : ElementKind) : AttrTable := h.replay c slot ∅

/-- The defaults where the given contexts are active: none without any, and else what was set in the
matching table of the innermost one. -/
def defaults (h : History) (active : Stack) (slot : ElementKind) : AttrTable :=
  match active with
  | [] => ∅
  | c :: _ => h.table c slot

end History

/-- What an update of attributes does to contexts: nothing, unless it is by a view of a context. -/
def Value.update (owner : Value) (entries : Act (List (String × AttrValue))) : Act History :=
  match owner with
  | .contextView _ c slot => do return [.updated c slot (← entries)]
  | _ => return []

/-- What a call does to contexts if it does not fail. Besides making a context only an update of
attributes by a view of a context does anything to them: the update that gives one attribute a
value, that of several attributes, and the latter without attributes. -/
def Call.happenings (names : Names) : Call → Act History
  | .newContext => do return [.made (← Act.ident)]
  | .attr on key v => do
    let owner ← names.readFor Value.ownsAttributes on
    let key ← key.eval names
    let v ← v.eval names
    owner.update (AttrTable.givenEntry key v)
  | .attrs on items more => do
    let owner ← names.readFor Value.ownsAttributes on
    let items ← items.mapM (Expr.eval names)
    let (items, more) ← splitArgument "attrs" items (← evalNamed names more)
    refuseNames ["self", "items"] more
    owner.update (do return (← AttrTable.ofGiven (items.getD .none) more).entries)
  | .field on .attrs _ => do
    let owner ← names.read on
    owner.update (do return (← AttrTable.ofGiven .none []).entries)
  | _ => return []

/-- What has happened if the outcome is this one; a failure comes before anything happens. -/
def occurred : Except Failure History → History
  | .ok h => h
  | .error _ => []

/-! ## The tables of contexts -/

namespace Contexts

/-- One of the tables that a context holds. -/
def table (cs : Contexts) (c : ContextId) (slot : ElementKind) : AttrTable :=
  (cs.defaults c).get slot

theorem table_set (cs : Contexts) (c d : ContextId) (new : Defaults) (slot : ElementKind) :
    table (cs.set d new) c slot = if c = d then new.get slot else table cs c slot := by
  rw [table, Contexts.defaults, Table.get?_set]
  split <;> rfl

/-- A new context holds nothing. -/
theorem table_set_none (cs : Contexts) (c d : ContextId) (slot : ElementKind) :
    table (cs.set d .none) c slot = (Happening.made d).replay c slot (cs.table c slot) := by
  rw [table_set]
  show _ = if d = c then ∅ else table cs c slot
  by_cases hd : c = d
  · rw [if_pos hd, if_pos hd.symm]
    cases slot <;> rfl
  · rw [if_neg hd, if_neg (Ne.symm hd)]

/-- Entries are set in one table of one context. -/
theorem table_set_setAll (cs : Contexts) (c d : ContextId) (slot kind : ElementKind)
    (entries : List (String × AttrValue)) :
    table (cs.set d ((cs.defaults d).set (((cs.defaults d).get kind).setAll entries) kind)) c slot =
      (Happening.updated d kind entries).replay c slot (cs.table c slot) := by
  rw [table_set]
  show _ = if d = c ∧ kind = slot then (cs.table c slot).setAll entries else cs.table c slot
  by_cases hd : c = d
  · subst hd
    rw [if_pos rfl, Defaults.get_set]
    by_cases hk : slot = kind
    · subst hk
      rw [if_pos rfl, if_pos ⟨rfl, rfl⟩]
      rfl
    · rw [if_neg hk, if_neg fun both => hk both.2.symm]
      rfl
  · rw [if_neg hd, if_neg fun both => hd both.1.symm]

end Contexts

namespace Act

/-! ## Actions and what they do to contexts -/

/-- The action does to contexts what the second one says, and nothing else. -/
structure Does (a : Act α) (happenings : Act History) : Prop where
  tables : ∀ w c slot, (a.run w).2.contexts.table c slot =
    (occurred (happenings.run w).1).replay c slot (w.contexts.table c slot)
  failed : ∀ w e, (a.run w).1 = .error e → occurred (happenings.run w).1 = []

theorem Quiet.does {a : Act α} (ha : Quiet a) : Does a (Pure.pure []) where
  tables w c slot := by
    rw [ha w]
    rfl
  failed _ _ _ := rfl

/-- What comes in front and does nothing to contexts does not count, if it fails either. -/
theorem Does.after {a : Act α} {f : α → Act β} {g : α → Act History} (ha : Quiet a)
    (hf : ∀ x, Does (f x) (g x)) : Does (a >>= f) (a >>= g) where
  tables w c slot := by
    rw [run_bind, run_bind, ← ha w]
    cases (a.run w).1 with
    | error e => rfl
    | ok x => exact (hf x).tables (a.run w).2 c slot
  failed w e := by
    rw [run_bind, run_bind]
    cases (a.run w).1 with
    | error e => exact fun _ => rfl
    | ok x => exact (hf x).failed (a.run w).2 e

theorem Does.map {a : Act α} {g : Act History} (ha : Does a g) (f : α → β) :
    Does (do return f (← a)) g where
  tables w c slot := by
    have htables := ha.tables w c slot
    rw [run_bind]
    cases hr : (a.run w).1 with
    | error e => exact htables
    | ok x => exact htables
  failed w e he := by
    rw [run_bind] at he
    cases hr : (a.run w).1 with
    | error e' => exact ha.failed w e' hr
    | ok x =>
        rw [hr] at he
        cases he

theorem does_newContext : Does newContext (do return [.made (← ident)]) where
  tables w c slot := Contexts.table_set_none w.contexts c w.nextIdent slot
  failed w e he := by cases he

/-- An update by a view of a context sets the entries that are given. -/
theorem does_changeContext (i : Nat) (d : ContextId) (kind : ElementKind)
    {f : AttrTable → Act AttrTable} {g : Act (List (String × AttrValue))} (hg : Quiet g)
    (hf : ∀ t, f t = (do return Table.setAll t (← g))) :
    Does (changeAttributes (.contextView i d kind) f) (Value.update (.contextView i d kind) g) := by
  -- both sides carry out what is given first, and then set it or tell of it
  have hrun : ∀ w : World, (changeAttributes (.contextView i d kind) f).run w = (g >>= fun new => do
      setDefaults d kind (((w.contexts.defaults d).get kind).setAll new)
      return Value.context d).run w := by
    intro w
    show (f ((w.contexts.defaults d).get kind) >>= fun attrs => do
      setDefaults d kind attrs
      return Value.context d).run w = _
    rw [hf, bind_assoc]
    rfl
  have hupdate : Value.update (.contextView i d kind) g =
      g >>= fun new => Pure.pure [.updated d kind new] := rfl
  constructor
  · intro w c slot
    have hcontexts := hg w
    rw [hrun, hupdate, run_bind, run_bind]
    cases (g.run w).1 with
    | error e =>
        show (g.run w).2.contexts.table c slot = _
        rw [hcontexts]
        rfl
    | ok new =>
        refine Eq.trans ?_ (Contexts.table_set_setAll w.contexts c d slot kind new)
        show Contexts.table ((g.run w).2.contexts.set d
          (((g.run w).2.contexts.defaults d).set _ kind)) c slot = _
        rw [hcontexts]
  · intro w e he
    rw [hrun, run_bind] at he
    rw [hupdate, run_bind]
    cases hr : (g.run w).1 with
    | error e' => rfl
    | ok new =>
        rw [hr] at he
        cases he

theorem does_changeAttributes (v : Value) {f : AttrTable → Act AttrTable}
    {g : Act (List (String × AttrValue))} (hg : Quiet g)
    (hf : ∀ t, f t = (do return Table.setAll t (← g))) :
    Does (changeAttributes v f) (v.update g) := by
  by_cases hview : ∃ i c slot, v = .contextView i c slot
  · obtain ⟨i, c, slot, rfl⟩ := hview
    exact does_changeContext i c slot hg hf
  · have hother : v.update g = Pure.pure [] := by
      unfold Value.update
      split
      · exact absurd ⟨_, _, _, rfl⟩ hview
      · rfl
    have hquiet : ∀ t, Quiet (f t) := by
      intro t
      rw [hf]
      exact hg.bind fun es => .pure _
    rw [hother]
    exact (quiet_changeAttributes (fun i c slot h => hview ⟨i, c, slot, h⟩) hquiet).does

theorem does_setAttr (v key value : Value) :
    Does (setAttr v key value) (v.update (AttrTable.givenEntry key value)) :=
  does_changeAttributes v (AttrTable.quiet_givenEntry key value) fun t => t.withAttr_eq key value

theorem does_setAttrs (v items : Value) (named : List (String × Value)) :
    Does (setAttrs v items named)
      (v.update (do return (← AttrTable.ofGiven items named).entries)) := by
  refine does_changeAttributes v ?_ fun t => ?_
  · exact (AttrTable.quiet_ofGiven items named).bind fun own => .pure _
  · rw [bind_assoc]
    rfl

/-- The operation that sets attributes and is not given any. -/
theorem does_field_attrs (v : Value) (active : Stack) :
    Does (v.field active .attrs)
      (v.update (do return (← AttrTable.ofGiven .none []).entries)) := by
  have hfield : v.field active .attrs = setAttrs v .none [] := by
    cases v <;> rfl
  rw [hfield]
  exact does_setAttrs v .none []

/-- **A call does to contexts what its happenings say.** -/
theorem perform_does (active : Stack) (names : Names) (c : Call) :
    Does (perform active names c) (c.happenings names) := by
  cases c with
  | newContext => exact does_newContext.map _
  | attr on key v =>
      refine .after (names.quiet_readFor _ on) fun owner => ?_
      refine .after (key.quiet_eval names) fun key => ?_
      refine .after (v.quiet_eval names) fun v => ?_
      exact (does_setAttr owner key v).map _
  | attrs on items more =>
      refine .after (names.quiet_readFor _ on) fun owner => ?_
      refine .after (quiet_mapM_eval names items) fun items => ?_
      refine .after (quiet_evalNamed names more) fun more => ?_
      refine .after (quiet_splitArgument _ items more) fun given => ?_
      refine .after (quiet_refuseNames _ given.2) fun _ => ?_
      exact (does_setAttrs owner _ given.2).map _
  | field on field index =>
      by_cases hfield : field = .attrs
      · subst hfield
        refine .after (names.quiet_read on) fun v => ?_
        have hmembers : v.members? .attrs = none := by
          cases v <;> rfl
        simp only [hmembers]
        exact (does_field_attrs v active).map _
      · -- looking at a field never touches a context, nor does any other operation by name
        have hnone : Call.happenings names (.field on field index) = Pure.pure [] := by
          cases field <;> first | rfl | exact absurd rfl hfield
        rw [hnone]
        refine Quiet.does ?_
        unfold perform
        have hquiet : ∀ v : Value, Quiet (v.field active field) := fun v =>
          v.quiet_field active fun _ _ _ _ => hfield
        grind
  | _ => 
      refine Quiet.does ?_
      unfold perform
      grind

end Act

end DotDoc
