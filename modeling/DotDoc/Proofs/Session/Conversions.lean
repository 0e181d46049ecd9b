import DotDoc.Proofs.Dot.Faults
import DotDoc.Proofs.Session.Constructions

set_option autoImplicit false

/-!
# What entries become

The key and the value of an attribute entry become a text and an attribute value, and the contexts
alone determine which, or that it fails (`AttrTable.converted`). So entries in a row are converted
each on its own, up to the first one that fails (`AttrTable.run_convertEntries`), and what is given
for attributes becomes a table in the same way (`AttrTable.run_ofGiven`).

A map has keys no two of which are the same (`Value.IsMap`). Every map that an argument describes
has (`isMap_evalEntries`).
-/

namespace DotDoc

open Act (Quiet)

variable {α β : Type} {w : World} {cs : Contexts}

/-! ## Conversion -/

section Except

variable {ε : Type} {f : α → Except ε β} {xs : List α} {ys : List β}

theorem mapM_of_forall₂ (h : List.Forall₂ (fun x y => f x = .ok y) xs ys) :
    xs.mapM f = .ok ys := by
  induction h with
  | nil => rfl
  | cons hx _ ih =>
      rw [List.mapM_cons, hx, ih]
      rfl

theorem mapM_eq_map {g : α → β} (h : ∀ x ∈ xs, f x = .ok (g x)) : xs.mapM f = .ok (xs.map g) :=
  mapM_of_forall₂ (List.forall₂_map_right_iff.2 (List.forall₂_same.2 h))

/-- Items that are converted one after the other are converted by a function. -/
theorem exists_map_of_mapM [Nonempty β] (h : xs.mapM f = .ok ys) :
    ∃ g : α → β, (∀ x ∈ xs, f x = .ok (g x)) ∧ ys = xs.map g := by
  have hall : ∀ x ∈ xs, ∃ y, f x = .ok y := by
    intro x hx
    obtain ⟨y, -, hy⟩ := exists_of_forall₂_right (forall₂_of_mapM h).flip hx
    exact ⟨y, hy⟩
  choose! g hg using hall
  exact ⟨g, hg, Except.ok.inj (h.symm.trans (mapM_eq_map hg))⟩

/-- Where one item cannot be converted, all fail. -/
theorem exists_error_of_mapM {x : α} {e : ε} (hx : x ∈ xs) (hf : f x = .error e) :
    ∃ e, xs.mapM f = .error e := by
  cases h : xs.mapM f with
  | error e => exact ⟨e, rfl⟩
  | ok ys =>
      obtain ⟨y, -, hy⟩ := exists_of_forall₂_right (forall₂_of_mapM h).flip hx
      rw [hf] at hy
      cases hy

end Except

/-- Quiet actions that the contexts determine do not notice each other. -/
theorem Act.run_mapM {f : α → Act β} {g : Contexts → α → Except Failure β}
    (hquiet : ∀ x, Quiet (f x)) (hf : ∀ x w, ((f x).run w).1 = g w.contexts x) (xs : List α)
    (w : World) : ((xs.mapM f).run w).1 = xs.mapM (g w.contexts) := by
  induction xs generalizing w with
  | nil => rfl
  | cons x rest ih =>
      rw [List.mapM_cons, List.mapM_cons, run_bind, ← hf x w]
      cases hx : ((f x).run w).1 with
      | error e => rfl
      | ok y =>
          have hrest := ih ((f x).run w).2
          rw [hquiet x w] at hrest
          show ((rest.mapM f >>= fun ys => pure (y :: ys)).run ((f x).run w).2).1 =
            rest.mapM (g w.contexts) >>= fun ys => pure (y :: ys)
          rw [run_bind, ← hrest]
          cases ((rest.mapM f).run ((f x).run w).2).1 <;> rfl

namespace AttrTable

theorem determined_convertEntry (key value : Value) :
    Act.Determined (convertEntry key value) := by
  refine (Value.determined_toAttr value).bind (Value.quiet_toAttr value) fun a => ?_
  exact (Value.determined_toText key).bind (Value.quiet_toText key) fun k => .pure (k, a)

/-- What a key and a value become where the contexts hold this. -/
def converted (cs : Contexts) (e : Value × Value) : Except Failure (String × AttrValue) :=
  ((convertEntry e.1 e.2).run ⟨0, cs, []⟩).1

theorem run_convertEntry (e : Value × Value) (w : World) :
    ((convertEntry e.1 e.2).run w).1 = converted w.contexts e :=
  determined_convertEntry e.1 e.2 w ⟨0, w.contexts, []⟩ rfl

/-- **Entries are converted each on its own**, up to the first one that fails. -/
theorem run_convertEntries (es : List (Value × Value)) (w : World) :
    ((convertEntries es).run w).1 = es.mapM (converted w.contexts) := by
  rw [convertEntries_eq]
  exact Act.run_mapM (fun e => quiet_convertEntry e.1 e.2) run_convertEntry es w

/-- The entries of a table become what they are. -/
theorem converted_entryValues (cs : Contexts) (e : String × AttrValue) :
    converted cs (entryValues e) = .ok e := by
  rw [converted, convertEntry_entryValues]
  rfl

/-- What the parts of an entry become: texts stay keys, truth values are spelled in lower case, and
labels stay labels. -/
theorem converted_eq_ok {e : Value × Value} {c : String × AttrValue}
    (h : converted cs e = .ok c) :
    (∀ k, e.1 = .text k → c.1 = k) ∧ (∀ b, e.2 = .bool b → c.2 = .ofBool b) ∧
      ∀ l, e.2 = .label l → c.2 = .label l := by
  obtain ⟨a, ha, h⟩ := Act.run_bind_eq_ok h
  obtain ⟨k, hk, h⟩ := Act.run_bind_eq_ok h
  cases h
  refine ⟨fun s hs => ?_, fun b hb => ?_, fun l hl => ?_⟩
  · rw [hs] at hk
    cases hk
    rfl
  · rw [hb] at ha
    cases ha
    rfl
  · rw [hl] at ha
    cases ha
    rfl

end AttrTable

/-! ## What is given for attributes -/

/-- The entries that are given where attributes are expected, if a map or a table is given, or
nothing. -/
def Value.entries? : Value → Option (List (Value × Value))
  | .none => some []
  | .map _ es => some es
  | .table t => some t.toValues
  | _ => Option.none

/-- Arguments given by name as entries. -/
def namedEntries (named : List (String × Value)) : List (Value × Value) :=
  named.map fun e => (.text e.1, e.2)

namespace AttrTable

theorem toValues_eq (t : AttrTable) : t.toValues = t.entries.map entryValues := rfl

theorem mapM_converted_toValues (cs : Contexts) (t : AttrTable) :
    t.toValues.mapM (converted cs) = .ok t.entries := by
  have hrun := run_convertEntries t.toValues ⟨0, cs, []⟩
  rw [toValues_eq, convertEntries_entryValues] at hrun
  exact hrun.symm

theorem run_givenEntries {items : Value} {es : List (Value × Value)}
    (hitems : items.entries? = some es) (w : World) :
    ((givenEntries items).run w).1 = es.mapM (converted w.contexts) := by
  cases items with
  | none =>
      cases hitems
      rfl
  | map i entries =>
      cases hitems
      cases es with
      | nil => rfl
      | cons e rest => exact run_convertEntries (e :: rest) w
  | table t =>
      cases hitems
      rw [mapM_converted_toValues]
      unfold givenEntries
      split
      · -- a table that does not count as given has no entries
        rename_i hgiven
        obtain ⟨entries, nodup⟩ := t
        cases entries with
        | nil => rfl
        | cons e rest => cases hgiven
      · rfl
  | _ => cases hitems

/-- **What is given for attributes becomes a table entry by entry.** -/
theorem run_ofGiven {items : Value} {es : List (Value × Value)}
    (hitems : items.entries? = some es) (named : List (String × Value)) (w : World) :
    ((ofGiven items named).run w).1 =
      ((es ++ namedEntries named).mapM (converted w.contexts)).map Table.ofList := by
  unfold ofGiven
  rw [Act.run_bind, run_givenEntries hitems, List.mapM_append]
  cases es.mapM (converted w.contexts) with
  | error e => rfl
  | ok first =>
      show ((convertEntries (namedEntries named) >>= fun second =>
        pure (Table.ofList (first ++ second))).run _).1 = _
      rw [Act.run_bind, run_convertEntries, quiet_givenEntries items w]
      cases (namedEntries named).mapM (converted w.contexts) <;> rfl

end AttrTable

/-! ## Maps -/

namespace Value

/-- The entries of a map: all keys can be keys, and no two are the same. -/
structure IsMap (es : List (Value × Value)) : Prop where
  keys : ∀ e ∈ es, e.1.isKey = true
  distinct : es.Pairwise fun e e' => ¬ same e.1 e'.1 = true

instance (es : List (Value × Value)) : Decidable (IsMap es) :=
  decidable_of_iff ((∀ e ∈ es, e.1.isKey = true) ∧
      es.Pairwise fun e e' => ¬ same e.1 e'.1 = true)
    ⟨fun h => ⟨h.1, h.2⟩, fun h => ⟨h.keys, h.distinct⟩⟩

/-- An entry with one of these keys is known. -/
def known (es : List (Value × Value)) (e : Value × Value) : Bool :=
  es.any fun e' => same e'.1 e.1

theorem setEntry_of_not_known {k v : Value} {es : List (Value × Value)}
    (h : known es (k, v) = false) : setEntry k v es = es ++ [(k, v)] := by
  induction es with
  | nil => rfl
  | cons e rest ih =>
      obtain ⟨he, hrest⟩ := Bool.or_eq_false_iff.1 h
      rw [setEntry, if_neg (by simpa using he), ih hrest, List.cons_append]

/-- An entry whose key is known is set among the entries in front. -/
theorem setEntry_append {k v : Value} {es : List (Value × Value)} (h : known es (k, v) = true)
    (more : List (Value × Value)) : setEntry k v (es ++ more) = setEntry k v es ++ more := by
  induction es with
  | nil => cases h
  | cons e rest ih =>
      rw [List.cons_append, setEntry, setEntry]
      by_cases he : same e.1 k = true
      · rw [if_pos he, if_pos he, List.cons_append]
      · have hrest : known rest (k, v) = true := by
          rcases Bool.or_eq_true_iff.1 h with h | h
          · exact absurd h he
          · exact h
        rw [if_neg he, if_neg he, ih hrest, List.cons_append]

/-- A known key stays where it is. -/
theorem map_fst_setEntry {k v : Value} {es : List (Value × Value)} (h : known es (k, v) = true) :
    (setEntry k v es).map Prod.fst = es.map Prod.fst := by
  induction es with
  | nil => cases h
  | cons e rest ih =>
      rw [setEntry]
      by_cases he : same e.1 k = true
      · rw [if_pos he]
        rfl
      · have hrest : known rest (k, v) = true := by
          rcases Bool.or_eq_true_iff.1 h with h | h
          · exact absurd h he
          · exact h
        rw [if_neg he, List.map_cons, ih hrest, List.map_cons]

/-- To be known and to be a map is a matter of keys. -/
theorem known_congr {es es' : List (Value × Value)} (h : es.map Prod.fst = es'.map Prod.fst) :
    known es = known es' := by
  have hany : ∀ (xs : List (Value × Value)) (e : Value × Value),
      known xs e = (xs.map Prod.fst).any fun k => same k e.1 := by
    intro xs e
    rw [known, List.any_map]
    rfl
  funext e
  rw [hany, hany, h]

theorem isMap_iff {es : List (Value × Value)} :
    IsMap es ↔ (∀ k ∈ es.map Prod.fst, k.isKey = true) ∧
      (es.map Prod.fst).Pairwise fun k k' => ¬ same k k' = true := by
  rw [List.pairwise_map, List.forall_mem_map]
  exact ⟨fun h => ⟨h.keys, h.distinct⟩, fun h => ⟨h.1, h.2⟩⟩

/-- A map stays one when an entry is set in it. -/
theorem IsMap.setEntry {k v : Value} {es : List (Value × Value)} (h : IsMap es)
    (hk : k.isKey = true) : IsMap (setEntry k v es) := by
  cases hknown : known es (k, v) with
  | true => rwa [isMap_iff, map_fst_setEntry hknown, ← isMap_iff]
  | false =>
      rw [setEntry_of_not_known hknown]
      refine ⟨fun e he => ?_, List.pairwise_append.2 ⟨h.distinct, List.pairwise_singleton _ _, ?_⟩⟩
      · rcases List.mem_append.1 he with he | he
        · exact h.keys e he
        · exact List.mem_singleton.1 he ▸ hk
      · intro e he e' he'
        rw [List.mem_singleton.1 he']
        exact List.any_eq_false.1 hknown e he

end Value

/-- **The entries that an argument describes are those of a map.** -/
theorem isMap_evalEntries {names : Names} {entries : List (Expr × Expr)}
    {es : List (Value × Value)} (h : ((evalEntries names [] entries).run w).1 = .ok es) :
    Value.IsMap es := by
  have hall : ∀ {done : List (Value × Value)} {w : World}, Value.IsMap done →
      ((evalEntries names done entries).run w).1 = .ok es → Value.IsMap es := by
    clear h
    induction entries with
    | nil =>
        intro done w hdone hrun
        cases hrun
        exact hdone
    | cons e rest ih =>
        intro done w hdone hrun
        obtain ⟨key, -, hrun⟩ := Act.run_bind_eq_ok hrun
        obtain ⟨v, -, hrun⟩ := Act.run_bind_eq_ok hrun
        by_cases hkey : key.isKey = true
        · rw [if_pos hkey] at hrun
          exact ih (hdone.setEntry hkey) hrun
        · rw [if_neg hkey] at hrun
          cases hrun
  exact hall ⟨fun _ he => absurd he List.not_mem_nil, .nil⟩ h

end DotDoc
