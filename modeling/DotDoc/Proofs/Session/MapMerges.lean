import DotDoc.Proofs.Graph.Laying
import DotDoc.Proofs.Session.Conversions

set_option autoImplicit false

/-!
# Maps merged into tables

A map is merged into a table as it is, and only the outcome is converted: a text that is a key of
the table takes its place there, and every other entry comes behind the table. Where a map has a
number and the text of that number for keys, the number then counts, whichever comes last in the
map. So a map and the table that is made of it may give different values when they are merged
(`AttrTable.not_all_maps_merge_as_tables`).

They always give the same keys in the same order, and they give different values exactly where the
last of the entries without a text for a key does not count in the map's own table
(`AttrTable.mergeGiven_map`).
-/

namespace DotDoc

variable {w : World} {cs : Contexts}

namespace Value

/-! ## Entries set one after the other -/

/-- Of entries with different keys, the known ones are set where they are known, and the others come
behind in their order. -/
theorem setEntries_append {es : List (Value × Value)} (base more : List (Value × Value))
    (hes : (more ++ es).Pairwise fun e e' => ¬ same e.1 e'.1 = true) :
    setEntries (base ++ more) es =
      setEntries base (es.filter (known base)) ++
        (more ++ es.filter fun e => !known base e) := by
  induction es generalizing base more with
  | nil => simp [setEntries]
  | cons e rest ih =>
      show setEntries (setEntry e.1 e.2 (base ++ more)) rest = _
      cases hknown : known base e with
      | true =>
          have hrest : (more ++ rest).Pairwise fun e e' => ¬ same e.1 e'.1 = true :=
            hes.sublist ((List.sublist_cons_self e rest).append_left more)
          rw [setEntry_append hknown, ih _ _ hrest, known_congr (map_fst_setEntry hknown),
            List.filter_cons_of_pos hknown, List.filter_cons_of_neg (by simp [hknown])]
          rfl
      | false =>
          have hnew : known (base ++ more) e = false := by
            rw [known, List.any_append, Bool.or_eq_false_iff]
            refine ⟨hknown, List.any_eq_false.2 fun e' he' => ?_⟩
            exact (List.pairwise_append.1 hes).2.2 e' he' e List.mem_cons_self
          have hrest : (more ++ [e] ++ rest).Pairwise fun e e' => ¬ same e.1 e'.1 = true := by
            rwa [List.append_assoc, List.singleton_append]
          rw [setEntry_of_not_known hnew, List.append_assoc, ih _ _ hrest,
            List.filter_cons_of_neg (by simp [hknown]), List.filter_cons_of_pos (by simp [hknown]),
            List.append_assoc, List.singleton_append]

/-- The value is a text. -/
def isText : Value → Bool
  | text _ => true
  | _ => false

theorem isText_iff {v : Value} : v.isText = true ↔ ∃ s, v = text s := by
  cases v <;> simp [isText]

theorem mem_setEntry_of_not_same {k v : Value} {x : Value × Value} {es : List (Value × Value)}
    (hx : x ∈ es) (hk : ¬ same x.1 k = true) : x ∈ setEntry k v es := by
  induction es with
  | nil => cases hx
  | cons e rest ih =>
      rw [setEntry]
      rcases List.mem_cons.1 hx with rfl | hx
      · rw [if_neg hk]
        exact List.mem_cons_self
      · split
        · exact List.mem_cons_of_mem _ hx
        · exact List.mem_cons_of_mem _ (ih hx)

theorem mem_setEntry_text {s : String} {v : Value} {es : List (Value × Value)}
    (hes : ∀ e ∈ es, e.1.isText = true) : (text s, v) ∈ setEntry (text s) v es := by
  induction es with
  | nil => exact List.mem_singleton_self _
  | cons e rest ih =>
      obtain ⟨s', hs'⟩ := isText_iff.1 (hes e List.mem_cons_self)
      rw [setEntry]
      split
      · rename_i hsame
        rw [hs', same_text_iff, text.injEq] at hsame
        rw [hs', hsame]
        exact List.mem_cons_self
      · exact List.mem_cons_of_mem _ (ih fun e' he' => hes e' (List.mem_cons_of_mem e he'))

theorem isText_setEntry {k v : Value} (hk : k.isText = true) {es : List (Value × Value)}
    (hes : ∀ e ∈ es, e.1.isText = true) : ∀ e ∈ setEntry k v es, e.1.isText = true := by
  cases hknown : known es (k, v) with
  | true =>
      have hkeys : ∀ s ∈ es.map Prod.fst, s.isText = true := List.forall_mem_map.2 hes
      rw [← map_fst_setEntry hknown] at hkeys
      exact List.forall_mem_map.1 hkeys
  | false =>
      rw [setEntry_of_not_known hknown]
      intro e he
      rcases List.mem_append.1 he with he | he
      · exact hes e he
      · exact List.mem_singleton.1 he ▸ hk

/-- Entries with different texts for keys are found where they were set. -/
theorem mem_setEntries {es base : List (Value × Value)} {x : Value × Value}
    (hbase : ∀ e ∈ base, e.1.isText = true) (hes : ∀ e ∈ es, e.1.isText = true)
    (hdistinct : es.Pairwise fun e e' => ¬ same e.1 e'.1 = true)
    (hx : x ∈ es ∨ x ∈ base ∧ ∀ e ∈ es, ¬ same x.1 e.1 = true) : x ∈ setEntries base es := by
  induction es generalizing base with
  | nil => exact (hx.resolve_left List.not_mem_nil).1
  | cons e rest ih =>
      obtain ⟨he, hrest⟩ := List.forall_mem_cons.1 hes
      obtain ⟨hfirst, hdistinct⟩ := List.pairwise_cons.1 hdistinct
      refine ih (isText_setEntry (v := e.2) he hbase) hrest hdistinct ?_
      rcases hx with hx | ⟨hx, hnew⟩
      · rcases List.mem_cons.1 hx with rfl | hx
        · obtain ⟨s, hs⟩ := isText_iff.1 he
          refine .inr ⟨?_, hfirst⟩
          have hmem := mem_setEntry_text (s := s) (v := x.2) hbase
          rwa [← hs] at hmem
        · exact .inl hx
      · obtain ⟨hnewe, hnew⟩ := List.forall_mem_cons.1 hnew
        exact .inr ⟨mem_setEntry_of_not_same hx hnewe, hnew⟩

end Value

namespace AttrTable

open Value (IsMap known)

theorem known_toValues {t : AttrTable} {e : Value × Value} :
    known t.toValues e = true ↔ ∃ k ∈ t.keys, e.1 = .text k := by
  rw [known, List.any_eq_true, toValues_eq]
  constructor
  · rintro ⟨e', he', hsame⟩
    obtain ⟨c, hc, rfl⟩ := List.mem_map.1 he'
    exact ⟨c.1, List.mem_map_of_mem hc, Value.same_text_iff.1 hsame⟩
  · rintro ⟨k, hk, hkey⟩
    obtain ⟨c, hc, rfl⟩ := List.mem_map.1 hk
    exact ⟨entryValues c, List.mem_map_of_mem hc, Value.same_text_iff.2 hkey⟩

/-- An entry whose key is a text, and what it becomes. -/
def Becomes (cs : Contexts) (e : Value × Value) (c : String × AttrValue) : Prop :=
  e.1 = .text c.1 ∧ converted cs e = .ok c

theorem becomes_toValues (cs : Contexts) (t : AttrTable) :
    List.Forall₂ (Becomes cs) t.toValues t.entries := by
  rw [toValues_eq, List.forall₂_map_left_iff]
  exact List.forall₂_same.2 fun c _ => ⟨rfl, converted_entryValues cs c⟩

/-- To set a text key among entries is to set it among what they become. -/
theorem Becomes.setEntry {es : List (Value × Value)} {out : List (String × AttrValue)}
    (hes : List.Forall₂ (Becomes cs) es out) {e : Value × Value} {c : String × AttrValue}
    (he : Becomes cs e c) :
    List.Forall₂ (Becomes cs) (Value.setEntry e.1 e.2 es) (Entries.set c.1 c.2 out) := by
  induction hes with
  | nil => exact .cons he .nil
  | @cons x y xs ys hx hxs ih =>
      have hsame : Value.same x.1 e.1 = true ↔ y.1 = c.1 := by
        rw [hx.1, Value.same_text_iff, he.1, Value.text.injEq, eq_comm]
      rw [Value.setEntry, Entries.set]
      by_cases hkey : y.1 = c.1
      · rw [if_pos (hsame.2 hkey), if_pos hkey, hx.1, hkey, ← he.1]
        exact .cons he hxs
      · rw [if_neg (mt hsame.1 hkey), if_neg hkey]
        exact .cons hx ih

theorem Becomes.setEntries {g : Value × Value → String × AttrValue}
    {es base : List (Value × Value)} {t : AttrTable}
    (hbase : List.Forall₂ (Becomes cs) base t.entries) (hes : ∀ e ∈ es, Becomes cs e (g e)) :
    List.Forall₂ (Becomes cs) (Value.setEntries base es) (t.setAll (es.map g)).entries := by
  induction es generalizing base t with
  | nil => exact hbase
  | cons e rest ih =>
      refine ih (t := t.set (g e).1 (g e).2) ?_ fun e' he' => hes e' (List.mem_cons_of_mem e he')
      exact Becomes.setEntry hbase (hes e List.mem_cons_self)

/-! ## What a map makes of a table -/

variable {t : AttrTable} {es : List (Value × Value)} {g : Value × Value → String × AttrValue}

/-- The entries that a table takes in: those at its own keys first, and then the others. -/
def taken (t : AttrTable) (es : List (Value × Value)) : List (Value × Value) :=
  es.filter (known t.toValues) ++ es.filter fun e => !known t.toValues e

/-- A map is merged into a table by setting what its entries become, those at keys of the table
first. -/
theorem mapM_setEntries (hes : IsMap es) (hg : ∀ e ∈ es, converted cs e = .ok (g e)) :
    ∃ out, (Value.setEntries t.toValues es).mapM (converted cs) = .ok out ∧
      Table.ofList out = t.setAll ((taken t es).map g) := by
  have hsplit := Value.setEntries_append t.toValues [] hes.distinct
  rw [List.append_nil, List.nil_append] at hsplit
  have hknown : ∀ e ∈ es.filter (known t.toValues), Becomes cs e (g e) := by
    intro e he
    obtain ⟨he, hk⟩ := List.mem_filter.1 he
    obtain ⟨k, -, hk⟩ := known_toValues.1 hk
    exact ⟨by rw [hk, (converted_eq_ok (hg e he)).1 k hk], hg e he⟩
  have hfront := mapM_of_forall₂
    ((Becomes.setEntries (becomes_toValues cs t) hknown).imp fun _ _ h => h.2)
  have hback : (es.filter fun e => !known t.toValues e).mapM (converted cs) =
      .ok ((es.filter fun e => !known t.toValues e).map g) :=
    mapM_eq_map fun e he => hg e (List.mem_of_mem_filter he)
  refine ⟨(Table.setAll t ((es.filter (known t.toValues)).map g)).entries ++
    (es.filter fun e => !known t.toValues e).map g, ?_, ?_⟩
  · rw [hsplit, List.mapM_append, hfront, hback]
    rfl
  · rw [Table.ofList, Table.setAll_append, ← Table.ofList, Table.ofList_entries, taken,
      List.map_append, Table.setAll_append]

/-- An entry that cannot be converted is not passed over. -/
theorem mapM_setEntries_error (hes : IsMap es) {e : Value × Value} (he : e ∈ es) {f : Failure}
    (hf : converted cs e = .error f) :
    ∃ f, (Value.setEntries t.toValues es).mapM (converted cs) = .error f := by
  have hsplit := Value.setEntries_append t.toValues [] hes.distinct
  rw [List.append_nil, List.nil_append] at hsplit
  refine exists_error_of_mapM (x := e) ?_ hf
  rw [hsplit, List.mem_append]
  cases hknown : known t.toValues e with
  | false => exact .inr (List.mem_filter.2 ⟨he, by simp [hknown]⟩)
  | true =>
      refine .inl (Value.mem_setEntries ?_ ?_ (hes.distinct.sublist List.filter_sublist)
        (.inl (List.mem_filter.2 ⟨he, hknown⟩)))
      · rw [toValues_eq]
        exact List.forall_mem_map.2 fun _ _ => rfl
      · intro e' he'
        obtain ⟨k, -, hk⟩ := known_toValues.1 (List.mem_filter.1 he').2
        rw [hk]
        rfl

/-- The last table is what a map makes of the first one; the second one is the table of the map, and
the third one that of its entries without a text for a key. The keys are those of the two tables
laid over each other. At a key that was there already, the entries without a text for a key count
before the others. -/
structure MapMerged (t u u₀ t' : AttrTable) : Prop where
  keys : t'.keys = (t.overlay u).keys
  get? : ∀ k, t'.get? k =
    ((if k ∈ t.keys then u₀.get? k else none).or (u.get? k)).or (t.get? k)
  eq_iff : t' = t.overlay u ↔ ∀ k ∈ t.keys, ∀ a, u₀.get? k = some a → u.get? k = some a

/-- What the last of some entries makes of a key. -/
def lastAt (g : Value × Value → String × AttrValue) (es : List (Value × Value)) (k : String) :
    Option AttrValue :=
  ((es.filter fun e => (g e).1 = k).getLast?).map fun e => (g e).2

theorem exists_lastAt_iff {g : Value × Value → String × AttrValue} {es : List (Value × Value)}
    {k : String} : (∃ a, lastAt g es k = some a) ↔ ∃ e ∈ es, (g e).1 = k := by
  rw [← Option.isSome_iff_exists, lastAt, Option.isSome_map, List.getLast?_isSome, Ne,
    List.filter_eq_nil_iff]
  simp

theorem get?_setAll_map (t : AttrTable) (g : Value × Value → String × AttrValue)
    (es : List (Value × Value)) (k : String) :
    (Table.setAll t (es.map g)).get? k = (lastAt g es k).or (t.get? k) := by
  rw [Table.get?_setAll_eq, List.filter_map, List.getLast?_map, Option.map_map]
  rfl

theorem get?_ofList_map (g : Value × Value → String × AttrValue) (es : List (Value × Value))
    (k : String) : (Table.ofList (es.map g)).get? k = lastAt g es k := by
  rw [Table.ofList, get?_setAll_map, Table.get?_empty, Option.or_none]

/-- Where no entry at a key of the table is looked for, it does not matter which ones came first. -/
theorem filter_taken {p : Value × Value → Bool}
    (hp : ∀ e ∈ es, known t.toValues e = true → p e = false) :
    (taken t es).filter p = es.filter p := by
  have hfront : (es.filter (known t.toValues)).filter p = [] := by
    refine List.filter_eq_nil_iff.2 fun e he => ?_
    obtain ⟨he, hk⟩ := List.mem_filter.1 he
    simp [hp e he hk]
  rw [taken, List.filter_append, hfront, List.nil_append, List.filter_filter]
  refine List.filter_congr fun e he => ?_
  cases hk : known t.toValues e with
  | true => simp [hp e he hk]
  | false => simp

section Merged

variable (hg : ∀ e ∈ es, ∀ k, e.1 = .text k → (g e).1 = k)

include hg

/-- An entry at a key of the table has the text of the key for its own if and only if the table
knows it. -/
theorem known_eq_isText {k : String} (hk : k ∈ t.keys) {e : Value × Value} (he : e ∈ es)
    (hkey : (g e).1 = k) : known t.toValues e = e.1.isText := by
  rw [Bool.eq_iff_iff, known_toValues, Value.isText_iff]
  constructor
  · rintro ⟨k', -, hk'⟩
    exact ⟨k', hk'⟩
  · rintro ⟨s, hs⟩
    exact ⟨s, by rwa [← hg e he s hs, hkey], hs⟩

/-- At a key of the table, the entries without a text for a key come last. -/
theorem lastAt_taken {k : String} (hk : k ∈ t.keys) :
    lastAt g (taken t es) k =
      (lastAt g (es.filter fun e => !e.1.isText) k).or (lastAt g es k) := by
  have hback : (es.filter fun e => !known t.toValues e).filter (fun e => (g e).1 = k) =
      (es.filter fun e => !e.1.isText).filter (fun e => (g e).1 = k) := by
    rw [List.filter_filter, List.filter_filter]
    refine List.filter_congr fun e he => ?_
    by_cases hkey : (g e).1 = k
    · rw [known_eq_isText hg hk he hkey]
    · simp [hkey]
  rw [lastAt, lastAt, taken, List.filter_append, hback, List.getLast?_append]
  cases hlast : ((es.filter fun e => !e.1.isText).filter fun e => (g e).1 = k).getLast? with
  | some e => rfl
  | none =>
      -- without such entries all those at the key are known
      rw [List.getLast?_eq_none_iff, List.filter_eq_nil_iff] at hlast
      have hall : (es.filter (known t.toValues)).filter (fun e => (g e).1 = k) =
          es.filter fun e => (g e).1 = k := by
        rw [List.filter_filter]
        refine List.filter_congr fun e he => ?_
        by_cases hkey : (g e).1 = k
        · have htext : e.1.isText = true := by
            by_contra h
            exact hlast e (List.mem_filter.2 ⟨he, by simpa using h⟩) (by simpa using hkey)
          rw [known_eq_isText hg hk he hkey, htext, Bool.and_true]
        · simp [hkey]
      rw [hall]
      rfl

theorem keys_setAll_taken :
    (Table.setAll t ((taken t es).map g)).keys = (t.overlay (Table.ofList (es.map g))).keys := by
  have hnew : (((taken t es).map g).map Prod.fst).filter (· ∉ t.keys) =
      ((es.map g).map Prod.fst).filter (· ∉ t.keys) := by
    simp only [List.map_map, List.filter_map]
    rw [filter_taken]
    intro e he hk
    obtain ⟨k, hk, hkey⟩ := known_toValues.1 hk
    simp [hg e he k hkey, hk]
  rw [Table.overlay_ofList, Table.keys_setAll_eq, Table.keys_setAll_eq, List.eraseDups_append,
    List.eraseDups_append, removeAll_eq_filter, removeAll_eq_filter, hnew]

theorem get?_setAll_taken (k : String) :
    (Table.setAll t ((taken t es).map g)).get? k =
      ((if k ∈ t.keys then (Table.ofList ((es.filter fun e => !e.1.isText).map g)).get? k
        else none).or ((Table.ofList (es.map g)).get? k)).or (t.get? k) := by
  rw [get?_setAll_map, get?_ofList_map, get?_ofList_map]
  by_cases hk : k ∈ t.keys
  · rw [if_pos hk, lastAt_taken hg hk]
  · rw [if_neg hk]
    have hother : ∀ e ∈ es, known t.toValues e = true → decide ((g e).1 = k) = false := by
      intro e he hknown
      obtain ⟨k', hk', hkey⟩ := known_toValues.1 hknown
      rw [hg e he k' hkey]
      exact decide_eq_false fun h => hk (h ▸ hk')
    rw [lastAt, filter_taken hother, Option.none_or]
    rfl

theorem mapMerged :
    MapMerged t (Table.ofList (es.map g)) (Table.ofList ((es.filter fun e => !e.1.isText).map g))
      (Table.setAll t ((taken t es).map g)) where
  keys := keys_setAll_taken hg
  get? := get?_setAll_taken hg
  eq_iff := by
    have hover : ∀ k, (t.overlay (Table.ofList (es.map g))).get? k =
        (lastAt g es k).or (t.get? k) := by
      intro k
      rw [Table.overlay_ofList, get?_setAll_map]
    -- an entry without a text for a key is an entry of the map
    have hsome : ∀ k a, lastAt g (es.filter fun e => !e.1.isText) k = some a →
        ∃ b, lastAt g es k = some b := by
      intro k a ha
      obtain ⟨e, he, hkey⟩ := exists_lastAt_iff.1 ⟨a, ha⟩
      exact exists_lastAt_iff.2 ⟨e, List.mem_of_mem_filter he, hkey⟩
    constructor
    · intro heq k hk a ha
      have hget := get?_setAll_taken hg (t := t) k
      rw [get?_ofList_map] at ha ⊢
      obtain ⟨b, hb⟩ := hsome k a ha
      rw [heq, hover, get?_ofList_map, get?_ofList_map, if_pos hk, ha, hb] at hget
      exact hb.trans hget
    · intro hwins
      refine Table.ext_get? (keys_setAll_taken hg) fun k => ?_
      rw [get?_setAll_taken hg, hover, get?_ofList_map, get?_ofList_map]
      by_cases hk : k ∈ t.keys
      · have hwins := hwins k hk
        rw [get?_ofList_map, get?_ofList_map] at hwins
        rw [if_pos hk]
        cases hlast : lastAt g (es.filter fun e => !e.1.isText) k with
        | none => rfl
        | some a =>
            rw [hwins a hlast]
            rfl
      · rw [if_neg hk, Option.none_or]

end Merged

/-! ## Merging -/

/-- A table from entries in a row. -/
def ofEntries (es : List (Value × Value)) : Act AttrTable := do
  return .ofList (← convertEntries es)

theorem run_ofEntries (es : List (Value × Value)) (w : World) :
    ((ofEntries es).run w).1 = (es.mapM (converted w.contexts)).map Table.ofList := by
  rw [ofEntries, Act.run_bind, run_convertEntries]
  cases es.mapM (converted w.contexts) <;> rfl

theorem mergeGiven_map (t : AttrTable) (i : Nat) (es : List (Value × Value)) :
    t.mergeGiven (.map i es) = ofEntries (Value.setEntries t.toValues es) := by
  cases es with
  | nil =>
      show (return t : Act AttrTable) = ofEntries t.toValues
      rw [ofEntries, toValues_eq, convertEntries_entryValues, pure_bind, Table.ofList_entries]
  | cons e rest => rfl

theorem mergeGiven_table (t u : AttrTable) : t.mergeGiven (.table u) = return t.overlay u := by
  obtain ⟨entries, nodup⟩ := u
  cases entries with
  | nil => rfl
  | cons e rest => rfl

/-- A table is merged as what it is. -/
theorem mapMerged_overlay (t u : AttrTable) : MapMerged t u ∅ (t.overlay u) where
  keys := rfl
  get? k := by
    rw [(Table.laidOver_overlay t u).get? k]
    split <;> rfl
  eq_iff := ⟨fun _ _ _ _ ha => (nomatch ha), fun _ => rfl⟩

/-- **What merging a map gives.** If the map has a table, then merging the map gives the keys of
that table laid over the first one, in the same order. The values are the same as when the table is
merged if and only if, at each key that was there already, the entries without a text for a key
leave the map's table the value they would have given by themselves. If the map has no table, then
merging it fails. -/
theorem mergeGiven_mapping (t : AttrTable) {m : Value} {es : List (Value × Value)}
    (hm : m.entries? = some es) (hes : IsMap es) (w : World) :
    match ((ofGiven m []).run w).1 with
    | .ok u => ((t.mergeGiven (.table u)).run w).1 = .ok (t.overlay u) ∧
        ∃ u₀ t', ((ofEntries (es.filter fun e => !e.1.isText)).run w).1 = .ok u₀ ∧
          ((t.mergeGiven m).run w).1 = .ok t' ∧ MapMerged t u u₀ t'
    | .error _ => ∃ e, ((t.mergeGiven m).run w).1 = .error e := by
  have hgiven := run_ofGiven hm [] w
  rw [namedEntries, List.map_nil, List.append_nil] at hgiven
  rw [hgiven]
  cases m with
  | none =>
      cases hm
      exact ⟨rfl, ∅, t, rfl, rfl, mapMerged_overlay t ∅⟩
  | table v =>
      cases hm
      have hnone : (v.toValues.filter fun e => !e.1.isText) = [] := by
        rw [toValues_eq, List.filter_map, List.map_eq_nil_iff, List.filter_eq_nil_iff]
        exact fun _ _ h => Bool.noConfusion h
      have htable : Except.map Table.ofList (.ok v.entries : Except Failure _) = .ok v :=
        congrArg Except.ok (Table.ofList_entries v)
      rw [mapM_converted_toValues, mergeGiven_table, hnone, htable]
      exact ⟨by rw [mergeGiven_table]; rfl, ∅, t.overlay v, rfl, rfl, mapMerged_overlay t v⟩
  | map i es' =>
      cases hm
      rw [mergeGiven_map, run_ofEntries, run_ofEntries]
      cases hout : es.mapM (converted w.contexts) with
      | error f =>
          obtain ⟨e, he, hf⟩ := exists_of_mapM_error hout
          obtain ⟨f', hf'⟩ := mapM_setEntries_error (t := t) hes he hf
          exact ⟨f', by rw [hf']; rfl⟩
      | ok out =>
          have hinhabited : Nonempty (String × AttrValue) := ⟨("", .text "")⟩
          obtain ⟨g, hg, rfl⟩ := exists_map_of_mapM hout
          obtain ⟨out', hout', htable⟩ := mapM_setEntries (t := t) hes hg
          have hrest : (es.filter fun e => !e.1.isText).mapM (converted w.contexts) =
              .ok ((es.filter fun e => !e.1.isText).map g) :=
            mapM_eq_map fun e he => hg e (List.mem_of_mem_filter he)
          refine ⟨by rw [mergeGiven_table]; rfl, _, _, by rw [hrest]; rfl, ?_,
            mapMerged fun e he => (converted_eq_ok (hg e he)).1⟩
          rw [hout', ← htable]
          rfl
  | _ => cases hm

/-- The number one and its text for keys, laid over a table that has the text for one. -/
def numberedMap : List (Value × Value) := [(.int 1, .text "a"), (.text "1", .text "b")]

theorem mergeGiven_mapping_numbered :
    Value.IsMap numberedMap ∧
      match ((ofGiven (.map 0 numberedMap) []).run .initial).1 with
      | .ok u => ((mergeGiven (.ofList [("1", .text "x")]) (.table u)).run .initial).1 =
            .ok (Table.overlay (.ofList [("1", .text "x")]) u) ∧
          ∃ u₀ t', ((ofEntries (numberedMap.filter fun e => !e.1.isText)).run .initial).1 = .ok u₀ ∧
            ((mergeGiven (.ofList [("1", .text "x")]) (.map 0 numberedMap)).run .initial).1 = .ok t' ∧
            MapMerged (.ofList [("1", .text "x")]) u u₀ t'
      | .error _ => ∃ e,
          ((mergeGiven (.ofList [("1", .text "x")]) (.map 0 numberedMap)).run .initial).1 =
            .error e :=
  have hmap : Value.IsMap numberedMap := by decide +kernel
  ⟨hmap,
    mergeGiven_mapping (.ofList [("1", .text "x")]) (m := .map 0 numberedMap) rfl hmap .initial⟩

/-- A map does not always merge as its table does. -/
theorem not_all_maps_merge_as_tables :
    ¬ ∀ (t : AttrTable) (m : Value) (es : List (Value × Value)) (w : World) (u : AttrTable),
      m.entries? = some es → Value.IsMap es → ((ofGiven m []).run w).1 = .ok u →
        ((t.mergeGiven m).run w).1 = ((t.mergeGiven (.table u)).run w).1 := by
  intro h
  have hmap : Value.IsMap numberedMap := by decide +kernel
  have heq := h (.ofList [("1", .text "x")]) (.map 0 numberedMap) numberedMap .initial
    (.ofList [("1", .text "b")]) rfl hmap (by rfl)
  have hvalue := congrArg (fun r => (r.toOption.bind fun t => t.get? "1")) heq
  revert hvalue
  decide +kernel

end AttrTable

end DotDoc
