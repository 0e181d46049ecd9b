import DotDoc.Proofs.Session.MapMerges

set_option autoImplicit false

/-!
# Tables merged into tables

The entries of one table laid over those of another one are given by a plain rule (`Entries.over`):
the keys of the lower table stay where they are and take the upper values, and the upper entries
with new keys follow.

A table is merged into another one by this rule (`Table.entries_overlay`). It comes to the same as
merging the map of its entries, where all entries are set anew and converted once more
(`AttrTable.setEntries_toValues`), since what is in a table is converted already. So merging tables
always returns a table and leaves the world as it is. It is associative, the table without entries
is its unit, and what has been merged already makes no difference when it is merged again
(`AttrTable.overlayMonoid_mergeGiven`).
-/

namespace DotDoc

/-! ## Entries laid over each other -/

section Entries

variable {κ α : Type} [DecidableEq κ]

/-- The entries of one list laid over those of another one. The keys of the lower one stay where
they are, each with the upper value if there is one; the upper entries with new keys follow. -/
def Entries.over (lower upper : List (κ × α)) : List (κ × α) :=
  lower.map (fun e => (e.1, (upper.lookup e.1).getD e.2)) ++
    upper.filter fun e => e.1 ∉ lower.map Prod.fst

/-- **The entries of a table that is laid over another one follow the plain rule.** -/
theorem Table.entries_overlay (t u : Table κ α) :
    (t.overlay u).entries = Entries.over t.entries u.entries := by
  have hlaid := laidOver_overlay t u
  rw [entries_eq_filterMap, hlaid.keys, List.filterMap_append, Entries.over]
  congr 1
  · -- a key of the lower table has a value there, which counts if the upper one has none
    rw [keys, List.filterMap_map, ← List.filterMap_eq_map]
    refine List.filterMap_congr fun e he => ?_
    have hlower : t.get? e.1 = some e.2 := get?_eq_some_iff.2 he
    show ((t.overlay u).get? e.1).map (e.1, ·) = some (e.1, (u.get? e.1).getD e.2)
    rw [hlaid.get?, hlower]
    cases u.get? e.1 <;> rfl
  · show ((u.entries.map Prod.fst).filter fun k => k ∉ t.keys).filterMap _ = _
    rw [List.filter_map, List.filterMap_map]
    refine (List.filterMap_congr fun e he => ?_).trans List.filterMap_some
    have hupper : u.get? e.1 = some e.2 := get?_eq_some_iff.2 (List.mem_filter.1 he).1
    show ((t.overlay u).get? e.1).map (e.1, ·) = some e
    rw [hlaid.get?, hupper]
    rfl

example : Entries.over [("a", 1), ("b", 2)] [("c", 3), ("a", 4)] =
    [("a", 4), ("b", 2), ("c", 3)] := by
  decide

theorem Table.overlay_empty (t : Table κ α) : t.overlay ∅ = t := rfl

theorem Table.empty_overlay (t : Table κ α) : (∅ : Table κ α).overlay t = t := t.ofList_entries

/-- What has been laid over a table makes no difference when it is laid over it again. -/
theorem Table.overlay_overlay_self (t u : Table κ α) : (t.overlay u).overlay u = t.overlay u := by
  rw [overlay_assoc, overlay_self]

end Entries

namespace AttrTable

/-! ## Entries set anew -/

theorem setEntry_entryValues (k : String) (a : AttrValue) (es : List (String × AttrValue)) :
    Value.setEntry (.text k) (.ofAttr a) (es.map entryValues) =
      (Entries.set k a es).map entryValues := by
  induction es with
  | nil => rfl
  | cons e rest ih =>
      have hsame : Value.same (entryValues e).1 (.text k) = true ↔ e.1 = k := by
        rw [entryValues, Value.same_text_iff, Value.text.injEq, eq_comm]
      rw [List.map_cons, Value.setEntry, Entries.set]
      by_cases hk : e.1 = k
      · rw [if_pos (hsame.2 hk), if_pos hk, entryValues, hk]
        rfl
      · rw [if_neg (mt hsame.1 hk), if_neg hk, ih]
        rfl

/-- To set among the entries of a table those of another one is to lay it over the first one. -/
theorem setEntries_entryValues (t : AttrTable) (es : List (String × AttrValue)) :
    Value.setEntries t.toValues (es.map entryValues) = toValues (Table.setAll t es) := by
  induction es generalizing t with
  | nil => rfl
  | cons e rest ih =>
      have hset : Value.setEntry (.text e.1) (.ofAttr e.2) t.toValues = toValues (t.set e.1 e.2) :=
        setEntry_entryValues e.1 e.2 t.entries
      show Value.setEntries (Value.setEntry (.text e.1) (.ofAttr e.2) t.toValues) _ = _
      rw [hset, ih]
      rfl

/-- **What is in a table is not changed by converting it once more**: the entries of a table are set
in another one as they are. -/
theorem setEntries_toValues (t u : AttrTable) : t.setEntries u.toValues = return t.overlay u := by
  rw [setEntries, toValues_eq u, setEntries_entryValues, toValues_eq, convertEntries_entryValues,
    pure_bind, Table.ofList_entries]
  rfl

/-! ## The laws of merging tables -/

/-- A way of merging tables lays the second one over the first one, and tables are a monoid under
it in which nothing counts twice. The equations are between actions, so that merging never fails,
and neither changes the world nor depends on it. -/
structure OverlayMonoid (merge : AttrTable → AttrTable → Act AttrTable) : Prop where
  /-- The outcome has each key once, and its entries follow the plain rule. -/
  laid : ∀ t u, ∃ tu, merge t u = pure tu ∧ tu.keys.Nodup ∧
    tu.entries = Entries.over t.entries u.entries
  /-- It is what setting all entries anew and converting them once more gives. -/
  rebuilt : ∀ t u, merge t u = t.setEntries u.toValues
  assoc : ∀ t u v, (do merge (← merge t u) v) = (do merge t (← merge u v))
  empty_left : ∀ t, merge ∅ t = pure t
  empty_right : ∀ t, merge t ∅ = pure t
  self : ∀ t, merge t t = pure t
  again : ∀ t u, (do merge (← merge t u) u) = merge t u

/-- **Attribute tables form a monoid of ordered overlays.** -/
theorem overlayMonoid_mergeGiven : OverlayMonoid fun t u => t.mergeGiven (.table u) where
  laid t u := ⟨t.overlay u, mergeGiven_table t u, Table.nodup_keys _, t.entries_overlay u⟩
  rebuilt t u := by rw [mergeGiven_table, setEntries_toValues]
  assoc t u v := by simp only [mergeGiven_table, pure_bind, Table.overlay_assoc]
  empty_left t := by rw [mergeGiven_table, Table.empty_overlay]
  empty_right t := by rw [mergeGiven_table, Table.overlay_empty]
  self t := by rw [mergeGiven_table, Table.overlay_self]
  again t u := by simp only [mergeGiven_table, pure_bind, Table.overlay_overlay_self]

end AttrTable

end DotDoc
