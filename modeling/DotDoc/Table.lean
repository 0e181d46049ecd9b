set_option autoImplicit false

/-!
# Ordered tables

A table holds one value for each of its keys and keeps the keys in the order in
which they were first set. Setting a known key replaces its value in place; a
new key goes to the end. Laying one table over another sets the entries of the
upper one in turn.

Main statements: `Table.keys_set` says where a key stands after it was set, and
`Table.get?_set` says what is then read.
-/

namespace DotDoc

variable {κ α : Type}

/-! ## Lists of entries -/

namespace Entries

variable [DecidableEq κ]

/-- Replace the value of a known key in place, or add the entry at the end. -/
def set (k : κ) (v : α) : List (κ × α) → List (κ × α)
  | [] => [(k, v)]
  | (k', v') :: rest => if k' = k then (k, v) :: rest else (k', v') :: set k v rest

/-- Setting a key leaves the keys alone if it is known, and adds it at the end
otherwise. -/
theorem map_fst_set (k : κ) (v : α) (es : List (κ × α)) :
    (set k v es).map Prod.fst =
      if k ∈ es.map Prod.fst then es.map Prod.fst else es.map Prod.fst ++ [k] := by
  induction es with
  | nil => simp [set]
  | cons e rest ih =>
    obtain ⟨k', v'⟩ := e
    by_cases hk : k' = k
    · simp [set, hk]
    · have hk' : ¬ k = k' := fun h => hk h.symm
      by_cases hm : k ∈ rest.map Prod.fst
      · simp only [set, if_neg hk, List.map_cons, ih, List.mem_cons, hm, or_true, if_true]
      · simp only [set, if_neg hk, List.map_cons, ih, List.mem_cons, hk', hm, or_self, if_false,
          List.cons_append]

theorem nodup_set (k : κ) (v : α) {es : List (κ × α)} (h : (es.map Prod.fst).Nodup) :
    ((set k v es).map Prod.fst).Nodup := by
  rw [map_fst_set]
  split
  · exact h
  · rename_i hm
    exact List.nodup_append.2 ⟨h, by simp, by
      intro a ha b hb
      rw [List.mem_singleton] at hb
      rintro rfl
      exact hm (hb ▸ ha)⟩

theorem lookup_set (k a : κ) (v : α) (es : List (κ × α)) :
    (set k v es).lookup a = if a = k then some v else es.lookup a := by
  induction es with
  | nil =>
    by_cases h : a = k
    · simp [set, h]
    · have h' : (a == k) = false := by simpa using h
      simp [set, h, List.lookup_cons, h']
  | cons e rest ih =>
    obtain ⟨k', v'⟩ := e
    by_cases hk : k' = k
    · subst hk
      by_cases h : a = k'
      · simp [set, h]
      · have h' : (a == k') = false := by simpa using h
        simp [set, h, List.lookup_cons, h']
    · by_cases h : a = k'
      · subst h
        simp [set, hk]
      · have h' : (a == k') = false := by simpa using h
        simp [set, hk, List.lookup_cons, h', ih]

/-- A new key goes to the end. -/
theorem set_of_notMem {k : κ} {v : α} {es : List (κ × α)} (h : k ∉ es.map Prod.fst) :
    set k v es = es ++ [(k, v)] := by
  induction es with
  | nil => rfl
  | cons e rest ih =>
    rw [List.map_cons, List.mem_cons, not_or] at h
    simp [set, Ne.symm h.1, ih h.2]

end Entries

/-! ## Tables -/

/-- An ordered table: entries in the order their keys were first set, each key
once. -/
@[ext]
structure Table (κ α : Type) where
  entries : List (κ × α)
  nodup : (entries.map Prod.fst).Nodup

namespace Table

/-- The table without entries. -/
def empty : Table κ α := ⟨[], by simp⟩

instance : EmptyCollection (Table κ α) := ⟨empty⟩

instance : Inhabited (Table κ α) := ⟨empty⟩

/-- The keys in table order. -/
def keys (t : Table κ α) : List κ := t.entries.map Prod.fst

/-- The values in table order. -/
def values (t : Table κ α) : List α := t.entries.map Prod.snd

/-- The number of entries. -/
def size (t : Table κ α) : Nat := t.entries.length

def isEmpty (t : Table κ α) : Bool := t.entries.isEmpty

section Keyed

variable [DecidableEq κ]

/-- The value of a key, if it has one. -/
def get? (t : Table κ α) (k : κ) : Option α := t.entries.lookup k

def contains (t : Table κ α) (k : κ) : Bool := (t.get? k).isSome

/-- Give a key a value: in place if the key is known, at the end otherwise. -/
def set (t : Table κ α) (k : κ) (v : α) : Table κ α :=
  ⟨Entries.set k v t.entries, Entries.nodup_set k v t.nodup⟩

/-- Set a list of entries, one after the other. -/
def setAll (t : Table κ α) (es : List (κ × α)) : Table κ α :=
  es.foldl (fun t e => t.set e.1 e.2) t

/-- The table that results from setting the given entries in turn. -/
def ofList (es : List (κ × α)) : Table κ α := empty.setAll es

/-- Lay `upper` over `lower`: known keys keep their place and take the upper
value, new keys follow in the order of `upper`. -/
def overlay (lower upper : Table κ α) : Table κ α := lower.setAll upper.entries

end Keyed

@[simp] theorem keys_empty : (empty : Table κ α).keys = [] := rfl

theorem nodup_keys (t : Table κ α) : t.keys.Nodup := t.nodup

section Laws

variable [DecidableEq κ]

@[simp] theorem get?_empty (k : κ) : (empty : Table κ α).get? k = none := rfl

/-- A key that was set stands where it stood, or at the end if it is new. -/
theorem keys_set (t : Table κ α) (k : κ) (v : α) :
    (t.set k v).keys = if k ∈ t.keys then t.keys else t.keys ++ [k] :=
  Entries.map_fst_set k v t.entries

/-- Reading after setting gives the new value at that key and the old ones
elsewhere. -/
theorem get?_set (t : Table κ α) (k a : κ) (v : α) :
    (t.set k v).get? a = if a = k then some v else t.get? a :=
  Entries.lookup_set k a v t.entries

@[simp] theorem setAll_nil (t : Table κ α) : t.setAll [] = t := rfl

@[simp] theorem setAll_cons (t : Table κ α) (e : κ × α) (es : List (κ × α)) :
    t.setAll (e :: es) = (t.set e.1 e.2).setAll es := rfl

theorem setAll_append (t : Table κ α) (xs ys : List (κ × α)) :
    t.setAll (xs ++ ys) = (t.setAll xs).setAll ys := by
  simp [setAll, List.foldl_append]

/-- The keys after different keys were set in turn: the known ones stay where they are, and the new
ones follow. -/
theorem keys_setAll {es : List (κ × α)} (hes : (es.map Prod.fst).Nodup) (t : Table κ α) :
    (t.setAll es).keys = t.keys ++ (es.map Prod.fst).filter (· ∉ t.keys) := by
  induction es generalizing t with
  | nil => simp
  | cons e rest ih =>
    rw [List.map_cons, List.nodup_cons] at hes
    rw [setAll_cons, ih hes.2, keys_set, List.map_cons]
    split
    · rename_i h
      rw [List.filter_cons_of_neg (by simpa using h)]
    · rename_i h
      rw [List.filter_cons_of_pos (by simpa using h), List.append_assoc, List.singleton_append]
      -- the key that was just set does not come again
      congr 2
      apply List.filter_congr
      intro k hk
      have hne : k ≠ e.1 := fun h => hes.1 (h ▸ hk)
      simp [hne]

theorem get?_setAll {es : List (κ × α)} (hes : (es.map Prod.fst).Nodup) (t : Table κ α) (k : κ) :
    (t.setAll es).get? k = (es.lookup k).or (t.get? k) := by
  induction es generalizing t with
  | nil => simp
  | cons e rest ih =>
    rw [List.map_cons, List.nodup_cons] at hes
    rw [setAll_cons, ih hes.2, get?_set]
    by_cases h : k = e.1
    · have hrest : rest.lookup e.1 = none := by
        rw [List.lookup_eq_none_iff]
        intro e' he'
        have hne : e.1 ≠ e'.1 := fun h' => hes.1 (h' ▸ List.mem_map_of_mem he')
        simpa using hne
      rw [h, hrest, List.lookup_cons_self]
      simp
    · have h' : (k == e.1) = false := by simpa using h
      rw [if_neg h, List.lookup_cons, h']

/-- The third table is the second one laid over the first: the keys of the lower one come first, in
their order, and the values of the upper one win. -/
structure LaidOver (lower upper t : Table κ α) : Prop where
  keys : t.keys = lower.keys ++ upper.keys.filter (· ∉ lower.keys)
  get? : ∀ k, t.get? k = (upper.get? k).or (lower.get? k)

theorem laidOver_overlay (lower upper : Table κ α) : LaidOver lower upper (lower.overlay upper) where
  keys := keys_setAll upper.nodup lower
  get? := get?_setAll upper.nodup lower

theorem entries_setAll {es : List (κ × α)} {t : Table κ α}
    (h : ((t.entries ++ es).map Prod.fst).Nodup) : (t.setAll es).entries = t.entries ++ es := by
  induction es generalizing t with
  | nil => simp
  | cons e rest ih =>
    have hset : (t.set e.1 e.2).entries = t.entries ++ [e] := by
      apply Entries.set_of_notMem
      intro hmem
      rw [List.map_append, List.nodup_append] at h
      exact h.2.2 _ hmem _ (List.mem_map_of_mem List.mem_cons_self) rfl
    rw [setAll_cons, ih, hset, List.append_assoc, List.singleton_append]
    rw [hset, List.append_assoc, List.singleton_append]
    exact h

/-- Setting the entries of a table in turn gives the table. -/
theorem ofList_entries (t : Table κ α) : ofList t.entries = t := by
  apply Table.ext
  exact entries_setAll t.nodup

theorem mem_entries_set {t : Table κ α} {k : κ} {v : α} {e : κ × α}
    (h : e ∈ (t.set k v).entries) : e = (k, v) ∨ e ∈ t.entries := by
  obtain ⟨es, hes⟩ := t
  change e ∈ Entries.set k v es at h
  show e = (k, v) ∨ e ∈ es
  clear hes
  induction es with
  | nil => exact .inl (List.mem_singleton.1 h)
  | cons e' rest ih =>
    by_cases hk : e'.1 = k
    · simp only [Entries.set, if_pos hk, List.mem_cons] at h ⊢
      exact h.imp_right .inr
    · simp only [Entries.set, if_neg hk, List.mem_cons] at h ⊢
      rcases h with h | h
      · exact .inr (.inl h)
      · exact (ih h).imp_right .inr

theorem mem_values_set {t : Table κ α} {k : κ} {v x : α}
    (h : x ∈ (t.set k v).values) : x = v ∨ x ∈ t.values := by
  obtain ⟨e, he, rfl⟩ := List.mem_map.1 h
  rcases mem_entries_set he with rfl | he
  · exact .inl rfl
  · exact .inr (List.mem_map_of_mem he)

theorem mem_entries_setAll {t : Table κ α} {es : List (κ × α)} {e : κ × α}
    (h : e ∈ (t.setAll es).entries) : e ∈ t.entries ∨ e ∈ es := by
  induction es generalizing t with
  | nil => exact .inl h
  | cons e' rest ih =>
    rcases ih h with h | h
    · rcases mem_entries_set h with h | h
      · exact .inr (h ▸ List.mem_cons_self)
      · exact .inl h
    · exact .inr (List.mem_cons_of_mem e' h)

/-- All entries of a table that is laid over another one stand in one of the two. -/
theorem mem_entries_overlay {lower upper : Table κ α} {e : κ × α}
    (h : e ∈ (lower.overlay upper).entries) : e ∈ lower.entries ∨ e ∈ upper.entries :=
  mem_entries_setAll h

/-- What is read at a key is the entry of that key. -/
theorem get?_eq_some_iff {t : Table κ α} {k : κ} {v : α} :
    t.get? k = some v ↔ (k, v) ∈ t.entries := by
  obtain ⟨es, hes⟩ := t
  show es.lookup k = some v ↔ (k, v) ∈ es
  induction es with
  | nil => simp
  | cons e rest ih =>
    obtain ⟨k', v'⟩ := e
    rw [List.map_cons, List.nodup_cons] at hes
    by_cases hk : k = k'
    · subst hk
      have hrest : (k, v) ∉ rest := fun h => hes.1 (List.mem_map.2 ⟨(k, v), h, rfl⟩)
      simp [hrest, eq_comm]
    · have hk' : (k == k') = false := by simpa using hk
      rw [List.lookup_cons, hk', ih hes.2]
      simp [hk]

theorem mem_values_of_get? {t : Table κ α} {k : κ} {v : α}
    (h : t.get? k = some v) : v ∈ t.values := by
  obtain ⟨l₁, l₂, h', -⟩ := List.lookup_eq_some_iff.1 h
  simp [Table.values, h']

end Laws

end Table

end DotDoc
