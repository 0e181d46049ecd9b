import DotDoc.Graph.Merge
import Mathlib.Data.List.Nodup

set_option autoImplicit false

/-!
# Laying lists over each other by a key

To place an item in a list is to join it with the first one of its key, or to put it at the end.
One list is laid over another one by placing its items in turn (`Keyed.place`, `Keyed.lay`). Tables
are laid over each other in this way, nodes are added in this way, and so are named subgraphs.

If the keys of the items in the middle are different, and joining is associative, then laying is
(`Keyed.lay_lay`). A list with different keys does not change when it is laid over itself, if no
item changes when it is joined with itself (`Keyed.lay_self`). So tables, and links that are told
apart by identity, are added up associatively, and nothing is added twice
(`Table.overlay_assoc`, `Table.overlay_self`, `Link.append_beyond_assoc`,
`Link.append_beyond_self`, `Node.absorb_assoc`, `Node.absorb_self`).
-/

namespace DotDoc

/-! ## Items in the order in which they are first seen -/

section FirstSeen

variable {α : Type} [DecidableEq α]

theorem eraseDups_of_nodup {xs : List α} (h : xs.Nodup) : xs.eraseDups = xs := by
  induction xs with
  | nil => rfl
  | cons x rest ih =>
      obtain ⟨hx, hrest⟩ := List.nodup_cons.1 h
      have hkeep : rest.filter (fun y => !y == x) = rest := by
        refine List.filter_eq_self.2 fun y hy => ?_
        have hyx : y ≠ x := fun e => hx (e ▸ hy)
        simpa using hyx
      rw [List.eraseDups_cons, hkeep, ih hrest]

theorem removeAll_eq_filter (xs ys : List α) : ys.removeAll xs = ys.filter (· ∉ xs) := by
  simp [List.removeAll]

/-- Of some further items, all different, those are new that were not there before. -/
theorem eraseDups_append_of_nodup (xs : List α) {ys : List α} (h : ys.Nodup) :
    (xs ++ ys).eraseDups = xs.eraseDups ++ ys.filter (· ∉ xs) := by
  rw [List.eraseDups_append, removeAll_eq_filter, eraseDups_of_nodup (h.filter _)]

/-- An item that was seen before makes no difference. -/
theorem eraseDups_append_cons_of_mem {x : α} {xs : List α} (h : x ∈ xs) (ys : List α) :
    (xs ++ x :: ys).eraseDups = (xs ++ ys).eraseDups := by
  rw [List.eraseDups_append, List.eraseDups_append, removeAll_eq_filter, removeAll_eq_filter,
    List.filter_cons_of_neg (by simpa using h)]

end FirstSeen

/-- An item at some position, and the list with another one there. -/
theorem exists_append_set {α : Type} {xs : List α} {i : Nat} {x : α} (h : xs[i]? = some x) :
    ∃ above below, xs = above ++ x :: below ∧ ∀ y, xs.set i y = above ++ y :: below := by
  obtain ⟨hlt, rfl⟩ := List.getElem?_eq_some_iff.1 h
  refine ⟨xs.take i, xs.drop (i + 1), ?_, fun y => ?_⟩
  · rw [List.getElem_cons_drop hlt, List.take_append_drop]
  · rw [List.set_eq_take_append_cons_drop, if_pos hlt]

namespace Keyed

variable {κ α : Type} [DecidableEq κ] (key : α → κ)

/-- Change the first item that has the key of the given one, or put the given one at the end. -/
def place (f : α → α) (y : α) : List α → List α
  | [] => [y]
  | x :: rest => if key x = key y then f x :: rest else x :: place f y rest

/-- Place items in turn, each joined with the one that is there. -/
def lay (join : α → α → α) (xs ys : List α) : List α :=
  ys.foldl (fun xs y => place key (fun x => join x y) y xs) xs

variable {key} {f g : α → α} {join : α → α → α}

theorem lay_cons (xs : List α) (y : α) (ys : List α) :
    lay key join xs (y :: ys) = lay key join (place key (fun x => join x y) y xs) ys := rfl

theorem lay_append (xs ys zs : List α) :
    lay key join xs (ys ++ zs) = lay key join (lay key join xs ys) zs :=
  List.foldl_append

/-! ## Placing one item -/

theorem place_of_notMem {y : α} {xs : List α} (h : key y ∉ xs.map key) :
    place key f y xs = xs ++ [y] := by
  induction xs with
  | nil => rfl
  | cons x rest ih =>
      rw [List.map_cons, List.mem_cons, not_or] at h
      rw [place, if_neg (Ne.symm h.1), ih h.2, List.cons_append]

/-- The first item of the key is changed, and nothing else. -/
theorem place_append_cons {y x : α} {above below : List α} (habove : key y ∉ above.map key)
    (hx : key x = key y) : place key f y (above ++ x :: below) = above ++ f x :: below := by
  induction above with
  | nil => exact if_pos hx
  | cons a rest ih =>
      rw [List.map_cons, List.mem_cons, not_or] at habove
      rw [List.cons_append, place, if_neg (Ne.symm habove.1), ih habove.2, List.cons_append]

/-- The keys stay, and a new one is added at the end. -/
theorem map_key_place (hf : ∀ x, key (f x) = key x) (y : α) (xs : List α) :
    (place key f y xs).map key =
      if key y ∈ xs.map key then xs.map key else xs.map key ++ [key y] := by
  induction xs with
  | nil => rfl
  | cons x rest ih =>
      rw [place]
      by_cases h : key x = key y
      · rw [if_pos h, List.map_cons, hf, if_pos (h ▸ List.mem_cons_self)]
        rfl
      · rw [if_neg h, List.map_cons, ih, List.map_cons]
        by_cases hrest : key y ∈ rest.map key
        · rw [if_pos hrest, if_pos (List.mem_cons_of_mem _ hrest)]
        · have hnot : key y ∉ key x :: rest.map key :=
            List.not_mem_cons_of_ne_of_not_mem (Ne.symm h) hrest
          rw [if_neg hrest, if_neg hnot, List.cons_append]

theorem mem_map_key_place (hf : ∀ x, key (f x) = key x) (y : α) (xs : List α) :
    key y ∈ (place key f y xs).map key := by
  rw [map_key_place hf]
  split
  · assumption
  · exact List.mem_append_right _ (List.mem_singleton_self _)

theorem nodup_place (hf : ∀ x, key (f x) = key x) (y : α) {xs : List α}
    (h : (xs.map key).Nodup) : ((place key f y xs).map key).Nodup := by
  rw [map_key_place hf]
  split
  · exact h
  · rename_i hy
    refine List.nodup_append.2 ⟨h, List.nodup_singleton _, ?_⟩
    intro k hk l hl hkl
    rw [List.mem_singleton.1 hl] at hkl
    exact hy (hkl ▸ hk)

/-- What holds of all items, of the new one and of the changed one holds after placing. -/
theorem forall_place {p : α → Prop} {y : α} {xs : List α} (hxs : ∀ x ∈ xs, p x) (hy : p y)
    (hf : ∀ x ∈ xs, key x = key y → p (f x)) : ∀ x ∈ place key f y xs, p x := by
  induction xs with
  | nil => exact fun x hx => List.mem_singleton.1 hx ▸ hy
  | cons a rest ih =>
      have hrest := ih (fun x hx => hxs x (List.mem_cons_of_mem a hx))
        (fun x hx => hf x (List.mem_cons_of_mem a hx))
      rw [place]
      split
      · rename_i ha
        refine List.forall_mem_cons.2 ⟨hf a List.mem_cons_self ha, fun x hx => ?_⟩
        exact hxs x (List.mem_cons_of_mem a hx)
      · exact List.forall_mem_cons.2 ⟨hxs a List.mem_cons_self, hrest⟩

/-- Only at the key it matters how an item is changed. -/
theorem place_congr {y : α} (h : ∀ x, key x = key y → f x = g x) (xs : List α) :
    place key f y xs = place key g y xs := by
  induction xs with
  | nil => rfl
  | cons x rest ih =>
      rw [place, place, ih]
      by_cases hx : key x = key y
      · rw [if_pos hx, if_pos hx, h x hx]
      · rw [if_neg hx, if_neg hx]

/-- Two items of one key are placed as one. -/
theorem place_place_of_eq (hf : ∀ x, key (f x) = key x) {y z : α} (hyz : key y = key z)
    (hgy : key (g y) = key y) (xs : List α) :
    place key g z (place key f y xs) = place key (fun x => g (f x)) (g y) xs := by
  induction xs with
  | nil => exact if_pos hyz
  | cons x rest ih =>
      by_cases h : key x = key y
      · have hfx : key (f x) = key z := (hf x).trans (h.trans hyz)
        rw [place, if_pos h, place, if_pos hfx, place, if_pos (h.trans hgy.symm)]
      · have hxz : key x ≠ key z := fun hxz => h (hxz.trans hyz.symm)
        have hxg : key x ≠ key (g y) := fun hxg => h (hxg.trans hgy)
        rw [place, if_neg h, place, if_neg hxz, place, if_neg hxg, ih]

/-- An item whose key is there may be placed before another one. -/
theorem place_place_of_mem (hf : ∀ x, key (f x) = key x) (hg : ∀ x, key (g x) = key x) {y z : α}
    (hyz : key y ≠ key z) {xs : List α} (hz : key z ∈ xs.map key) :
    place key g z (place key f y xs) = place key f y (place key g z xs) := by
  induction xs with
  | nil => exact absurd hz List.not_mem_nil
  | cons x rest ih =>
      by_cases hxz : key x = key z
      · have hxy : key x ≠ key y := fun h => hyz (h.symm.trans hxz)
        have hgy : key (g x) ≠ key y := fun h => hxy ((hg x).symm.trans h)
        rw [place, if_neg hxy, place, if_pos hxz, place, if_pos hxz, place, if_neg hgy]
      · have hrest : key z ∈ rest.map key :=
          (List.mem_cons.1 hz).resolve_left (Ne.symm hxz)
        by_cases hxy : key x = key y
        · have hfz : key (f x) ≠ key z := fun h => hxz ((hf x).symm.trans h)
          rw [place, if_pos hxy, place, if_neg hfz, place, if_neg hxz, place, if_pos hxy]
        · rw [place, if_neg hxy, place, if_neg hxz, place, if_neg hxz, place, if_neg hxy,
            ih hrest]

/-- In a list with different keys, placing changes the item at the position of the key. -/
theorem place_eq_set {x y : α} {xs : List α} {i : Nat} (hxs : (xs.map key).Nodup)
    (hi : xs[i]? = some x) (hx : key x = key y) : place key f y xs = xs.set i (f x) := by
  obtain ⟨above, below, rfl, hset⟩ := exists_append_set hi
  have habove : key y ∉ above.map key := by
    rw [List.map_append, List.map_cons] at hxs
    exact fun h => (List.nodup_append.1 hxs).2.2 _ h _ List.mem_cons_self hx.symm
  rw [hset, place_append_cons habove hx]

theorem place_of_mem {x : α} {xs : List α} (hxs : (xs.map key).Nodup) (hx : x ∈ xs)
    (hf : f x = x) : place key f x xs = xs := by
  obtain ⟨above, below, rfl⟩ := List.append_of_mem hx
  -- it is the first one of its key, since it is the only one
  have habove : key x ∉ above.map key := by
    rw [List.map_append, List.map_cons] at hxs
    exact fun h => (List.nodup_append.1 hxs).2.2 _ h _ List.mem_cons_self rfl
  rw [place_append_cons habove rfl, hf]

/-- An item that is there is not added. -/
theorem place_id_of_mem {y : α} {xs : List α} (h : key y ∈ xs.map key) :
    place key (fun x => x) y xs = xs := by
  induction xs with
  | nil => exact absurd h List.not_mem_nil
  | cons x rest ih =>
      rw [place]
      by_cases hx : key x = key y
      · rw [if_pos hx]
      · rw [if_neg hx, ih ((List.mem_cons.1 h).resolve_left (Ne.symm hx))]

/-! ## Laying lists -/

/-- An item whose key is there, and is not among those to follow, may be placed first. -/
theorem place_lay_of_mem (hjoin : ∀ x y, key (join x y) = key x) (hg : ∀ x, key (g x) = key x)
    {z : α} {ys : List α} (hys : key z ∉ ys.map key) {xs : List α} (hxs : key z ∈ xs.map key) :
    place key g z (lay key join xs ys) = lay key join (place key g z xs) ys := by
  induction ys generalizing xs with
  | nil => rfl
  | cons y rest ih =>
      rw [List.map_cons, List.mem_cons, not_or] at hys
      have hz : key z ∈ (place key (fun x => join x y) y xs).map key := by
        rw [map_key_place fun x => hjoin x y]
        split
        · exact hxs
        · exact List.mem_append_left _ hxs
      rw [lay_cons, ih hys.2 hz, lay_cons,
        place_place_of_mem (fun x => hjoin x y) hg (Ne.symm hys.1) hxs]

/-- To lay a list over another one and then place an item is to place the item in the list
first. -/
theorem lay_place (hjoin : ∀ x y, key (join x y) = key x) {z : α} {ys : List α}
    (hys : (ys.map key).Nodup) (hassoc : ∀ x, ∀ y ∈ ys, key x = key y → key y = key z →
      join (join x y) z = join x (join y z)) (xs : List α) :
    lay key join xs (place key (fun y => join y z) z ys) =
      place key (fun x => join x z) z (lay key join xs ys) := by
  induction ys generalizing xs with
  | nil => rfl
  | cons y rest ih =>
      rw [List.map_cons, List.nodup_cons] at hys
      rw [lay_cons, place]
      by_cases hyz : key y = key z
      · rw [if_pos hyz, lay_cons]
        -- the item of this key is there once `y` is placed, and none follows
        have hmem : key z ∈ (place key (fun x => join x y) y xs).map key :=
          hyz ▸ mem_map_key_place (fun x => hjoin x y) y xs
        have hboth : place key (fun x => join (join x y) z) (join y z) xs =
            place key (fun x => join x (join y z)) (join y z) xs :=
          place_congr (fun x hx => hassoc x y List.mem_cons_self (hx.trans (hjoin y z)) hyz) xs
        rw [place_lay_of_mem hjoin (fun x => hjoin x z) (hyz ▸ hys.1) hmem,
          place_place_of_eq (fun x => hjoin x y) hyz (hjoin y z), hboth]
      · rw [if_neg hyz, lay_cons]
        exact ih hys.2 (fun x u hu => hassoc x u (List.mem_cons_of_mem y hu)) _

/-- Both lists' keys are there. -/
theorem mem_map_key_lay (hjoin : ∀ x y, key (join x y) = key x) {k : κ} {xs ys : List α}
    (h : k ∈ xs.map key ∨ k ∈ ys.map key) : k ∈ (lay key join xs ys).map key := by
  induction ys generalizing xs with
  | nil => exact h.resolve_right List.not_mem_nil
  | cons y rest ih =>
      rw [lay_cons]
      apply ih
      rw [List.map_cons, List.mem_cons, ← or_assoc] at h
      refine h.imp_left fun h => ?_
      rcases h with h | rfl
      · rw [map_key_place fun x => hjoin x y]
        split
        · exact h
        · exact List.mem_append_left _ h
      · exact mem_map_key_place (fun x => hjoin x y) y xs

theorem forall_lay {p : α → Prop} {xs ys : List α}
    (hp : ∀ x, ∀ y ∈ ys, key x = key y → p x → p y → p (join x y))
    (hxs : ∀ x ∈ xs, p x) (hys : ∀ y ∈ ys, p y) : ∀ x ∈ lay key join xs ys, p x := by
  induction ys generalizing xs with
  | nil => exact hxs
  | cons y rest ih =>
      have hy := hys y List.mem_cons_self
      refine ih (fun x u hu => hp x u (List.mem_cons_of_mem y hu)) ?_
        fun u hu => hys u (List.mem_cons_of_mem y hu)
      exact forall_place hxs hy fun x hx hkey => hp x y List.mem_cons_self hkey (hxs x hx) hy

theorem nodup_lay (hjoin : ∀ x y, key (join x y) = key x) {xs : List α}
    (hxs : (xs.map key).Nodup) (ys : List α) : ((lay key join xs ys).map key).Nodup := by
  induction ys generalizing xs with
  | nil => exact hxs
  | cons y rest ih => exact ih (nodup_place (fun x => hjoin x y) y hxs)

/-- The keys stand in the order in which they are first seen. -/
theorem map_key_lay (hjoin : ∀ x y, key (join x y) = key x) {xs : List α}
    (hxs : (xs.map key).Nodup) (ys : List α) :
    (lay key join xs ys).map key = (xs.map key ++ ys.map key).eraseDups := by
  induction ys generalizing xs with
  | nil =>
      rw [List.map_nil, List.append_nil, eraseDups_of_nodup hxs]
      rfl
  | cons y rest ih =>
      have hplace := map_key_place (fun x => hjoin x y) y xs
      rw [lay_cons, ih (nodup_place (fun x => hjoin x y) y hxs), hplace, List.map_cons]
      split
      · rename_i hy
        rw [eraseDups_append_cons_of_mem hy]
      · rw [List.append_assoc, List.singleton_append]

/-- **Laying lists is associative** if joining items of one key is, and the keys in the middle list
are different. -/
theorem lay_lay {p : α → Prop} (hjoin : ∀ x y, key (join x y) = key x) {ys zs : List α}
    (hp : ∀ y, ∀ z ∈ zs, key y = key z → p y → p z → p (join y z))
    (hys : (ys.map key).Nodup) (hpys : ∀ y ∈ ys, p y) (hpzs : ∀ z ∈ zs, p z)
    (hassoc : ∀ x y, p y → ∀ z ∈ zs, key x = key y → key y = key z →
      join (join x y) z = join x (join y z)) (xs : List α) :
    lay key join xs (lay key join ys zs) = lay key join (lay key join xs ys) zs := by
  induction zs generalizing ys with
  | nil => rfl
  | cons z rest ih =>
      have hz := hpzs z List.mem_cons_self
      have hplaced : ∀ y ∈ place key (fun x => join x z) z ys, p y :=
        forall_place hpys hz fun y hy hkey => hp y z List.mem_cons_self hkey (hpys y hy) hz
      have hrest := ih (fun y u hu => hp y u (List.mem_cons_of_mem z hu))
        (nodup_place (fun x => hjoin x z) z hys) hplaced
        (fun u hu => hpzs u (List.mem_cons_of_mem z hu))
        (fun x y hy u hu => hassoc x y hy u (List.mem_cons_of_mem z hu))
      rw [lay_cons, hrest, lay_place hjoin hys
        (fun x y hy => hassoc x y (hpys y hy) z List.mem_cons_self), lay_cons]

theorem lay_of_subset {xs ys : List α} (hxs : (xs.map key).Nodup) (hys : ∀ y ∈ ys, y ∈ xs)
    (hjoin : ∀ y ∈ ys, join y y = y) : lay key join xs ys = xs := by
  induction ys with
  | nil => rfl
  | cons y rest ih =>
      have hplaced : place key (fun x => join x y) y xs = xs :=
        place_of_mem hxs (hys y List.mem_cons_self) (hjoin y List.mem_cons_self)
      rw [lay_cons, hplaced]
      exact ih (fun u hu => hys u (List.mem_cons_of_mem y hu))
        fun u hu => hjoin u (List.mem_cons_of_mem y hu)

/-- **A list is not changed by laying it over itself.** -/
theorem lay_self {xs : List α} (hxs : (xs.map key).Nodup) (hjoin : ∀ x ∈ xs, join x x = x) :
    lay key join xs xs = xs :=
  lay_of_subset hxs (fun _ h => h) hjoin

end Keyed

open Keyed (place lay)

/-! ## Tables -/

section Tables

variable {κ α : Type} [DecidableEq κ]

/-- Setting a key is placing its entry: the entry that is there takes the new value. -/
theorem Entries.set_eq_place (k : κ) (v : α) (es : List (κ × α)) :
    Entries.set k v es = place Prod.fst (fun e => (e.1, v)) (k, v) es := by
  induction es with
  | nil => rfl
  | cons e rest ih =>
      rw [Entries.set, place, ih]
      by_cases h : e.1 = k
      · rw [if_pos h, if_pos h, h]
      · rw [if_neg h, if_neg h]

namespace Table

theorem entries_setAll_eq_lay (t : Table κ α) (es : List (κ × α)) :
    (t.setAll es).entries = lay Prod.fst (fun e e' => (e.1, e'.2)) t.entries es := by
  induction es generalizing t with
  | nil => rfl
  | cons e rest ih =>
      have hset : (t.set e.1 e.2).entries = place Prod.fst (fun x => (x.1, e.2)) e t.entries :=
        Entries.set_eq_place e.1 e.2 t.entries
      rw [setAll_cons, ih, hset, Keyed.lay_cons]

theorem overlay_assoc (s t u : Table κ α) :
    (s.overlay t).overlay u = s.overlay (t.overlay u) := by
  apply Table.ext
  simp only [overlay, entries_setAll_eq_lay]
  -- the value of the last one counts, however they are put together
  refine (Keyed.lay_lay (p := fun _ => True) ?_ ?_ t.nodup ?_ ?_ ?_ s.entries).symm
  · exact fun _ _ => rfl
  · exact fun _ _ _ _ _ _ => trivial
  · exact fun _ _ => trivial
  · exact fun _ _ => trivial
  · exact fun _ _ _ _ _ _ _ => rfl

/-- The keys and what is read at them make up the table. -/
theorem entries_eq_filterMap (t : Table κ α) :
    t.entries = t.keys.filterMap fun k => (t.get? k).map (k, ·) := by
  rw [keys, List.filterMap_map]
  refine (List.filterMap_some.symm.trans (List.filterMap_congr fun e he => ?_))
  have hget : t.get? e.1 = some e.2 := get?_eq_some_iff.2 he
  rw [Function.comp, hget]
  rfl

theorem ext_get? {t u : Table κ α} (hkeys : t.keys = u.keys) (hget : ∀ k, t.get? k = u.get? k) :
    t = u := by
  apply Table.ext
  rw [entries_eq_filterMap t, entries_eq_filterMap u, hkeys]
  simp only [hget]

/-- Of two values that are set for a key, the second one counts. -/
theorem set_set (t : Table κ α) (k : κ) (a b : α) : (t.set k a).set k b = t.set k b := by
  have hmem : k ∈ (t.set k a).keys := by
    rw [keys_set]
    split
    · assumption
    · exact List.mem_append_right _ (List.mem_singleton_self k)
  refine ext_get? ?_ fun k' => ?_
  · rw [keys_set, if_pos hmem, keys_set, keys_set]
  · rw [get?_set, get?_set, get?_set]
    split <;> rfl

/-- To lay over a table what some entries make up is to set the entries in it. -/
theorem overlay_ofList (t : Table κ α) (es : List (κ × α)) :
    t.overlay (ofList es) = t.setAll es := by
  apply Table.ext
  simp only [overlay, ofList, entries_setAll_eq_lay]
  refine Eq.trans
    (Keyed.lay_lay (p := fun _ => True) ?_ ?_ (empty : Table κ α).nodup ?_ ?_ ?_ t.entries) rfl
  · exact fun _ _ => rfl
  · exact fun _ _ _ _ _ _ => trivial
  · exact fun _ _ => trivial
  · exact fun _ _ => trivial
  · exact fun _ _ _ _ _ _ _ => rfl

/-- Each key stands where it was first set. -/
theorem keys_setAll_eq (t : Table κ α) (es : List (κ × α)) :
    (t.setAll es).keys = (t.keys ++ es.map Prod.fst).eraseDups := by
  have hjoin : ∀ e e' : κ × α, (e.1, e'.2).1 = e.1 := fun _ _ => rfl
  rw [keys, entries_setAll_eq_lay]
  exact Keyed.map_key_lay hjoin t.nodup es

/-- Each key has the value that was set last. -/
theorem get?_setAll_eq (t : Table κ α) (es : List (κ × α)) (k : κ) :
    (t.setAll es).get? k =
      (((es.filter (·.1 = k)).getLast?).map Prod.snd).or (t.get? k) := by
  induction es generalizing t with
  | nil => rfl
  | cons e rest ih =>
      rw [setAll_cons, ih, get?_set]
      by_cases h : e.1 = k
      · rw [List.filter_cons_of_pos (by simpa using h), if_pos h.symm, List.getLast?_cons]
        cases (rest.filter (·.1 = k)).getLast? <;> rfl
      · rw [List.filter_cons_of_neg (by simpa using h), if_neg (Ne.symm h)]

theorem overlay_self (t : Table κ α) : t.overlay t = t := by
  apply Table.ext
  rw [overlay, entries_setAll_eq_lay]
  exact Keyed.lay_self t.nodup fun _ _ => rfl

end Table

end Tables

/-! ## Links -/

namespace Link

variable {ρ : Type}

theorem beyond_append (known xs ys : List (Link ρ)) :
    beyond known (xs ++ ys) = beyond known xs ++ beyond known ys :=
  List.filter_append _ _

theorem beyond_self (ls : List (Link ρ)) : beyond ls ls = [] := by
  refine List.filter_eq_nil_iff.2 fun l hl => ?_
  have hany : ls.any (fun k => k.ident == l.ident) = true :=
    List.any_eq_true.2 ⟨l, hl, beq_self_eq_true l.ident⟩
  rw [hany]
  exact Bool.false_ne_true

/-- Among links and those that another list adds to them, a link is found that is found in one of
the two lists. -/
theorem any_append_beyond (xs ys : List (Link ρ)) (i : Nat) :
    (xs ++ beyond xs ys).any (fun k => k.ident == i) =
      (xs.any (fun k => k.ident == i) || ys.any (fun k => k.ident == i)) := by
  rw [List.any_append]
  cases hxs : xs.any (fun k => k.ident == i) with
  | true => rfl
  | false =>
      rw [Bool.false_or, Bool.false_or, beyond, List.any_filter]
      -- a link of this number is not among the first ones, so it is added
      refine List.any_congr rfl fun k => ?_
      by_cases hk : k.ident = i
      · rw [hk, hxs]
        rfl
      · rw [beq_false_of_ne hk, Bool.and_false]

theorem beyond_append_beyond (xs ys zs : List (Link ρ)) :
    beyond (xs ++ beyond xs ys) zs = beyond xs (beyond ys zs) := by
  unfold beyond
  rw [List.filter_filter]
  refine List.filter_congr fun l _ => ?_
  rw [← Bool.not_or]
  exact congrArg _ (any_append_beyond xs ys l.ident)

theorem append_beyond_assoc (xs ys zs : List (Link ρ)) :
    xs ++ beyond xs ys ++ beyond (xs ++ beyond xs ys) zs =
      xs ++ beyond xs (ys ++ beyond ys zs) := by
  rw [beyond_append_beyond, beyond_append, List.append_assoc]

theorem append_beyond_self (ls : List (Link ρ)) : ls ++ beyond ls ls = ls := by
  rw [beyond_self, List.append_nil]

end Link

/-! ## Nodes -/

namespace Node

variable {ρ : Type}

theorem absorb_assoc (a b c : Node ρ) : (a.absorb b).absorb c = a.absorb (b.absorb c) := by
  simp only [absorb, Table.overlay_assoc, Link.append_beyond_assoc]

theorem absorb_self (a : Node ρ) : a.absorb a = a := by
  obtain ⟨ident, name, attrs, links⟩ := a
  show Node.mk ident name (attrs.overlay attrs) (links ++ Link.beyond links links) = _
  rw [Table.overlay_self, Link.append_beyond_self]

end Node

end DotDoc
