import DotDoc.Proofs.Graph.Entries
import DotDoc.Proofs.Graph.Joining
import DotDoc.Proofs.Graph.Laying

set_option autoImplicit false

/-!
# Members found by looking through the list

A graph finds the member of a name by an index of positions. It could as well look through its
members from the front: an item is merged into the first one of its key, and is put at the end if
there is none or if it has no key (`Keyed.scan`, `Keyed.scanAll`). The two come to the same, down to
the numbers that are handed out, since the index gives the positions of the members at each moment
(`Graph.placeNodes_scan`, `Graph.placeSubgraphs_scan`, `Graph.merge_scan`).

So what placing does can be read off the scans. Keys stand in the order in which they are first
seen, and items without a key all stay (`Keyed.Gathers`). The item of a key is what comes of all
items of that key when they are merged one after the other into the first, and it holds a link as
often as the first of them that holds it (`Keyed.Merging.scanned`). This is asked of merging there:
items that are merged into others have been there before, and the numbers that are handed out
meanwhile make no difference (`Keyed.Merging`).
-/

namespace DotDoc

variable {ρ : Type}

/-! ## Whatever numbers are handed out -/

/-- Two computations give results that are related by `R`, whatever numbers from `n` on the two hand
out. -/
def Supply.Agree {α : Type} (n : Nat) (R : α → α → Prop) (s t : Supply α) : Prop :=
  ∀ k m, n ≤ k → n ≤ m → R (s.run k).1 (t.run m).1 ∧ n ≤ (s.run k).2 ∧ n ≤ (t.run m).2

namespace Supply.Agree

variable {α β : Type} {n : Nat} {R : α → α → Prop} {S : β → β → Prop} {s t : Supply α}

theorem pure {x y : α} (h : R x y) : Agree n R (Pure.pure x) (Pure.pure y) :=
  fun _ _ hk hm => ⟨h, hk, hm⟩

theorem bind {f g : α → Supply β} (h : Agree n R s t) (hfg : ∀ x y, R x y → Agree n S (f x) (g y)) :
    Agree n S (s >>= f) (t >>= g) := by
  intro k m hk hm
  obtain ⟨hR, hk', hm'⟩ := h k m hk hm
  exact hfg _ _ hR _ _ hk' hm'

end Supply.Agree

/-! ## Scanning lists -/

namespace Keyed

section Scan

variable {α κ : Type} [DecidableEq κ] (key? : α → Option κ) (merge : α → α → Supply α)

/-- Look through the items from the front, and merge an item into the first one of its key. It is
put at the end if there is none. An item without a key is not looked for. -/
def scan (y : α) : List α → Supply (List α)
  | [] => return [y]
  | x :: rest => do
    if (key? y).isSome ∧ key? x = key? y then return (← merge x y) :: rest
    else return x :: (← scan y rest)

/-- Take items one after the other, each of them by a scan. -/
def scanAll (xs ys : List α) : Supply (List α) := ys.foldlM (fun xs y => scan key? merge y xs) xs

variable {key? merge} {xs : List α} {x y : α} {k : κ}

theorem scan_of_new (h : ∀ k, key? y = some k → k ∉ xs.filterMap key?) :
    scan key? merge y xs = pure (xs ++ [y]) := by
  induction xs with
  | nil => rfl
  | cons x rest ih =>
      have hother : ¬ ((key? y).isSome ∧ key? x = key? y) := by
        rintro ⟨hsome, hxy⟩
        obtain ⟨k, hk⟩ := Option.isSome_iff_exists.1 hsome
        exact h k hk (List.mem_filterMap.2 ⟨x, List.mem_cons_self, hxy.trans hk⟩)
      have hrest : ∀ k, key? y = some k → k ∉ rest.filterMap key? := by
        intro k hk hmem
        obtain ⟨z, hz, hzk⟩ := List.mem_filterMap.1 hmem
        exact h k hk (List.mem_filterMap.2 ⟨z, List.mem_cons_of_mem x hz, hzk⟩)
      rw [scan, if_neg hother, ih hrest]
      rfl

/-- The first item of the key is the one that the scan stops at. -/
theorem scan_append_cons {above below : List α} (hx : key? x = some k) (hy : key? y = some k)
    (habove : k ∉ above.filterMap key?) :
    scan key? merge y (above ++ x :: below) = do return above ++ (← merge x y) :: below := by
  induction above with
  | nil => exact if_pos ⟨hy ▸ rfl, hx.trans hy.symm⟩
  | cons a rest ih =>
      have hother : ¬ ((key? y).isSome ∧ key? a = key? y) := fun h =>
        habove (List.mem_filterMap.2 ⟨a, List.mem_cons_self, h.2.trans hy⟩)
      have hrest : k ∉ rest.filterMap key? := by
        intro hmem
        obtain ⟨z, hz, hzk⟩ := List.mem_filterMap.1 hmem
        exact habove (List.mem_filterMap.2 ⟨z, List.mem_cons_of_mem a hz, hzk⟩)
      rw [List.cons_append, scan, if_neg hother, ih hrest]
      rfl

/-- If the keys are different, the scan stops at the only item of the key. -/
theorem scan_eq_set {i : Nat} (hxs : (xs.filterMap key?).Nodup) (hi : xs[i]? = some x)
    (hx : key? x = some k) (hy : key? y = some k) :
    scan key? merge y xs = do return xs.set i (← merge x y) := by
  obtain ⟨above, below, rfl, hset⟩ := exists_append_set hi
  rw [scan_append_cons hx hy (notMem_of_nodup_keys hx hxs)]
  simp only [hset]

/-! ## What the scan comes to -/

theorem scanAll_cons (xs : List α) (y : α) (ys : List α) :
    scanAll key? merge xs (y :: ys) =
      scan key? merge y xs >>= fun xs => scanAll key? merge xs ys :=
  List.foldlM_cons

variable {R : α → α → α → Prop} {m : Nat}

/-- One item is joined with the others. -/
theorem scan_joined (hkey : ∀ x y m, key? ((merge x y).run m).1 = key? x)
    (hR : ∀ x, R x y ((merge x y).run m).1) (hxs : (xs.filterMap key?).Nodup) :
    Joined key? R xs [y] ((scan key? merge y xs).run m).1 := by
  by_cases hnew : ∀ k, key? y = some k → k ∉ xs.filterMap key?
  · rw [scan_of_new hnew]
    exact Joined.append hnew
  · -- an item of the key stands somewhere
    push Not at hnew
    obtain ⟨k, hy, hk⟩ := hnew
    obtain ⟨x, hxmem, hx⟩ := List.mem_filterMap.1 hk
    obtain ⟨i, hi⟩ := List.getElem?_of_mem hxmem
    rw [scan_eq_set hxs hi hx hy]
    exact Joined.set hxs hi hx hy ((hkey x y m).trans hx) (hR x)

/-- What becomes of the first item when the others are taken in turn, where `R` tells what two items
make up. -/
inductive Folds (R : α → α → α → Prop) : α → List α → α → Prop
  | alone (x : α) : Folds R x [] x
  | cons {x y z w : α} {ys : List α} : R x y z → Folds R z ys w → Folds R x (y :: ys) w

/-- What comes of the items of `xs` and of others that are placed among them one after the other. -/
structure Gathers (key? : α → Option κ) (R : α → α → α → Prop) (xs zs : List α) : Prop where
  /-- Keys stand in the order in which they are first seen. -/
  keys : zs.filterMap key? = (xs.filterMap key?).eraseDups
  /-- All items without a key are there. -/
  unnamed : zs.filter (fun z => (key? z).isNone) = xs.filter fun x => (key? x).isNone
  /-- The item of a key is what all items of the key make up. -/
  folds : ∀ z ∈ zs, ∀ k, key? z = some k →
    ∃ x ys, xs.filter (key? · = some k) = x :: ys ∧ Folds R x ys z

/-- If the keys are different, there is at most one item of each key. -/
theorem filter_eq_find? (h : (xs.filterMap key?).Nodup) (k : κ) :
    xs.filter (key? · = some k) = (find? key? xs k).toList := by
  induction xs with
  | nil => rfl
  | cons x rest ih =>
      by_cases hx : key? x = some k
      · rw [List.filterMap_cons_some hx, List.nodup_cons] at h
        have hrest := ih h.2
        rw [find?_eq_none.2 h.1] at hrest
        rw [List.filter_cons_of_pos (by simpa using hx), hrest, find?,
          List.find?_cons_of_pos (by simpa using hx)]
        rfl
      · have hnodup : (rest.filterMap key?).Nodup :=
          h.sublist ((List.sublist_cons_self x rest).filterMap key?)
        rw [List.filter_cons_of_neg (by simpa using hx), ih hnodup, find?, find?,
          List.find?_cons_of_neg (by simpa using hx)]

omit [DecidableEq κ] in
theorem nodup_keys_singleton (y : α) : ([y].filterMap key?).Nodup := by
  cases hy : key? y <;> simp [hy]

theorem Joined.nodup {ys zs : List α} (h : Joined key? R xs ys zs)
    (hxs : (xs.filterMap key?).Nodup) (hys : (ys.filterMap key?).Nodup) :
    (zs.filterMap key?).Nodup := by
  rw [h.keys]
  refine List.nodup_append.2 ⟨hxs, hys.filter _, fun k hk l hl hkl => ?_⟩
  have hnot := (List.mem_filter.1 hl).2
  rw [decide_eq_true_iff] at hnot
  exact hnot (hkl ▸ hk)

theorem Gathers.of_nodup (h : (xs.filterMap key?).Nodup) : Gathers key? R xs xs where
  keys := (eraseDups_of_nodup h).symm
  unnamed := rfl
  folds z hz k hk := by
    have hmem : z ∈ xs.filter (key? · = some k) := List.mem_filter.2 ⟨hz, by simpa using hk⟩
    rw [filter_eq_find? h] at hmem ⊢
    rw [Option.mem_toList] at hmem
    rw [hmem]
    exact ⟨z, [], rfl, .alone z⟩

/-- First one item is taken, and then the others. -/
theorem Gathers.cons {xs' ys zs : List α} (hxs : (xs.filterMap key?).Nodup)
    (hfirst : Joined key? R xs [y] xs') (hrest : Gathers key? R (xs' ++ ys) zs) :
    Gathers key? R (xs ++ ([y] ++ ys)) zs where
  keys := by
    rw [hrest.keys, List.filterMap_append, List.filterMap_append, List.filterMap_append,
      hfirst.keys]
    cases hy : key? y with
    | none => simp [hy]
    | some k =>
        rw [List.filterMap_cons_some hy, List.filterMap_nil, List.singleton_append]
        by_cases hk : k ∈ xs.filterMap key?
        · rw [List.filter_cons_of_neg (by simpa using hk), List.filter_nil, List.append_nil,
            eraseDups_append_cons_of_mem hk]
        · rw [List.filter_cons_of_pos (by simpa using hk), List.filter_nil, List.append_assoc,
            List.singleton_append]
  unnamed := by
    rw [hrest.unnamed, List.filter_append, List.filter_append, List.filter_append, hfirst.unnamed,
      List.append_assoc]
  folds z hz k hk := by
    have hone : ([y].filterMap key?).Nodup := nodup_keys_singleton y
    obtain ⟨x, us, hus, hfolds⟩ := hrest.folds z hz k hk
    have hmeets := hfirst.each k
    rw [List.filter_append, filter_eq_find? (hfirst.nodup hxs hone)] at hus
    rw [List.filter_append, List.filter_append, filter_eq_find? hxs, filter_eq_find? hone]
    -- only if both have the key there is something to merge
    generalize find? key? xs k = o, find? key? [y] k = o', find? key? xs' k = o'' at hmeets hus
    cases hmeets with
    | neither => exact ⟨x, us, hus, hfolds⟩
    | left v => exact ⟨x, us, hus, hfolds⟩
    | right v => exact ⟨x, us, hus, hfolds⟩
    | both hR =>
        cases hus
        exact ⟨_, _, rfl, .cons hR hfolds⟩

/-- What merging two items gives with some number from `n` on as the next one. -/
def MadeFrom (merge : α → α → Supply α) (n : Nat) (x y z : α) : Prop :=
  ∃ m, n ≤ m ∧ z = ((merge x y).run m).1

end Scan

end Keyed

/-! ## Links of merged items -/

/-- How often a link of that number is held by the first of the items that holds one. -/
def Link.timesFirst {α : Type} (links : α → List (Link ρ)) (xs : List α) (i : Nat) : Nat :=
  (xs.find? fun x => among (links x) i).elim 0 fun x => times (links x) i

theorem Link.timesFirst_cons {α : Type} (links : α → List (Link ρ)) (x : α) (xs : List α)
    (i : Nat) : timesFirst links (x :: xs) i =
      if among (links x) i then times (links x) i else timesFirst links xs i := by
  rw [timesFirst, List.find?_cons]
  cases among (links x) i <;> rfl

/-- What has the links of one item and those further ones of another that the first one does not
hold stands for the two. -/
theorem Link.timesFirst_merged {α : Type} {links : α → List (Link ρ)} {x y z : α}
    (h : links z = links x ++ beyond (links x) (links y)) (ys : List α) (i : Nat) :
    timesFirst links (z :: ys) i = timesFirst links (x :: y :: ys) i := by
  have hamong : among (links z) i = (among (links x) i || among (links y) i) := by
    rw [h]
    exact any_append_beyond (links x) (links y) i
  have htimes : times (links z) i =
      times (links x) i + if among (links x) i then 0 else times (links y) i := by
    rw [h, times_append, times_beyond]
  rw [timesFirst_cons, timesFirst_cons, timesFirst_cons, hamong, htimes]
  -- the first one, or else the second one, may hold the link
  cases hx : among (links x) i with
  | true => rfl
  | false =>
      rw [times_eq_zero hx, Nat.zero_add, Bool.false_or]
      rfl

namespace Keyed

section Scan

variable {α κ : Type} [DecidableEq κ]

/-! ## Merging items that are there -/

/-- What is asked of merging where the items that are merged into others have numbers below `n`.
Here `same` relates items for which the numbers that are handed out from then on make no
difference. -/
structure Merging (n : Nat) (ident : α → Nat) (key? : α → Option κ) (merge : α → α → Supply α)
    (same : α → α → Prop) (links : α → List (Link ρ)) (items : List α) : Prop where
  before : ∀ y ∈ items, ident y < n
  unique : ∀ x ∈ items, ∀ y ∈ items, ident x = ident y → x = y
  key : ∀ x y m, key? ((merge x y).run m).1 = key? x
  refl : ∀ x, same x x
  agree : ∀ y ∈ items, ∀ x x', same x x' → Supply.Agree n same (merge x y) (merge x' y)
  /-- An item that is merged into itself stays as it is. -/
  itself : ∀ x, ∀ y ∈ items, ident x = ident y → merge x y = pure x
  /-- An item that is merged into another one makes a new one. -/
  other : ∀ x, ∀ y ∈ items, ident x ≠ ident y → ∀ m, n ≤ m → n ≤ ident ((merge x y).run m).1 ∧
    links ((merge x y).run m).1 = links x ++ Link.beyond (links x) (links y)

/-- The items of `zs` are what comes of those of `xs` when those of `ys` are taken one after the
other, each of them by a scan, where `m` is the next number. -/
structure Scanned (n m : Nat) (key? : α → Option κ) (merge : α → α → Supply α)
    (same : α → α → Prop) (links : α → List (Link ρ)) (xs ys zs : List α) : Prop where
  /-- The items are those of the scan, down to their numbers. -/
  scan : zs = ((scanAll key? merge xs ys).run m).1
  /-- Keys stand in the order in which they are first seen. -/
  keys : zs.filterMap key? = ((xs ++ ys).filterMap key?).eraseDups
  /-- The items without a key are all there, and are the very same. -/
  unnamed : zs.filter (fun z => (key? z).isNone) = (xs ++ ys).filter fun x => (key? x).isNone
  /-- The item of a key is the left fold of merging over all items of the key. It holds each link as
  often as the first of them that holds it. -/
  each : ∀ z ∈ zs, ∀ k, key? z = some k → ∃ first rest,
    (xs ++ ys).filter (key? · = some k) = first :: rest ∧
    (∀ m, n ≤ m → same z ((rest.foldlM merge first).run m).1) ∧
    ∀ i, Link.times (links z) i = Link.timesFirst links (first :: rest) i

variable {key? : α → Option κ} {merge : α → α → Supply α} {n m : Nat} {ident : α → Nat}
  {same : α → α → Prop} {links : α → List (Link ρ)} {items xs ys : List α} {x z : α}

namespace Merging

variable (h : Merging n ident key? merge same links items)

include h

theorem le_scan {y : α} (hy : y ∈ items) (xs : List α) (hm : n ≤ m) :
    n ≤ ((scan key? merge y xs).run m).2 := by
  induction xs with
  | nil => exact hm
  | cons x rest ih =>
      rw [scan]
      split
      · exact (h.agree y hy x x (h.refl x) m m hm hm).2.1
      · exact ih

theorem le_scanAll (hys : ∀ y ∈ ys, y ∈ items) (xs : List α) (hm : n ≤ m) :
    n ≤ ((scanAll key? merge xs ys).run m).2 := by
  induction ys generalizing xs m with
  | nil => exact hm
  | cons y rest ih =>
      rw [scanAll_cons]
      exact ih (fun u hu => hys u (List.mem_cons_of_mem y hu)) _
        (h.le_scan (hys y List.mem_cons_self) xs hm)

/-- **Scans gather items.** -/
theorem gathers (hxs : (xs.filterMap key?).Nodup) (hys : ∀ y ∈ ys, y ∈ items) (hm : n ≤ m) :
    Gathers key? (MadeFrom merge n) (xs ++ ys) ((scanAll key? merge xs ys).run m).1 := by
  induction ys generalizing xs m with
  | nil =>
      rw [List.append_nil]
      exact .of_nodup hxs
  | cons y rest ih =>
      have hjoined : Joined key? (MadeFrom merge n) xs [y] ((scan key? merge y xs).run m).1 :=
        scan_joined h.key (fun x => ⟨m, hm, rfl⟩) hxs
      rw [scanAll_cons]
      exact .cons hxs hjoined (ih (hjoined.nodup hxs (nodup_keys_singleton y))
        (fun u hu => hys u (List.mem_cons_of_mem y hu))
        (h.le_scan (hys y List.mem_cons_self) xs hm))

omit [DecidableEq κ] in
/-- What becomes of the first item is the left fold of merging, whatever numbers are handed out in
it. -/
theorem same_foldlM (hfolds : Folds (MadeFrom merge n) x ys z) (hys : ∀ y ∈ ys, y ∈ items) {x' : α}
    (hx : same x x') (hm : n ≤ m) : same z ((ys.foldlM merge x').run m).1 := by
  induction hfolds generalizing x' m with
  | alone x => exact hx
  | @cons x y _ _ rest hxy _ ih =>
      obtain ⟨k, hk, rfl⟩ := hxy
      obtain ⟨hsame, -, hm'⟩ := h.agree y (hys y List.mem_cons_self) x x' hx k m hk hm
      rw [List.foldlM_cons]
      exact ih (fun u hu => hys u (List.mem_cons_of_mem y hu)) hsame hm'

omit [DecidableEq κ] in
/-- **Links come as often as in the first item that holds them.** -/
theorem times_eq (hfolds : Folds (MadeFrom merge n) x ys z) (hys : ∀ y ∈ ys, y ∈ items)
    (hx : x ∈ items ∨ n ≤ ident x) (i : Nat) :
    Link.times (links z) i = Link.timesFirst links (x :: ys) i := by
  induction hfolds with
  | alone x =>
      rw [Link.timesFirst_cons]
      split
      · rfl
      · rename_i hnone
        exact Link.times_eq_zero (Bool.eq_false_iff.2 hnone)
  | @cons x y _ _ rest hxy _ ih =>
      obtain ⟨k, hk, rfl⟩ := hxy
      have hy := hys y List.mem_cons_self
      have hrest : ∀ u ∈ rest, u ∈ items := fun u hu => hys u (List.mem_cons_of_mem y hu)
      by_cases hxy : ident x = ident y
      · -- the number is not new, so the two are one item
        have hlt := h.before y hy
        have hmem : x ∈ items := hx.resolve_right (by omega)
        obtain rfl := h.unique x hmem y hy hxy
        have hself : links x = links x ++ Link.beyond (links x) (links x) :=
          (Link.append_beyond_self (links x)).symm
        rw [h.itself x x hy rfl] at ih
        exact (ih hrest (.inl hmem)).trans (Link.timesFirst_merged hself rest i)
      · obtain ⟨hnew, hlinks⟩ := h.other x y hy hxy k hk
        exact (ih hrest (.inr hnew)).trans (Link.timesFirst_merged hlinks rest i)

/-- **What scans come to**, for items of different keys and others that are taken in turn. -/
theorem scanned (hxs : (xs.filterMap key?).Nodup) (hitems : ∀ x ∈ xs ++ ys, x ∈ items)
    (hm : n ≤ m) :
    Scanned n m key? merge same links xs ys ((scanAll key? merge xs ys).run m).1 := by
  have hys : ∀ y ∈ ys, y ∈ items := fun y hy => hitems y (List.mem_append_right xs hy)
  have hgathers := h.gathers hxs hys hm
  refine ⟨rfl, hgathers.keys, hgathers.unnamed, fun z hz k hk => ?_⟩
  obtain ⟨first, rest, hall, hfolds⟩ := hgathers.folds z hz k hk
  have hmem : ∀ u ∈ first :: rest, u ∈ items := by
    intro u hu
    rw [← hall] at hu
    exact hitems u (List.mem_filter.1 hu).1
  have hrest : ∀ u ∈ rest, u ∈ items := fun u hu => hmem u (List.mem_cons_of_mem first hu)
  refine ⟨first, rest, hall, fun j hj => ?_, fun i => ?_⟩
  · exact h.same_foldlM hfolds hrest (h.refl first) hj
  · exact h.times_eq hfolds hrest (.inl (hmem first List.mem_cons_self)) i

end Merging

end Scan

end Keyed

/-! ## Members of graphs -/

theorem Node.key?_merge (a b : Node ρ) (m : Nat) : ((a.merge b).run m).1.key? = a.key? :=
  congrArg some (Merges.name ⟨m, rfl⟩)

namespace Graph

theorem key?_merge (a b : Graph ρ) (m : Nat) : ((a.merge b).run m).1.key? = a.key? :=
  key?_of_name_eq (Merges.name ⟨m, rfl⟩)

theorem placeNode_scan {g : Graph ρ} (hg : g.Indexed) (n : Node ρ) :
    nodes <$> g.placeNode n = Keyed.scan Node.key? Node.merge n g.nodes := by
  rw [placeNode]
  cases hf : g.nodeAt? n.name with
  | none =>
      rw [Keyed.scan_of_new (key_notMem_of_nodeAt? hg hf)]
      rfl
  | some found =>
      obtain ⟨i, known⟩ := found
      rw [Keyed.scan_eq_set (nodup_nodeKeys hg) (nodeAt?_eq_some hf).2
        (congrArg some (hg.name_of_nodeAt? hf)) rfl]
      rfl

/-- **Nodes are placed as by scanning**, with the same numbers. -/
theorem placeNodes_scan {g : Graph ρ} (hg : g.Indexed) (ns : List (Node ρ)) :
    nodes <$> g.placeNodes ns = Keyed.scanAll Node.key? Node.merge g.nodes ns := by
  induction ns generalizing g with
  | nil => rfl
  | cons n rest ih =>
      funext k
      rw [Keyed.scanAll_cons, ← placeNode_scan hg n]
      exact congrFun (ih (placeNode_joined hg n k).1) ((g.placeNode n).run k).2

theorem placeNodes_indexed {g : Graph ρ} (hg : g.Indexed) (ns : List (Node ρ)) (k : Nat) :
    ((g.placeNodes ns).run k).1.Indexed := by
  induction ns generalizing g k with
  | nil => exact hg
  | cons n rest ih => exact ih (placeNode_joined hg n k).1 ((g.placeNode n).run k).2

/-- **Subgraphs are placed as by scanning**, with the same numbers. -/
theorem placeSubgraphs_scan {g : Graph ρ} (hg : g.Indexed) (ss : List (Graph ρ)) :
    subgraphs <$> g.placeSubgraphs ss = Keyed.scanAll key? merge g.subgraphs ss := by
  induction ss generalizing g with
  | nil =>
      rw [placeSubgraphs]
      rfl
  | cons s rest ih =>
      rw [placeSubgraphs, Keyed.scanAll_cons]
      cases hf : g.subgraphAt? s.name with
      | none =>
          rw [Keyed.scan_of_new (key_notMem_of_subgraphAt? hg hf)]
          exact ih (hg.appendSubgraph hf)
      | some found =>
          obtain ⟨i, known⟩ := found
          obtain ⟨hnamed, -, hi⟩ := subgraphAt?_eq_some hf
          have hname := hg.name_of_subgraphAt? hf
          have hkey : s.key? = some s.name := key?_eq_some.2 ⟨hnamed, rfl⟩
          rw [Keyed.scan_eq_set (nodup_keys hg) hi ((key?_of_name_eq hname).trans hkey) hkey]
          funext k
          exact congrFun (ih (hg.setSubgraph hi (Merges.name ⟨k, rfl⟩)))
            ((known.merge s).run k).2

/-- Merging another graph lays its tables over those of the first, and then places its members. -/
theorem merge_eq_of_ident_ne {a b : Graph ρ} (h : a.ident ≠ b.ident) :
    a.merge b = (a.overlaid b).placeNodes b.nodes >>= fun g =>
      g.placeSubgraphs b.subgraphs >>= renew := by
  obtain ⟨⟩ := b
  rw [merge, if_neg h]

theorem links_merge {a b : Graph ρ} (h : a.ident ≠ b.ident) (k : Nat) :
    ((a.merge b).run k).1.links = a.links ++ Link.beyond a.links b.links := by
  obtain ⟨k', ident, hmerge⟩ := merge_of_ident_ne h k
  obtain ⟨nodes, _, hnodes⟩ := placeNodes_frame b.nodes (a.overlaid b) k
  rw [hmerge, hnodes]
  obtain ⟨subgraphs, _, hsubgraphs⟩ := placeSubgraphs_frame b.subgraphs _ k'
  rw [hsubgraphs]
  rfl

/-- **The members of merged graphs** are those of scans, first for the nodes and then for the
subgraphs. -/
theorem merge_scan {a b : Graph ρ} (ha : a.Indexed) (hb : b.Indexed) (h : a.ident ≠ b.ident)
    {k : Nat} {ns : List (Node ρ)} {k' : Nat}
    (hns : (Keyed.scanAll Node.key? Node.merge a.nodes b.nodes).run k = (ns, k')) :
    ((a.merge b).run k).1.nodes = ns ∧ ((a.merge b).run k).1.subgraphs =
      ((Keyed.scanAll key? merge a.subgraphs b.subgraphs).run k').1 := by
  have hindexed := ha.overlaid hb
  have hnodes : ((((a.overlaid b).placeNodes b.nodes).run k).1.nodes,
      (((a.overlaid b).placeNodes b.nodes).run k).2) = (ns, k') :=
    (congrFun (placeNodes_scan hindexed b.nodes) k).trans hns
  obtain ⟨nodes', nodeIndex, hframe⟩ := placeNodes_frame b.nodes (a.overlaid b) k
  have hplaced := placeNodes_indexed hindexed b.nodes k
  have hmerge : (a.merge b).run k =
      let placed := ((a.overlaid b).placeNodes b.nodes).run k
      (placed.1.placeSubgraphs b.subgraphs >>= renew).run placed.2 := by
    rw [merge_eq_of_ident_ne h]
    rfl
  rw [Prod.mk.injEq] at hnodes
  generalize ((a.overlaid b).placeNodes b.nodes).run k = p at *
  obtain ⟨g, j⟩ := p
  obtain ⟨rfl, rfl⟩ := hnodes
  obtain ⟨subgraphs', subgraphIndex, hframe'⟩ := placeSubgraphs_frame b.subgraphs g j
  have hsubgraphs := congrFun (placeSubgraphs_scan hplaced b.subgraphs) j
  rw [hmerge]
  constructor
  · show ((g.placeSubgraphs b.subgraphs).run j).1.nodes = g.nodes
    rw [hframe']
  · have hsame : g.subgraphs = a.subgraphs := by
      show g.subgraphs = (a.overlaid b).subgraphs
      rw [show g = _ from hframe]
    rw [← hsame]
    exact congrArg Prod.fst hsubgraphs

end Graph

end DotDoc
