import DotDoc.Dot.Block
import Mathlib.Data.List.Infix

set_option autoImplicit false

/-!
# Parts that show where they end

An identifier, a list of attributes and a place on a node can be told from any text that begins with
them: what is written determines both the part and the text behind it. This needs labels that are
legible (`Label.Legible`). A plain text must not end with a backslash, since the quote behind it
would look like one of its own, and the angle brackets of a markup text must be balanced.

All this is about the standard dialect.
-/

namespace DotDoc

/-! ## Legible labels -/

/-- No front part of the text closes more angle brackets than it opens, and the whole text closes
all that it opens. -/
def Balanced (text : List Char) : Prop :=
  (∀ p, p <+: text → p.count '>' ≤ p.count '<') ∧ text.count '<' = text.count '>'

instance (text : List Char) : Decidable (Balanced text) :=
  decidable_of_iff
    ((∀ p ∈ text.inits, p.count '>' ≤ p.count '<') ∧ text.count '<' = text.count '>')
    (by simp only [Balanced, List.mem_inits])

/-- A label whose end can be found where it is written. -/
def Label.Legible (l : Label) : Prop :=
  if l.markup then Balanced l.text.toList else l.text.toList.getLast? ≠ some '\\'

instance (l : Label) : Decidable l.Legible := by
  unfold Label.Legible
  infer_instance

namespace Dot

variable {r s : List Char}

/-! ## Identifiers -/

/-- A balanced text cannot go on behind another one with a closing bracket. -/
theorem not_prefix_of_balanced {a b : List Char} (ha : Balanced a) (hb : Balanced b) :
    ¬ a ++ ['>'] <+: b := by
  intro h
  have hcount := hb.1 _ h
  have hall := ha.2
  simp only [List.count_append, List.count_singleton_self] at hcount
  have hnone : ['>'].count '<' = 0 := by decide
  omega

theorem balanced_append_inj {a b : List Char} (ha : Balanced a) (hb : Balanced b)
    (h : a ++ '>' :: r = b ++ '>' :: s) : a = b ∧ r = s := by
  -- of the two texts one is the front part of the other
  rcases List.append_eq_append_iff.1 h with ⟨c, rfl, hc⟩ | ⟨c, rfl, hc⟩
  · cases c with
    | nil => simpa using hc
    | cons x c =>
        obtain rfl : '>' = x := (List.cons.inj hc).1
        exact absurd ⟨c, by simp⟩ (not_prefix_of_balanced ha hb)
  · cases c with
    | nil => simpa [eq_comm] using hc
    | cons x c =>
        obtain rfl : '>' = x := (List.cons.inj hc).1
        exact absurd ⟨c, by simp⟩ (not_prefix_of_balanced hb ha)

/-- An escaped text never begins with a quote. -/
theorem escape_ne_quote {text : List Char} (hne : text ≠ []) :
    escape ['"'] 0 text ++ r ≠ '"' :: s := by
  cases text with
  | nil => exact absurd rfl hne
  | cons c rest =>
      rw [escape_singleton, List.flatMap_cons]
      split
      · simp
      · rename_i hc
        simp [hc]

theorem escape_append_inj {a b : List Char} (ha : a.getLast? ≠ some '\\')
    (hb : b.getLast? ≠ some '\\')
    (h : escape ['"'] 0 a ++ '"' :: r = escape ['"'] 0 b ++ '"' :: s) : a = b ∧ r = s := by
  have htail : ∀ {c : Char} {rest : List Char}, (c :: rest).getLast? ≠ some '\\' →
      rest.getLast? ≠ some '\\' := by
    intro c rest hc hrest
    rw [List.getLast?_cons, hrest] at hc
    exact hc rfl
  -- a backslash in front of the rest of a text is not that of an escaped quote
  have hslash : ∀ {rest t u : List Char}, ('\\' :: rest).getLast? ≠ some '\\' →
      '"' :: t ≠ escape ['"'] 0 rest ++ u := by
    intro rest t u hlast heq
    cases rest with
    | nil => exact hlast rfl
    | cons c rest => exact escape_ne_quote (List.cons_ne_nil c rest) heq.symm
  induction a generalizing b with
  | nil =>
      cases b with
      | nil => exact ⟨rfl, (List.cons.inj h).2⟩
      | cons d b => exact absurd h.symm (escape_ne_quote (List.cons_ne_nil d b))
  | cons c a ih =>
      cases b with
      | nil => exact absurd h (escape_ne_quote (List.cons_ne_nil c a))
      | cons d b =>
          have hrest := ih (b := b) (htail ha) (htail hb)
          simp only [escape_singleton, List.flatMap_cons] at h hrest hslash
          by_cases hc : c = '"' <;> by_cases hd : d = '"'
          · subst hc hd
            simp only [if_true, List.cons_append, List.nil_append, List.cons.injEq,
              true_and] at h
            obtain ⟨rfl, rfl⟩ := hrest h
            exact ⟨rfl, rfl⟩
          · simp only [if_pos hc, if_neg hd, List.cons_append, List.nil_append,
              List.cons.injEq] at h
            obtain ⟨rfl, h⟩ := h
            exact absurd (hc ▸ h) (hslash hb)
          · simp only [if_neg hc, if_pos hd, List.cons_append, List.nil_append,
              List.cons.injEq] at h
            obtain ⟨rfl, h⟩ := h
            exact absurd (hd ▸ h.symm) (hslash ha)
          · simp only [if_neg hc, if_neg hd, List.cons_append, List.nil_append,
              List.cons.injEq] at h
            obtain ⟨rfl, h⟩ := h
            obtain ⟨rfl, rfl⟩ := hrest h
            exact ⟨rfl, rfl⟩

theorem ident_markup (text : String) :
    ident .standard ⟨text, true⟩ = '<' :: (text.toList ++ ['>']) := rfl

theorem ident_plain (text : String) :
    ident .standard ⟨text, false⟩ = '"' :: (escape ['"'] 0 text.toList ++ ['"']) := rfl

/-- The first sign of an identifier says what kind of label follows. -/
theorem head_ident (l : Label) :
    (ident .standard l ++ r).head? = some (if l.markup then '<' else '"') := by
  obtain ⟨text, _ | _⟩ := l
  · rw [ident_plain]
    rfl
  · rw [ident_markup]
    rfl

/-- **An identifier is told from what follows it.** -/
theorem ident_append_inj {a b : Label} (ha : a.Legible) (hb : b.Legible)
    (h : ident .standard a ++ r = ident .standard b ++ s) : a = b ∧ r = s := by
  -- the first sign tells markup from plain text
  have hkind := congrArg List.head? h
  rw [head_ident, head_ident] at hkind
  obtain ⟨a, ma⟩ := a
  obtain ⟨b, mb⟩ := b
  cases ma <;> cases mb
  case false.true => simp at hkind
  case true.false => simp at hkind
  case false.false =>
    rw [ident_plain, ident_plain] at h
    simp only [List.cons_append, List.append_assoc, List.nil_append, List.cons.injEq,
      true_and] at h
    obtain ⟨htext, hrest⟩ := escape_append_inj ha hb h
    exact ⟨congrArg (Label.mk · false) (String.toList_inj.1 htext), hrest⟩
  case true.true =>
    rw [ident_markup, ident_markup] at h
    simp only [List.cons_append, List.append_assoc, List.nil_append, List.cons.injEq,
      true_and] at h
    obtain ⟨htext, hrest⟩ := balanced_append_inj ha hb h
    exact ⟨congrArg (Label.mk · true) (String.toList_inj.1 htext), hrest⟩

/-! ## Sequences -/

/-- Parts in a row, each told from what follows it, are told from what follows them all if that
begins with a sign with which no part begins. -/
theorem flatMap_append_inj {α β : Type} {w : α → List Char} {f : α → β} {stop : Char}
    {xs ys : List α}
    (hpart : ∀ x ∈ xs, ∀ y ∈ ys, ∀ t u, w x ++ t = w y ++ u → f x = f y ∧ t = u)
    (hxs : ∀ x ∈ xs, ∀ t, (w x ++ t).head? ≠ some stop)
    (hys : ∀ y ∈ ys, ∀ t, (w y ++ t).head? ≠ some stop)
    (h : xs.flatMap w ++ stop :: r = ys.flatMap w ++ stop :: s) :
    xs.map f = ys.map f ∧ r = s := by
  induction xs generalizing ys with
  | nil =>
      -- the sign that follows all parts cannot be where a part begins
      cases ys with
      | nil => exact ⟨rfl, (List.cons.inj h).2⟩
      | cons y ys =>
          rw [List.flatMap_cons, List.append_assoc] at h
          exact absurd (congrArg List.head? h.symm) (hys y List.mem_cons_self _)
  | cons x xs ih =>
      cases ys with
      | nil =>
          rw [List.flatMap_cons, List.append_assoc] at h
          exact absurd (congrArg List.head? h) (hxs x List.mem_cons_self _)
      | cons y ys =>
          rw [List.flatMap_cons, List.flatMap_cons, List.append_assoc, List.append_assoc] at h
          obtain ⟨hxy, hrest⟩ := hpart x List.mem_cons_self y List.mem_cons_self _ _ h
          obtain ⟨hmap, hrs⟩ := ih
            (fun x' hx' y' hy' => hpart x' (.tail x hx') y' (.tail y hy'))
            (fun x' hx' => hxs x' (.tail x hx')) (fun y' hy' => hys y' (.tail y hy')) hrest
          exact ⟨by rw [List.map_cons, List.map_cons, hxy, hmap], hrs⟩

/-! ## Attributes -/

/-- The names and the values of the attributes. -/
def AttrList.labels (attrs : AttrList) : List Label :=
  attrs.flatMap fun e => [⟨e.1, false⟩, e.2]

/-- One attribute between brackets. -/
def attrEntry (e : String × Label) : List Char :=
  ident .standard ⟨e.1, false⟩ ++ '=' :: ident .standard e.2

theorem intercalate_cons (sep : Char) (x : List Char) (xs : List (List Char)) :
    [sep].intercalate (x :: xs) = x ++ xs.flatMap (sep :: ·) := by
  induction xs generalizing x with
  | nil => simp
  | cons y rest ih => simp [List.intercalate_cons_cons, ih]

theorem attrList_cons (e : String × Label) (attrs : AttrList) :
    attrList .standard (e :: attrs) =
      '[' :: (attrEntry e ++ (attrs.flatMap (fun e => ',' :: attrEntry e) ++ [']'])) := by
  rw [attrList, List.map_cons, intercalate_cons]
  simp [attrEntry, List.flatMap_map]

variable {xs ys : AttrList}

theorem attrEntry_append_inj {e e' : String × Label} (he : ∀ l ∈ AttrList.labels [e], l.Legible)
    (he' : ∀ l ∈ AttrList.labels [e'], l.Legible) (h : attrEntry e ++ r = attrEntry e' ++ s) :
    e = e' ∧ r = s := by
  simp only [attrEntry, List.append_assoc, List.cons_append] at h
  have hlabels : ∀ e : String × Label, AttrList.labels [e] = [⟨e.1, false⟩, e.2] := fun _ => rfl
  rw [hlabels] at he he'
  obtain ⟨hkey, h⟩ := ident_append_inj (he _ (by simp)) (he' _ (by simp)) h
  obtain ⟨hvalue, hrest⟩ := ident_append_inj (he _ (by simp)) (he' _ (by simp)) (List.cons.inj h).2
  exact ⟨Prod.ext (congrArg Label.text hkey) hvalue, hrest⟩

/-- **A list of attributes is told from what follows it.** -/
theorem attrList_append_inj (hx : ∀ l ∈ AttrList.labels xs, l.Legible)
    (hy : ∀ l ∈ AttrList.labels ys, l.Legible)
    (h : attrList .standard xs ++ r = attrList .standard ys ++ s) : xs = ys ∧ r = s := by
  -- without entries the closing bracket stands where a name would begin
  have hnil : ∀ {e : String × Label} {attrs : AttrList} {t u : List Char},
      attrList .standard [] ++ t ≠ attrList .standard (e :: attrs) ++ u := by
    intro e attrs t u heq
    rw [attrList_cons, attrEntry, ident_plain] at heq
    exact absurd (List.cons.inj (List.cons.inj heq).2).1 (by decide)
  have hmem : ∀ {attrs : AttrList}, (∀ l ∈ AttrList.labels attrs, l.Legible) →
      ∀ e ∈ attrs, ∀ l ∈ AttrList.labels [e], l.Legible := by
    intro attrs hattrs e he l hl
    refine hattrs l (List.mem_flatMap.2 ⟨e, he, ?_⟩)
    simpa [AttrList.labels] using hl
  cases xs with
  | nil =>
      cases ys with
      | nil => exact ⟨rfl, List.append_cancel_left h⟩
      | cons e ys => exact absurd h hnil
  | cons e xs =>
      cases ys with
      | nil => exact absurd h.symm hnil
      | cons e' ys =>
          simp only [attrList_cons, List.cons_append, List.append_assoc, List.nil_append] at h
          obtain ⟨heq, htail⟩ := attrEntry_append_inj (hmem hx e List.mem_cons_self)
            (hmem hy e' List.mem_cons_self) (List.cons.inj h).2
          -- the other entries begin with a comma, and a bracket follows the last one
          have hstart : ∀ (e : String × Label) (t : List Char),
              ((',' :: attrEntry e) ++ t).head? ≠ some ']' := by
            intro e t
            simp
          obtain ⟨hrest, hrs⟩ := flatMap_append_inj (f := id)
            (fun x hxs y hys t u htu => attrEntry_append_inj (hmem hx x (.tail e hxs))
              (hmem hy y (.tail e' hys)) (List.cons.inj htu).2)
            (fun x _ => hstart x) (fun y _ => hstart y) htail
          rw [List.map_id, List.map_id] at hrest
          exact ⟨by rw [heq, hrest], hrs⟩

/-- Attributes up to the end of the line, where there may be none. -/
theorem attrSuffix_append_inj (hx : ∀ l ∈ AttrList.labels xs, l.Legible)
    (hy : ∀ l ∈ AttrList.labels ys, l.Legible)
    (h : attrSuffix .standard xs ++ '\n' :: r = attrSuffix .standard ys ++ '\n' :: s) :
    xs = ys ∧ r = s := by
  cases xs with
  | nil =>
      cases ys with
      | nil => exact ⟨rfl, (List.cons.inj h).2⟩
      | cons e ys => exact absurd (List.cons.inj h).1 (by decide)
  | cons e xs =>
      cases ys with
      | nil => exact absurd (List.cons.inj h).1 (by decide)
      | cons e' ys =>
          obtain ⟨hattrs, hrest⟩ := attrList_append_inj hx hy (List.cons.inj h).2
          exact ⟨hattrs, (List.cons.inj hrest).2⟩

/-! ## Places on nodes -/

/-- What follows a place begins with no sign that could belong to the place. -/
def EndsPlace (r : List Char) : Prop := ∀ c ∈ r.head?, c ≠ ':' ∧ c.isAlpha = false

theorem EndsPlace.ne_colon (hr : EndsPlace r) : r ≠ ':' :: s := by
  rintro rfl
  exact (hr ':' rfl).1 rfl

theorem takeWhile_code (c : Compass) (hr : EndsPlace r) :
    (c.code.toList ++ r).takeWhile Char.isAlpha = c.code.toList := by
  have hcode : ∀ x ∈ c.code.toList, x.isAlpha = true :=
    List.all_eq_true.1 (by cases c <;> decide)
  rw [List.takeWhile_append_of_pos hcode]
  cases r with
  | nil => simp
  | cons x r =>
      have hx : x.isAlpha = false := (hr x rfl).2
      simp [hx]

/-- A side is told from what follows it if no letter follows. -/
theorem code_append_inj {c c' : Compass} (hr : EndsPlace r) (hs : EndsPlace s)
    (h : c.code.toList ++ r = c'.code.toList ++ s) : c = c' ∧ r = s := by
  have hcode : c.code.toList = c'.code.toList := by
    rw [← takeWhile_code c hr, h, takeWhile_code c' hs]
  have hc := Compass.ofCode?_code c
  rw [String.toList_inj.1 hcode, Compass.ofCode?_code, Option.some.injEq] at hc
  exact ⟨hc.symm, List.append_cancel_left (hcode ▸ h)⟩

/-- The side of a place, if it has one. -/
def sideTail (compass : Option Compass) : List Char :=
  compass.elim [] fun c => ':' :: c.code.toList

theorem sideTail_append_inj {c c' : Option Compass} (hr : EndsPlace r) (hs : EndsPlace s)
    (h : sideTail c ++ r = sideTail c' ++ s) : c = c' ∧ r = s := by
  cases c with
  | none =>
      cases c' with
      | none => exact ⟨rfl, h⟩
      | some c' => exact absurd h hr.ne_colon
  | some c =>
      cases c' with
      | none => exact absurd h.symm hs.ne_colon
      | some c' =>
          obtain ⟨rfl, hrest⟩ := code_append_inj hr hs (List.cons.inj h).2
          exact ⟨rfl, hrest⟩

/-- No side is written with the first sign of an identifier. -/
theorem head_code (c : Compass) : ∃ x t, c.code.toList = x :: t ∧ x ≠ '<' ∧ x ≠ '"' := by
  cases c <;> exact ⟨_, _, rfl, by decide, by decide⟩

/-- A record name is no side, nor what follows a place. -/
theorem sideTail_ne_record {c : Option Compass} {l : Label} (hr : EndsPlace r) :
    sideTail c ++ r ≠ ':' :: (ident .standard l ++ s) := by
  intro h
  cases c with
  | none => exact hr.ne_colon h
  | some c =>
      obtain ⟨x, t, hc, hx, hx'⟩ := head_code c
      have hhead : (c.code.toList ++ r).head? = (ident .standard l ++ s).head? :=
        congrArg List.head? (List.cons.inj h).2
      rw [head_ident, hc, List.cons_append, List.head?_cons, Option.some.injEq] at hhead
      split at hhead
      · exact hx hhead
      · exact hx' hhead

/-- **A place on a node is told from what follows it.** -/
theorem point_append_inj {name name' : Label} {record record' : Option Label}
    {compass compass' : Option Compass} (hname : name.Legible) (hname' : name'.Legible)
    (hrecord : ∀ l ∈ record, l.Legible) (hrecord' : ∀ l ∈ record', l.Legible)
    (hr : EndsPlace r) (hs : EndsPlace s)
    (h : point .standard name record compass ++ r = point .standard name' record' compass' ++ s) :
    (name = name' ∧ record = record' ∧ compass = compass') ∧ r = s := by
  have hpoint : ∀ (n : Label) (a : Option Label) (c : Option Compass) (t : List Char),
      point .standard n a c ++ t =
        ident .standard n ++ ((a.elim [] fun l => ':' :: ident .standard l) ++
          (sideTail c ++ t)) := by
    intro n a c t
    simp [point, sideTail]
  rw [hpoint, hpoint] at h
  obtain ⟨rfl, htail⟩ := ident_append_inj hname hname' h
  -- a record name in the one and none in the other cannot be: what follows the colon differs
  cases record with
  | none =>
      cases record' with
      | none =>
          obtain ⟨rfl, hrest⟩ := sideTail_append_inj hr hs htail
          exact ⟨⟨rfl, rfl, rfl⟩, hrest⟩
      | some l' => exact absurd htail (sideTail_ne_record hr)
  | some l =>
      cases record' with
      | none => exact absurd htail.symm (sideTail_ne_record hs)
      | some l' =>
          obtain ⟨rfl, hside⟩ := ident_append_inj (hrecord l rfl) (hrecord' l' rfl)
            (List.cons.inj htail).2
          obtain ⟨rfl, hrest⟩ := sideTail_append_inj hr hs hside
          exact ⟨⟨rfl, rfl, rfl⟩, hrest⟩

end Dot

end DotDoc
