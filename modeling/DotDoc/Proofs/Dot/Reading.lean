import DotDoc.Proofs.Dot.Legible
import Mathlib.Data.List.DropRight
import Mathlib.Algebra.Group.Nat.Even

set_option autoImplicit false

/-!
# Reading a quoted text back

A reader of documents gets a text back from between its quotes: a backslash in front of a quote
makes it part of the text, two backslashes stay two, and a backslash at the end of a line joins it
with the next one. The writer puts backslashes in front of quotes only, so those of the text itself
take part in what the reader sees.

`readQuoted_ident` says which plain texts come back as they were, with the reader stopping where the
identifier ends.
-/

namespace DotDoc.Dot

variable {c : Char} {front text r s u input : List Char}

/-! ## The reader -/

/-- What has been read, with `read` in front. -/
def withRead (read : List Char) : Option (List Char × List Char) → Option (List Char × List Char) :=
  Option.map (Prod.map (read ++ ·) id)

@[simp] theorem withRead_some : withRead front (some (u, s)) = some (front ++ u, s) := rfl

@[simp] theorem withRead_none : withRead front none = none := rfl

theorem withRead_nil (x : Option (List Char × List Char)) : withRead [] x = x := by
  rcases x with _ | ⟨u, s⟩ <;> simp

theorem withRead_append (x : Option (List Char × List Char)) :
    withRead (front ++ text) x = withRead front (withRead text x) := by
  rcases x with _ | ⟨u, s⟩ <;> simp

/-- Read up to the quote that ends a text. The result is the text and what follows the quote. -/
def readText : List Char → Option (List Char × List Char)
  | [] => none
  | '"' :: rest => some ([], rest)
  | '\\' :: '"' :: rest => withRead ['"'] (readText rest)
  | '\\' :: '\\' :: rest => withRead ['\\', '\\'] (readText rest)
  | '\\' :: '\n' :: rest => readText rest
  | c :: rest => withRead [c] (readText rest)

/-- Read a text between quotes. -/
def readQuoted : List Char → Option (List Char × List Char)
  | '"' :: rest => readText rest
  | _ => none

theorem readText_plain (hslash : c ≠ '\\') (hquote : c ≠ '"') :
    readText (c :: input) = withRead [c] (readText input) := by
  rw [readText]
  · exact hquote
  · exact fun _ h => absurd h hslash
  · exact fun _ h => absurd h hslash
  · exact fun _ h => absurd h hslash

/-- A backslash in front of an ordinary sign is one itself. -/
theorem readText_slash (hslash : c ≠ '\\') (hquote : c ≠ '"') (hline : c ≠ '\n') :
    readText ('\\' :: c :: input) = withRead ['\\', c] (readText input) := by
  rw [readText, readText_plain hslash hquote, ← withRead_append]
  · rfl
  · decide
  all_goals simp_all

theorem withRead_eq_some {x : Option (List Char × List Char)} (h : withRead front x = some (u, s)) :
    ∃ v, x = some (v, s) ∧ u = front ++ v := by
  cases x with
  | none => simp at h
  | some p =>
      obtain ⟨v, t⟩ := p
      simp only [withRead_some, Option.some.injEq, Prod.mk.injEq] at h
      obtain ⟨rfl, rfl⟩ := h
      exact ⟨v, rfl, rfl⟩

/-- At least the quote that ends the text is used up. -/
theorem length_lt_of_readText (h : readText input = some (u, s)) : s.length < input.length := by
  induction input using readText.induct generalizing u with
  | case1 => simp [readText] at h
  | case2 rest =>
      simp only [readText, Option.some.injEq, Prod.mk.injEq] at h
      obtain ⟨-, rfl⟩ := h
      simp
  | case3 rest ih | case4 rest ih =>
      rw [readText] at h
      obtain ⟨v, hv, -⟩ := withRead_eq_some h
      have := ih hv
      simp only [List.length_cons]
      omega
  | case5 rest ih =>
      rw [readText] at h
      have := ih h
      simp only [List.length_cons]
      omega
  | case6 c rest hquote hq hs hn ih =>
      rw [readText] at h
      · obtain ⟨v, hv, -⟩ := withRead_eq_some h
        have := ih hv
        simp only [List.length_cons]
        omega
      all_goals assumption

/-! ## Runs of backslashes -/

/-- A run of backslashes in front of this text needs a partner for each of them: the text is empty,
or it begins with a quote or with a new line. -/
def EndsRun (text : List Char) : Prop := ∀ c ∈ text.head?, c = '"' ∨ c = '\n'

/-- Every run of backslashes that a quote, a new line or the end of the text follows has an even
length, counted from where it begins. -/
def BackslashesPaired (text : List Char) : Prop :=
  ∀ front n back, text = front ++ (List.replicate n '\\' ++ back) → front.getLast? ≠ some '\\' →
    EndsRun back → Even n

/-- How many backslashes stand at the end. -/
def slashes (text : List Char) : Nat := (text.rtakeWhile (· == '\\')).length

theorem slashes_concat_slash : slashes (front ++ ['\\']) = slashes front + 1 := by
  simp [slashes]

theorem slashes_concat (hslash : c ≠ '\\') : slashes (front ++ [c]) = 0 := by
  simp [slashes, hslash]

theorem slashes_append_replicate (n : Nat) (hfront : front.getLast? ≠ some '\\') :
    slashes (front ++ List.replicate n '\\') = n := by
  induction n with
  | zero =>
      rcases List.eq_nil_or_concat front with rfl | ⟨front, c, rfl⟩
      · rfl
      · have hslash : c ≠ '\\' := by simpa using hfront
        simpa using slashes_concat hslash
  | succ n ih =>
      rw [List.replicate_succ', ← List.append_assoc, slashes_concat_slash, ih]

/-- The backslashes at the end, and what stands in front of them. -/
theorem exists_eq_append_slashes (text : List Char) :
    ∃ front, text = front ++ List.replicate (slashes text) '\\' ∧ front.getLast? ≠ some '\\' := by
  refine ⟨text.rdropWhile (· == '\\'), ?_, ?_⟩
  · have hrun : text.rtakeWhile (· == '\\') = List.replicate (slashes text) '\\' :=
      List.eq_replicate_iff.2 ⟨rfl, fun c hc => by simpa using List.mem_rtakeWhile_imp hc⟩
    rw [← hrun, List.rdropWhile_append_rtakeWhile]
  · intro hlast
    have hne : text.rdropWhile (· == '\\') ≠ [] := by
      rintro hnil
      simp [hnil] at hlast
    have := List.rdropWhile_last_not (· == '\\') text hne
    rw [List.getLast?_eq_some_getLast hne, Option.some.injEq] at hlast
    simp [hlast] at this

theorem backslashesPaired_iff :
    BackslashesPaired text ↔ ∀ front back, text = front ++ back → EndsRun back →
      Even (slashes front) := by
  constructor
  · intro h front back htext hback
    obtain ⟨start, hstart, hlast⟩ := exists_eq_append_slashes front
    refine h start _ back ?_ hlast hback
    rw [htext, ← List.append_assoc, ← hstart]
  · intro h front n back htext hlast hback
    have := h (front ++ List.replicate n '\\') back (by rw [htext, List.append_assoc]) hback
    rwa [slashes_append_replicate n hlast] at this

/-- Go through a text, knowing whether the number of backslashes in front of it is odd. -/
def pairedFrom : Bool → List Char → Bool
  | odd, [] => !odd
  | odd, c :: rest =>
    if c = '\\' then pairedFrom (!odd) rest
    else !(odd && (c == '"' || c == '\n')) && pairedFrom false rest

theorem pairedFrom_iff (text front : List Char) :
    pairedFrom (slashes front % 2 == 1) text = true ↔
      ∀ mid back, text = mid ++ back → EndsRun back → Even (slashes (front ++ mid)) := by
  induction text generalizing front with
  | nil =>
      simp [pairedFrom, EndsRun, Nat.even_iff]
  | cons c rest ih =>
      -- either the run ends in front of the first sign or it ends behind it
      have hsplit : (∀ mid back, c :: rest = mid ++ back → EndsRun back →
            Even (slashes (front ++ mid))) ↔
          (EndsRun (c :: rest) → Even (slashes front)) ∧
            ∀ mid back, rest = mid ++ back → EndsRun back →
              Even (slashes (front ++ [c] ++ mid)) := by
        constructor
        · intro h
          refine ⟨fun hends => by simpa using h [] _ rfl hends, ?_⟩
          intro mid back hrest hback
          simpa using h (c :: mid) back (by rw [hrest, List.cons_append]) hback
        · rintro ⟨hhere, hlater⟩ mid back htext hback
          cases mid with
          | nil =>
              obtain rfl : c :: rest = back := htext
              simpa using hhere hback
          | cons d mid =>
              obtain ⟨rfl, hrest⟩ := List.cons.inj htext
              simpa using hlater mid back hrest hback
      rw [hsplit, ← ih]
      by_cases hslash : c = '\\'
      · have hends : ¬ EndsRun (c :: rest) := by simp [EndsRun, hslash]
        have hodd : ((slashes front + 1) % 2 == 1) = !(slashes front % 2 == 1) := by
          rcases Nat.mod_two_eq_zero_or_one (slashes front) with h | h <;> simp [Nat.add_mod, h]
        simp only [hends, IsEmpty.forall_iff, true_and]
        rw [hslash, slashes_concat_slash, hodd, pairedFrom, if_pos rfl]
      · rw [slashes_concat hslash, pairedFrom, if_neg hslash, Bool.and_eq_true]
        refine and_congr ?_ Iff.rfl
        rw [Bool.not_eq_true', Bool.and_eq_false_imp, Nat.even_iff]
        simp only [EndsRun, List.head?_cons, Option.mem_def, Option.some.injEq, forall_eq',
          beq_iff_eq, Bool.or_eq_false_iff, beq_eq_false_iff_ne]
        rcases Nat.mod_two_eq_zero_or_one (slashes front) with h | h <;> simp [h]

theorem pairedFrom_false : pairedFrom false text = true ↔ BackslashesPaired text := by
  rw [backslashesPaired_iff]
  exact pairedFrom_iff text []

instance (text : List Char) : Decidable (BackslashesPaired text) :=
  decidable_of_iff _ pairedFrom_false

/-! ## Reading what was written -/

/-- The backslash in front of a text whose partner has not been read yet, if there is one. -/
def pending (odd : Bool) : List Char := if odd then ['\\'] else []

/-- A text as it is written behind its opening quote, with what follows. -/
def written (text r : List Char) : List Char := escape ['"'] 0 text ++ '"' :: r

theorem written_nil : written [] r = '"' :: r := rfl

theorem written_cons (c : Char) (text r : List Char) :
    written (c :: text) r = (if c = '"' then ['\\', '"'] else [c]) ++ written text r := by
  by_cases h : c = '"' <;> simp [written, escape_singleton, h]

/-- How the reader goes on over the first sign of a text. -/
theorem readText_written_cons (odd : Bool) (c : Char) (text r : List Char) :
    readText (pending odd ++ written (c :: text) r) =
      if c = '\\' then
        withRead (if odd then ['\\', '\\'] else []) (readText (pending (!odd) ++ written text r))
      else if odd && c == '"' then some (['\\', '\\'], written text r)
      else if odd && c == '\n' then readText (written text r)
      else withRead (pending odd ++ [c]) (readText (written text r)) := by
  rw [written_cons]
  by_cases hslash : c = '\\'
  · cases odd <;> simp [hslash, pending, readText, withRead_nil]
  by_cases hquote : c = '"'
  · cases odd <;> simp [hquote, pending, readText]
  by_cases hline : c = '\n'
  · cases odd <;> simp [hline, pending, readText]
  · cases odd
    · simp [hslash, hquote, pending, readText_plain]
    · simp [hslash, hquote, hline, pending, readText_slash]

/-- Where no backslash lacks its partner, the text is read as it is. -/
theorem readText_written {odd : Bool} (h : pairedFrom odd text = true) :
    readText (pending odd ++ written text r) = some (pending odd ++ text, r) := by
  induction text generalizing odd with
  | nil =>
      obtain rfl : odd = false := by simpa [pairedFrom] using h
      rfl
  | cons c text ih =>
      rw [pairedFrom] at h
      rw [readText_written_cons]
      by_cases hslash : c = '\\'
      · rw [if_pos hslash] at h
        rw [if_pos hslash, ih h, hslash]
        cases odd <;> rfl
      · rw [if_neg hslash, Bool.and_eq_true] at h
        obtain ⟨hends, hrest⟩ := h
        have hread : readText (written text r) = some (text, r) := ih hrest
        cases odd
        · simp [hslash, hread, pending]
        · simp only [Bool.true_and, Bool.not_eq_true', Bool.or_eq_false_iff] at hends
          simp [hslash, hends, hread, pending]

/-- If the reader stops where the written text ends, then it has read no more signs than the text
has, and fewer if a backslash lacks its partner. A quote that is read too early leaves too much
behind it, one that is read as part of the text leaves too little. -/
theorem length_of_readText_written {odd : Bool}
    (h : readText (pending odd ++ written text r) = some (u, r)) :
    u.length ≤ (pending odd ++ text).length ∧
      ((pending odd ++ text).length ≤ u.length → pairedFrom odd text = true) := by
  induction text generalizing odd u with
  | nil =>
      cases odd with
      | false =>
          obtain ⟨rfl, -⟩ : u = [] ∧ True := by simpa [pending, written_nil, readText] using h
          simp [pairedFrom]
      | true =>
          obtain ⟨v, hv, -⟩ := withRead_eq_some h
          exact absurd (length_lt_of_readText hv) (lt_irrefl _)
  | cons c text ih =>
      rw [readText_written_cons] at h
      rw [pairedFrom]
      by_cases hslash : c = '\\'
      · rw [if_pos hslash] at h ⊢
        obtain ⟨v, hv, rfl⟩ := withRead_eq_some h
        obtain ⟨hle, hpaired⟩ := ih hv
        cases odd with
        | false => simpa [pending] using And.intro hle hpaired
        | true =>
            simp only [pending, Bool.not_true, Bool.false_eq_true, if_false, if_true,
              List.length_append, List.length_cons, List.length_nil] at hle hpaired ⊢
            exact ⟨by omega, fun hge => hpaired (by omega)⟩
      rw [if_neg hslash] at h ⊢
      by_cases hquote : (odd && c == '"') = true
      · rw [if_pos hquote] at h
        obtain ⟨-, hrest⟩ := Prod.mk.inj (Option.some.inj h)
        have hlong : r.length < (written text r).length := by
          simp only [written, List.length_append, List.length_cons]
          omega
        exact absurd hlong (by rw [hrest]; exact lt_irrefl _)
      rw [if_neg hquote] at h
      by_cases hline : (odd && c == '\n') = true
      · rw [if_pos hline] at h
        have hread : readText (pending false ++ written text r) = some (u, r) := h
        have hle : u.length ≤ text.length := (ih hread).1
        simp only [List.length_append, List.length_cons]
        exact ⟨by omega, fun hge => by omega⟩
      · rw [if_neg hline] at h
        obtain ⟨v, hv, rfl⟩ := withRead_eq_some h
        have hread : readText (pending false ++ written text r) = some (v, r) := hv
        obtain ⟨hle, hpaired⟩ := ih hread
        simp only [pending, Bool.false_eq_true, if_false, List.nil_append] at hle hpaired
        simp only [List.length_append, List.length_cons, List.length_nil]
        refine ⟨by omega, fun hge => ?_⟩
        rw [hpaired (by omega), Bool.and_true, Bool.and_or_distrib_left,
          eq_false_of_ne_true hquote, eq_false_of_ne_true hline]
        rfl

/-- **Which plain texts are read back.** Behind the identifier of a text, whatever follows, the
reader has the text itself and stops where the identifier ends if and only if the backslashes of the
text stand in pairs wherever a quote, a new line or the end follows. -/
theorem readQuoted_ident (text : String) (r : List Char) :
    readQuoted (ident .standard ⟨text, false⟩ ++ r) = some (text.toList, r) ↔
      BackslashesPaired text.toList := by
  have hread : readQuoted (ident .standard ⟨text, false⟩ ++ r) =
      readText (pending false ++ written text.toList r) := by
    rw [ident_plain, List.cons_append, List.append_assoc]
    rfl
  rw [hread, ← pairedFrom_false]
  constructor
  · intro h
    exact (length_of_readText_written h).2 le_rfl
  · exact readText_written

/-- A backslash at the end takes the closing quote into the text. -/
example : ¬ BackslashesPaired "C:\\".toList := by decide

end DotDoc.Dot
