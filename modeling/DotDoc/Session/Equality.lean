import DotDoc.Session.Value
import DotDoc.Decimal.Layout

set_option autoImplicit false

/-!
# Equality of values

Plain data are equal by content, numbers of all kinds by what they count. Labels
and ports are equal by content too, and tables as maps, without regard to order.
Everything else is equal only to itself.

What is no number is equal to nothing, not even to itself, nor is a port that
bears it. Items of lists, entries of maps and members of collections match also
if they are the very same value; so a list is equal to itself in any case.
-/

namespace DotDoc

/-- A number by what it counts: a fraction of whole numbers, an infinity, or
none of these. -/
inductive Quantity where
  | ratio (num : Int) (den : Nat)
  | infinite (negative : Bool)
  | undefined

namespace Quantity

/-- The quantity of a floating-point number. -/
def ofFloat (x : Float) : Quantity :=
  let f := Decimal.Fields.ofFloat x
  match f.magnitude? with
  | none => if f.fraction = 0 then infinite f.negative else undefined
  | some (m, q) =>
    let amount : Int := m * Nat.pow 2 q.toNat
    ratio (if f.negative then -amount else amount) (Nat.pow 2 (-q).toNat)

/-- Equal amounts. What is undefined equals nothing. -/
def same : Quantity → Quantity → Bool
  | ratio a b, ratio c d => a * d == c * b
  | infinite a, infinite b => a == b
  | _, _ => false

end Quantity

namespace Value

/-- The amount of a number. Truth values count as one and zero. -/
def quantity? : Value → Option Quantity
  | bool b => some (.ratio (if b then 1 else 0) 1)
  | int i => some (.ratio i 1)
  | float _ x => some (.ofFloat x)
  | _ => Option.none

/-- The identity number of an element, or of another value that has one. -/
def identity? : Value → Option Nat
  | float ident _ => some ident
  | list ident _ => some ident
  | map ident _ => some ident
  | port p => some p.ident
  | node n => some n.ident
  | point p => some p.ident
  | link l => some l.ident
  | graph g => some g.ident
  | graphView ident _ _ => some ident
  | contextView ident _ _ => some ident
  | foreign t => some t.ident
  | _ => Option.none

/-- The two are the very same value. Values without an identity number are told
apart by content only, and contexts by the order in which they came to be. -/
def identical : Value → Value → Bool
  | none, none => true
  | bool x, bool y => x == y
  | int x, int y => x == y
  | text s, text s' => s == s'
  | label l, label l' => l == l'
  | table t, table u => t.entries == u.entries
  | compass c, compass c' => c == c'
  | context c, context c' => c == c'
  | a, b =>
    match a.identity?, b.identity? with
    | some i, some j => i == j
    | _, _ => false

/-- A table and a map have the same entries. -/
def tableMatches (t : AttrTable) (entries : List (Value × Value)) : Bool :=
  entries.length == t.size && entries.all fun
    | (text k, v) =>
      match t.get? k, v with
      | some (.text s), text s' => s == s'
      | some (.label l), label l' => l == l'
      | _, _ => false
    | _ => false

/-- Two tables have the same entries. -/
def tablesMatch (a b : AttrTable) : Bool :=
  a.size == b.size && a.entries.all fun e => b.get? e.1 == some e.2

mutual

/-- Equality of values. -/
def equal : Value → Value → Bool
  | list _ xs, list _ ys => equalItems xs ys
  | map _ xs, map _ ys => xs.length == ys.length && entriesAmong xs ys
  | map _ xs, table t => tableMatches t xs
  | table t, map _ xs => tableMatches t xs
  | table t, table u => tablesMatch t u
  | port ⟨_, r, c⟩, port ⟨_, r', c'⟩ => equalRecords r r' && c == c'
  | a, b =>
    match a.quantity?, b.quantity? with
    | some x, some y => x.same y
    | _, _ => identical a b

/-- Matching items in the same order. -/
def equalItems : List Value → List Value → Bool
  | [], [] => true
  | x :: xs, y :: ys => (identical x y || equal x y) && equalItems xs ys
  | _, _ => false

/-- Every entry of the first map has a matching one in the second. -/
def entriesAmong : List (Value × Value) → List (Value × Value) → Bool
  | [], _ => true
  | (k, v) :: rest, ys =>
    (ys.any fun e => (identical k e.1 || equal k e.1) && (identical v e.2 || equal v e.2))
      && entriesAmong rest ys

/-- Equality of record names. -/
def equalRecords : RecordName Value → RecordName Value → Bool
  | .absent, .absent => true
  | .text s, .text s' => s == s'
  | .label l, .label l' => l == l'
  | .foreign v, .foreign v' => equal v v'
  | _, _ => false

end

/-- The two count as one in a collection: they are the very same value or equal. -/
def same (a b : Value) : Bool := identical a b || equal a b

/-- The number of different values among the given ones. -/
def countDistinct (vs : List Value) : Nat :=
  (vs.foldl (fun seen v => if seen.any (same v) then seen else v :: seen) []).length

/-- Set an entry of a map: a key that is there already keeps its place and takes the value. -/
def setEntry (k v : Value) : List (Value × Value) → List (Value × Value)
  | [] => [(k, v)]
  | (k', v') :: rest => if same k' k then (k', v) :: rest else (k', v') :: setEntry k v rest

/-- A map from entries that are set one after the other. -/
def setEntries (base added : List (Value × Value)) : List (Value × Value) :=
  added.foldl (fun m e => setEntry e.1 e.2 m) base

end Value

end DotDoc
