import DotDoc.Session.Equality
import DotDoc.Session.World
import DotDoc.Text.Part

set_option autoImplicit false

/-!
# Items of values

Tables and maps hold values at keys, lists and texts at positions. Whether a
value holds another one is asked of the keys of tables and maps, of the items of
lists and of the parts of texts. Main statement: `lt_of_indexAt?`, that a position
means nothing beyond the ends.
-/

namespace DotDoc

/-- The index that a position means in a sequence of the given length. Negative
positions count from the end. -/
def indexAt? (length : Nat) (position : Int) : Option Nat :=
  let i := if position < 0 then position + length else position
  if 0 ≤ i ∧ i < length then some i.toNat else none

theorem lt_of_indexAt? {length i : Nat} {position : Int}
    (h : indexAt? length position = some i) : i < length := by
  simp only [indexAt?, Option.ite_none_right_eq_some, Option.some.injEq] at h
  omega

namespace Value

/-- The position that a value stands for. Truth values count as one and zero. -/
def position? : Value → Option Int
  | bool b => some (if b then 1 else 0)
  | int i => some i
  | _ => Option.none

/-- The value at a position of a sequence. -/
def pick (items : List Value) (position : Int) : Act Value :=
  match (indexAt? items.length position).bind fun i => items[i]? with
  | some v => return v
  | .none => throw .noSuchPosition

/-- The value that another one holds at a key or at a position. The keys of tables
are texts; another value can be asked for if it can be a key at all. -/
def item (v key : Value) : Act Value :=
  match v with
  | table t => do
    if !key.isKey then throw .unusableKey
    match key with
    | text k => (t.get? k).elim (throw .missingKey) fun a => return ofAttr a
    | _ => throw .missingKey
  | map _ entries => do
    if !key.isKey then throw .unusableKey
    (entries.find? fun e => same e.1 key).elim (throw .missingKey) fun e => return e.2
  | list _ items => key.position?.elim (throw .misuse) (pick items)
  | text s =>
    key.position?.elim (throw .misuse) (pick (s.toList.map fun c => text (String.singleton c)))
  | _ => throw .misuse

/-- The value holds another one: as a key, as an item or as a part. -/
def holds (v key : Value) : Act Bool :=
  match v with
  | table t => do
    if !key.isKey then throw .unusableKey
    match key with
    | text k => return (t.get? k).isSome
    | _ => return false
  | map _ entries => do
    if !key.isKey then throw .unusableKey
    return entries.any fun e => same e.1 key
  | list _ items => return items.any fun e => same e key
  | text s =>
    match key with
    | text part => return Text.isPart part.toList s.toList
    | _ => throw .misuse
  | _ => throw .misuse

end Value

end DotDoc
