import DotDoc.Order.Heap

set_option autoImplicit false

/-!
# Predecessors first

Positions `0, …, n - 1` are put in an order in which a position comes before its
successors. Of several positions that could come next the least one does. When
every remaining position has a predecessor among them, as on a cycle, the least
remaining one comes next nevertheless.

The agenda counts for every position the arrows that still point to it, and
keeps the positions without such arrows in a heap.
-/

namespace DotDoc

/-- How far the ordering has come. `incoming` counts the arrows from positions
that are not placed yet, `ready` holds the positions without any, `earliest` is
a lower bound of the positions that are not placed, and `placed` lists the
placed ones, the latest first. -/
structure Agenda (n : Nat) where
  incoming : Vector Nat n
  ready : Heap n
  done : Vector Bool n
  earliest : Nat
  placed : List (Fin n)

namespace Agenda

variable {n : Nat}

/-- One more arrow to each of the given positions. -/
def countArrows (counts : Vector Nat n) (targets : List (Fin n)) : Vector Nat n :=
  targets.foldl (fun (v : Vector Nat n) (t : Fin n) => v.set t.val (v[t.val] + 1)) counts

/-- The agenda before anything is placed, for positions with the given
successors. -/
def start (successors : Fin n → List (Fin n)) : Agenda n :=
  let incoming := countArrows (Vector.replicate n 0) ((List.finRange n).flatMap successors)
  { incoming
    ready := Heap.ofList ((List.finRange n).filter fun i => incoming[i] == 0)
    done := Vector.replicate n false
    earliest := 0
    placed := [] }

/-- The first position from `k` on that is not placed. -/
def firstOpen (done : Vector Bool n) (k : Nat) : Option (Fin n) :=
  if h : k < n then
    if done[k] then firstOpen done (k + 1) else some ⟨k, h⟩
  else none
termination_by n - k

/-- One arrow less to a position, which may thereby become ready. -/
def release (a : Agenda n) (t : Fin n) : Agenda n :=
  let count := a.incoming[t] - 1
  let a := { a with incoming := a.incoming.set t count }
  if count == 0 && !a.done[t] then { a with ready := a.ready.insert t } else a

/-- Place a position, which removes its arrows. -/
def place (successors : Fin n → List (Fin n)) (a : Agenda n) (p : Fin n) : Agenda n :=
  (successors p).foldl release { a with done := a.done.set p true, placed := p :: a.placed }

/-- Place the least ready position, or the least remaining one if none is ready.
A ready position that was placed meanwhile is passed over. -/
def step (successors : Fin n → List (Fin n)) (a : Agenda n) : Agenda n :=
  match a.ready.pop? with
  | some (p, rest) =>
    if a.done[p] then { a with ready := rest } else place successors { a with ready := rest } p
  | none =>
    match firstOpen a.done a.earliest with
    | some p => place successors { a with earliest := p } p
    | none => a

/-- Take a number of steps. -/
def run (successors : Fin n → List (Fin n)) : Nat → Agenda n → Agenda n
  | 0, a => a
  | k + 1, a => run successors k (step successors a)

end Agenda

/-- The positions below `n`, predecessors first. Successors that are the
position itself do not count. -/
def orderedPositions {n : Nat} (successors : Fin n → List (Fin n)) : List (Fin n) :=
  let others := Vector.ofFn fun i => (successors i).filter (· != i)
  (Agenda.run (fun i => others[i]) n (Agenda.start fun i => others[i])).placed.reverse

end DotDoc
