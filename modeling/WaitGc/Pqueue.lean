/-
  WAITGC verification — the vendored priority queue (`pqueue/pqueue.c`).

  A binary heap in an array of pointers, with callbacks for the priority and
  the position of a node; slot `0` is unused and `size` counts it.  Nodes live
  in a store `ns : ℕ → ν` and a pointer to node `a` is the slot `.ptr a`.  The
  array comes from `kmalloc`, so a slot outside the live range holds any word:
  `NULL`, a pointer to some node, or a stray pointer (`.wild`).  An operation
  returns `none` if it dereferences a slot that holds no node.

  The loops of `bubble_up` and `percolate_down` are recursions with a fuel
  that bounds their number of iterations.
-/
import Mathlib.Data.Nat.Notation
import Mathlib.Logic.Function.Basic

namespace WaitGc

/-- The content of a queue slot. -/
inductive Slot where
  | null
  | ptr (a : ℕ)
  | wild
  deriving DecidableEq, Repr

/-- `pqueue_t`, without the callbacks. -/
structure Pqueue where
  size : ℕ
  avail : ℕ
  d : ℕ → Slot

/-- The callbacks of a queue over nodes of type `ν`. -/
structure PqueueOps (ν : Type) where
  cmppri : ℕ → ℕ → Bool
  getpri : ν → ℕ
  setpri : ν → ℕ → ν
  getpos : ν → ℕ
  setpos : ν → ℕ → ν

namespace Pqueue

/-- `pqueue_init(n, ..)`, with the words `junk` that `kmalloc` left in the
    array. -/
def init (n : ℕ) (junk : ℕ → Slot) : Pqueue := ⟨1, n + 1, junk⟩

/-- `pqueue_size`. -/
def pqueueSize (q : Pqueue) : ℕ := q.size - 1

/-- The node slot `i` points to. -/
def node (q : Pqueue) (i : ℕ) : Option ℕ :=
  match q.d i with
  | .ptr a => some a
  | _ => none

/-- `q->d[i] = s`. -/
def set (q : Pqueue) (i : ℕ) (s : Slot) : Pqueue := { q with d := Function.update q.d i s }

section
variable {ν : Type} (ops : PqueueOps ν)

/-- `q->d[i] = a; q->setpos(a, i)`. -/
def place (q : Pqueue) (ns : ℕ → ν) (i a : ℕ) : Pqueue × (ℕ → ν) :=
  (q.set i (.ptr a), Function.update ns a (ops.setpos (ns a) i))

/-- The loop of `bubble_up`: where the moving node ends up. -/
def bubbleUpLoop (movingPri : ℕ) : ℕ → Pqueue → (ℕ → ν) → ℕ → Option (Pqueue × (ℕ → ν) × ℕ)
  | 0, q, ns, i => some (q, ns, i)
  | fuel + 1, q, ns, i =>
    if 1 < i then do
      let p ← q.node (i / 2)
      if ops.cmppri (ops.getpri (ns p)) movingPri then
        let (q, ns) := place ops q ns i p
        bubbleUpLoop movingPri fuel q ns (i / 2)
      else some (q, ns, i)
    else some (q, ns, i)

/-- `bubble_up`. -/
def bubbleUp (q : Pqueue) (ns : ℕ → ν) (i : ℕ) : Option (Pqueue × (ℕ → ν)) := do
  let m ← q.node i
  let (q, ns, i) ← bubbleUpLoop ops (ops.getpri (ns m)) i q ns i
  some (place ops q ns i m)

/-- `maxchild`: the child to swap with, `0` if there is none. -/
def maxchild (q : Pqueue) (ns : ℕ → ν) (i : ℕ) : Option ℕ :=
  let child := 2 * i
  if q.size ≤ child then some 0
  else if child + 1 < q.size then do
    let l ← q.node child
    let r ← q.node (child + 1)
    some (if ops.cmppri (ops.getpri (ns l)) (ops.getpri (ns r)) then child + 1 else child)
  else some child

/-- The loop of `percolate_down`. -/
def percolateDownLoop (movingPri : ℕ) :
    ℕ → Pqueue → (ℕ → ν) → ℕ → Option (Pqueue × (ℕ → ν) × ℕ)
  | 0, q, ns, i => some (q, ns, i)
  | fuel + 1, q, ns, i => do
    let child ← maxchild ops q ns i
    if child = 0 then some (q, ns, i)
    else do
      let c ← q.node child
      if ops.cmppri movingPri (ops.getpri (ns c)) then
        let (q, ns) := place ops q ns i c
        percolateDownLoop movingPri fuel q ns child
      else some (q, ns, i)

/-- `percolate_down`. -/
def percolateDown (q : Pqueue) (ns : ℕ → ν) (i : ℕ) : Option (Pqueue × (ℕ → ν)) := do
  let m ← q.node i
  let (q, ns, i) ← percolateDownLoop ops (ops.getpri (ns m)) q.size q ns i
  some (place ops q ns i m)

/-- `pqueue_insert`; a full queue is reported and written past its end. -/
def pqueueInsert (q : Pqueue) (ns : ℕ → ν) (a : ℕ) : Option (Pqueue × (ℕ → ν)) :=
  let i := q.size
  bubbleUp ops { q with size := q.size + 1, d := Function.update q.d i (.ptr a) } ns i

/-- `pqueue_change_priority`. -/
def pqueueChangePriority (q : Pqueue) (ns : ℕ → ν) (newPri a : ℕ) :
    Option (Pqueue × (ℕ → ν)) :=
  let oldPri := ops.getpri (ns a)
  let ns := Function.update ns a (ops.setpri (ns a) newPri)
  let posn := ops.getpos (ns a)
  if ops.cmppri oldPri newPri then bubbleUp ops q ns posn else percolateDown ops q ns posn

/-- `pqueue_remove`. -/
def pqueueRemove (q : Pqueue) (ns : ℕ → ν) (a : ℕ) : Option (Pqueue × (ℕ → ν)) := do
  let posn := ops.getpos (ns a)
  let q := { q with size := q.size - 1 }
  let q := q.set posn (q.d q.size)
  let m ← q.node posn
  if ops.cmppri (ops.getpri (ns a)) (ops.getpri (ns m)) then bubbleUp ops q ns posn
  else percolateDown ops q ns posn

/-- `pqueue_pop`: the head and the queue without it; `none` for the `NULL`
    that an empty queue returns. -/
def pqueuePop (q : Pqueue) (ns : ℕ → ν) : Option (Option ℕ × Pqueue × (ℕ → ν)) :=
  if q.size = 1 then some (none, q, ns)
  else do
    let head ← q.node 1
    let q := { q with size := q.size - 1 }
    let q := q.set 1 (q.d q.size)
    let (q, ns) ← percolateDown ops q ns 1
    some (some head, q, ns)

/-- `subtree_is_valid`: no priority below slot `pos` is better than the one above it. -/
def subtreeIsValid (q : Pqueue) (ns : ℕ → ν) : ℕ → ℕ → Option Bool
  | 0, _ => some true
  | fuel + 1, pos => do
    let childIsValid (child : ℕ) : Option Bool :=
      if child < q.size then do
        let p ← q.node pos
        let n ← q.node child
        if ops.cmppri (ops.getpri (ns p)) (ops.getpri (ns n)) then some false
        else subtreeIsValid q ns fuel child
      else some true
    if ← childIsValid (2 * pos) then childIsValid (2 * pos + 1) else some false

/-- `pqueue_is_valid`. -/
def pqueueIsValid (q : Pqueue) (ns : ℕ → ν) : Option Bool := subtreeIsValid ops q ns q.size 1

end

/-- `pqueue_peek`: `.null` if the queue is empty. -/
def pqueuePeek (q : Pqueue) : Slot := if q.size = 1 then .null else q.d 1

end Pqueue

end WaitGc
