import SymbolicPaths.Comp
import SymbolicPaths.Unifier
/-!
# Primitives

The computations that look into a state.  From a program's side they read like effects on variables
and heap; each one inspects the state that it is given and answers with the branches that go on.

* Variables: `readVar`, `storeVar`, `getStore`, `putStore`.
* Heap: `getHeap`, `putHeap`, `addChunk`, `writeHeap`, `compress`, `readHeap`.
* Branching: `choose` forks the path; `probe` runs two computations on the side and hands their
  branches to the caller as a value.

A computation that reads or writes a location is named after it.  The calls `writeHeap` and `readHeap` write
the location down, and for one that cannot be written they end in a defect, before there is a computation.
`heapWrite` and `heapRead` are the computations that they make otherwise.
-/

namespace SymbolicPaths

/-- What two computations gave that were run on the same state. -/
structure Delimited (α β : Type) where
  left : α
  right : β

namespace Delimited

variable {α β : Type}

/-- Whether neither side has a branch. -/
def isEmpty (d : Delimited (List α) (List β)) : Bool := d.left.isEmpty && d.right.isEmpty

/-- Every left branch with every right branch. -/
def pairs (d : Delimited (List α) (List β)) : List (α × β) :=
  d.left.flatMap fun l => d.right.map fun r => (l, r)

end Delimited

namespace Comp

variable {V α β : Type}

/-! ## Variables -/

/-- The value of a variable; a name without a binding ends the branch. -/
def readVar [Term V] (name : V) : Comp V V where
  name := "read_var(" ++ Term.shown name ++ ")"
  body subject := do
    let s ← Run.stateWith "locals" subject
    Run.requireKey (Term.unhashable? name)
    match s.store.find? name with
    | some v => return [⟨subject, v⟩]
    | none => Run.fail (.unbound name)

/-- Binds a variable. -/
def storeVar [Term V] (name value : V) : Comp V Unit where
  name := "store_var(" ++ Term.shown name ++ ")"
  body subject := do
    let s ← Run.stateWith "bind_local" subject
    Run.requireKey (Term.unhashable? name)
    return [⟨.state (s.bindLocal name value), ()⟩]

/-- The whole store. -/
def getStore [Term V] : Comp V (Store V) where
  name := "get_locals"
  body subject := do
    let s ← Run.stateWith "locals" subject
    return [⟨subject, s.store⟩]

/-- Replaces the whole store by one that is made when the computation runs. -/
def putStore [Term V] (store : Run V (Store V)) : Comp V Unit where
  name := "put_locals"
  body subject := do
    let s ← Run.stateWith "with_locals" subject
    return [⟨.state (s.withStore (← store)), ()⟩]

/-! ## Heap -/

/-- The whole heap. -/
def getHeap [Term V] : Comp V (List (Member V)) where
  name := "get_heap"
  body subject := do
    let s ← Run.stateWith "heap" subject
    return [⟨subject, s.heap⟩]

/-- Replaces the whole heap. -/
def putHeap [Term V] (heap : List (Member V)) : Comp V Unit where
  name := "put_heap"
  body subject := do
    let s ← Run.stateWith "with_heap" subject
    return [⟨.state (s.withHeap heap), ()⟩]

/-- Puts one more chunk in front of the heap. -/
def addChunk [Term V] (c : Member V) : Comp V Unit where
  name := "add_chunk"
  body subject := do
    let s ← Run.stateWith "with_heap" subject
    return [⟨.state (s.withHeap (c :: s.heap)), ()⟩]

/-- The call that makes a computation with a location in its name: the location has to be written down. -/
def namedAfter [Term V] (l : V) (m : Comp V α) : Run V (Comp V α) := do
  let _ ← Run.written (Written.written? l)
  return m

/-- A location that can be written is no obstacle. -/
theorem namedAfter_of_written [Term V] {l : V} (hl : ∃ text, Written.written? l = .ok text)
    (m : Comp V α) : namedAfter l m = Pure.pure m := by
  obtain ⟨text, hl⟩ := hl
  rw [namedAfter, hl]
  rfl

/-- Gives every chunk at a location a new value.  A location without chunks stays without. -/
def heapWrite [Term V] (l v : V) : Comp V Unit where
  name := "write_heap_value(" ++ Term.written l ++ ")"
  body subject := do
    let s ← Run.stateWith "heap" subject
    let chunks ← Run.claims s.heap
    return [⟨.state (s.withChunks (Heap.overwrite l v chunks)), ()⟩]

/-- The call that makes a write. -/
def writeHeap [Term V] (l v : V) : Run V (Comp V Unit) := namedAfter l (heapWrite l v)

/-- Leaves one chunk per location.  Which unifier is meant is settled when the computation runs, so
that a policy installed in between counts. -/
def compress [Term V] (unifier : Run V (Unifier V)) : Comp V Unit where
  name := "compress_heap"
  body subject := do
    let s ← Run.stateWith "with_heap" subject
    return [⟨.state (s.withChunks (← Heap.fuse unifier s.heap)), ()⟩]

/-- The chunks at a location of what a computation was applied to. -/
def chunksAt [Term V] (l : V) (subject : Subject V) : Run V (List (Chunk V)) := do
  let s ← Run.stateWith "chunks_at" subject
  return Heap.chunksAt l (← Run.claims s.heap)

/-- Reads a location after `attempt` compressions, with `retries` more allowed.  Without a chunk the
branch ends, with one its value is read, and with several the heap is compressed and read again as
long as retries are left.  How often that was done is looked at only when there are several. -/
def heapReadWithin [Term V] (unifier : Run V (Unifier V)) (l : V) : (retries : Nat) → Amount V → Comp V V
  | 0, attempt => {
      name := "read_heap_value(" ++ Term.written l ++ ")"
      body := fun subject => do
        match ← chunksAt l subject with
        | [] => Run.fail (.missing l)
        | [c] => return [⟨subject, c.value⟩]
        | several =>
          let _ ← Run.ordered ">=" attempt.counted
          Run.complain (.notUnified l several.length attempt) }
  | retries + 1, attempt => {
      name := "read_heap_value(" ++ Term.written l ++ ")"
      body := fun subject => do
        match ← chunksAt l subject with
        | [] => Run.fail (.missing l)
        | [c] => return [⟨subject, c.value⟩]
        | several =>
          let next ← Run.ordered ">=" (attempt.counted.map (· + 1))
          Run.log (.compressing several.length l)
          ((compress unifier).andThen (heapReadWithin unifier l retries (.number next))).apply subject }

/-- Reads a location of which `attempt` compressions are already counted.  The heap may be compressed
until one is counted; a fresh read has counted none and so has a single retry. -/
def heapRead [Term V] (unifier : Run V (Unifier V)) (l : V) (attempt : Amount V) : Comp V V :=
  heapReadWithin unifier l ((attempt.value.toOption.map fun n => (1 - n).toNat).getD 0) attempt

/-- The call that makes a read. -/
def readHeap [Term V] (unifier : Run V (Unifier V)) (l : V) (attempt : Amount V) : Run V (Comp V V) :=
  namedAfter l (heapRead unifier l attempt)

/-! ## Branching -/

/-- Forks the path: once with `true` and once with `false`, in this order. -/
def choose : Comp V Bool :=
  ⟨"nondeterministic_branch", fun s => Pure.pure [⟨s, true⟩, ⟨s, false⟩]⟩

/-- Applies two functions to the state on the side.  The path goes on unchanged with what both gave
as its result; nothing that fails inside is seen outside. -/
def probeWith (left : Subject V → Run V α) (right : Subject V → Run V β) :
    Comp V (Delimited α β) where
  name := "branch"
  body s := do
    let both ← Run.delimit none do
      let l ← left s
      let r ← right s
      return (⟨l, r⟩ : Delimited α β)
    return [⟨s, both⟩]

/-- Runs two computations on the side. -/
def probe [Term V] (left : Comp V α) (right : Comp V β) :
    Comp V (Delimited (List (Branch V α)) (List (Branch V β))) :=
  probeWith left.apply right.apply

end Comp

end SymbolicPaths
