import SymbolicPaths.Heap
import SymbolicPaths.Sorting
/-!
# Symbolic states

A state is what one path of a symbolic execution has reached: a store of named variables and a
heap of chunks.  States are values; nothing ever changes one, so paths may share them freely.

A `Store` is a table in insertion order: binding a name that is already bound keeps its place (and
the name as it was first given) and replaces the value.  The order never decides whether two stores
agree, only how a store is listed when it is not sorted.

What a computation is applied to, and what its branches end in, is a `Subject`: a state, or something
foreign that a program put in its place.  Computations that do not look into the state never notice.
-/

namespace SymbolicPaths

/-- A table from names to values, listed in the order in which the names were first bound. -/
structure Store (V : Type) where
  entries : List (V × V) := []

/-- The state of one path. -/
structure State (V : Type) where
  store : Store V := {}
  heap : List (Member V) := []

/-- What stands where a state is due. -/
inductive Subject (V : Type) where
  | state (s : State V)
  | foreign (v : V)

/-- One continuation of a computation: the state that it ends in and its result. -/
structure Branch (V α : Type) where
  state : Subject V
  value : α

variable {V : Type}

namespace Store

/-- The store without bindings. -/
def empty : Store V := {}

variable [Term V]

/-- The value bound to `name`. -/
def find? (s : Store V) (name : V) : Option V :=
  (s.entries.find? fun e => Term.same e.1 name).map (·.2)

/-- Replaces the value of a listed name, or lists the name last. -/
def bindEntry (name value : V) : List (V × V) → List (V × V)
  | [] => [(name, value)]
  | (n, v) :: rest =>
    if Term.same n name then (n, value) :: rest else (n, v) :: bindEntry name value rest

/-- The store with `name` bound to `value`. -/
def bind (s : Store V) (name value : V) : Store V := ⟨bindEntry name value s.entries⟩

/-- The store that binds the entries from left to right. -/
def ofEntries (entries : List (V × V)) : Store V :=
  entries.foldl (fun s e => s.bind e.1 e.2) empty

/-- Stores agree if they bind the same names to the same values, in any order. -/
def same (s t : Store V) : Bool :=
  s.entries.length == t.entries.length
    && s.entries.all fun (n, v) => t.entries.any fun (m, w) => Term.same n m && Term.same v w

/-- The bindings sorted by name. -/
def sorted? (s : Store V) : Except Incomparable (List (V × V)) :=
  sortBy? (fun e f => Term.less e.1 f.1) s.entries

end Store

namespace State

/-- The state that binds nothing and claims nothing. -/
def empty : State V := {}

/-- The state of a store and of chunks. -/
def ofChunks (store : Store V) (chunks : List (Chunk V)) : State V := ⟨store, chunks.map .chunk⟩

/-- The state with another store. -/
def withStore (s : State V) (store : Store V) : State V := { s with store }

/-- The state with another heap. -/
def withHeap (s : State V) (heap : List (Member V)) : State V := { s with heap }

/-- The state with a heap of chunks. -/
def withChunks (s : State V) (chunks : List (Chunk V)) : State V := s.withHeap (chunks.map .chunk)

/-- The state with one variable bound. -/
def bindLocal [Term V] (s : State V) (name value : V) : State V := s.withStore (s.store.bind name value)

/-- The chunks of the state, or else the kind of the first foreign member of its heap. -/
def claims? [Term V] (s : State V) : Except String (List (Chunk V)) := Heap.claims? s.heap

@[simp] theorem claims?_ofChunks [Term V] (store : Store V) (chunks : List (Chunk V)) :
    (ofChunks store chunks).claims? = .ok chunks := Heap.claims?_map_chunk chunks

@[simp] theorem claims?_withChunks [Term V] (s : State V) (chunks : List (Chunk V)) :
    (s.withChunks chunks).claims? = .ok chunks := Heap.claims?_map_chunk chunks

/-- States agree if their stores do and their heaps are the same list. -/
def same [Term V] (s t : State V) : Bool := s.store.same t.store && Heap.same s.heap t.heap

/-- Heaps compared as multisets, so that their order does not matter; refused with the kind that
keeps a member from being counted, looking at the left heap first. -/
def heapEqual? [Term V] (s t : State V) : Except String Bool :=
  match Heap.uncountable? s.heap <|> Heap.uncountable? t.heap with
  | some kind => .error kind
  | none => .ok (Heap.sameCounts (Heap.multiset s.heap) (Heap.multiset t.heap))

/-- States are equivalent if their stores agree and their heaps are equal as multisets; the heaps
of states whose stores differ are not looked at. -/
def equivalent? [Term V] (s t : State V) : Except String Bool :=
  if s.store.same t.store then heapEqual? s t else .ok false

end State

namespace Subject

/-- Subjects agree if they are states that agree or the same term. -/
def same [Term V] : Subject V → Subject V → Bool
  | state s, state t => s.same t
  | foreign v, foreign w => Term.same v w
  | _, _ => false

end Subject

end SymbolicPaths
