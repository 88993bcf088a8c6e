import SymbolicPaths.Term
/-!
# Heap chunks

A heap is a list of chunks, each claiming that a location holds a value.  Several chunks may claim
the same location; the list is a multiset of claims whose order carries no meaning, although every
operation here keeps it.  Locations are terms, and two chunks claim the same location if the terms
are the same.

* `chunksAt` and `overwrite` work location by location.
* `groups` gathers the claimed values by location, in the order in which locations first occur, and
  remembers the location as it was first written.  Fusing a heap (`SymbolicPaths.Unifier`) works on
  this grouping.
* `multiset` counts equal members, again by first occurrence.

What a program puts into a heap need not be a chunk, so the members of the heap of a state are of
type `Member`; `claims?` gives the chunks if there is nothing else.
-/

namespace SymbolicPaths

/-- The claim that a location currently holds a value. -/
structure Chunk (V : Type) where
  location : V
  value : V

/-- What stands in the heap of a state. -/
inductive Member (V : Type) where
  | chunk (c : Chunk V)
  | foreign (v : V)

variable {V : Type}

namespace Chunk

/-- Chunks agree if they claim the same value at the same location. -/
def same [Term V] (c d : Chunk V) : Bool :=
  Term.same c.location d.location && Term.same c.value d.value

/-- The first part that keeps the chunk from being a key: the location comes before the value. -/
def unhashable? [Term V] (c : Chunk V) : Option String :=
  Term.unhashable? c.location <|> Term.unhashable? c.value

/-- The same location with another value. -/
def withValue (c : Chunk V) (v : V) : Chunk V := { c with value := v }

end Chunk

namespace Member

/-- Members agree if they are the same chunk or the same term. -/
def same [Term V] : Member V → Member V → Bool
  | chunk c, chunk d => c.same d
  | foreign v, foreign w => Term.same v w
  | _, _ => false

/-- The first part that keeps a member from being a key. -/
def unhashable? [Term V] : Member V → Option String
  | chunk c => c.unhashable?
  | foreign v => Term.unhashable? v

end Member

namespace Heap

/-- The chunks of a heap, or else the kind of its first foreign member. -/
def claims? [Term V] (heap : List (Member V)) : Except String (List (Chunk V)) :=
  heap.mapM fun
    | .chunk c => .ok c
    | .foreign v => .error (Term.kind v)

/-- A heap of chunks has these chunks. -/
@[simp] theorem claims?_map_chunk [Term V] (chunks : List (Chunk V)) :
    claims? (chunks.map Member.chunk) = .ok chunks := by
  induction chunks with
  | nil => rfl
  | cons c rest ih => simp_all [claims?, List.mapM_cons, bind, Except.bind, pure, Except.pure]

/-- All the values claimed for one location, in heap order. -/
structure Group (V : Type) where
  /-- The location as its first chunk writes it. -/
  location : V
  values : List V

variable [Term V]

/-- The chunks that claim location `l`, in heap order. -/
def chunksAt (l : V) (heap : List (Chunk V)) : List (Chunk V) :=
  heap.filter fun c => Term.same c.location l

theorem mem_chunksAt {c : Chunk V} {l : V} {heap : List (Chunk V)} :
    c ∈ chunksAt l heap ↔ c ∈ heap ∧ Term.same c.location l := List.mem_filter

@[simp] theorem chunksAt_append (l : V) (front back : List (Chunk V)) :
    chunksAt l (front ++ back) = chunksAt l front ++ chunksAt l back := List.filter_append ..

/-- Every chunk at `l` gets the value `v`; no chunk is added, dropped or moved. -/
def overwrite (l v : V) (heap : List (Chunk V)) : List (Chunk V) :=
  heap.map fun c => if Term.same c.location l then c.withValue v else c

@[simp] theorem length_overwrite (l v : V) (heap : List (Chunk V)) :
    (overwrite l v heap).length = heap.length := List.length_map ..

/-- Overwriting changes values only. -/
@[simp] theorem map_location_overwrite (l v : V) (heap : List (Chunk V)) :
    (overwrite l v heap).map Chunk.location = heap.map Chunk.location := by
  rw [overwrite, List.map_map]
  refine List.map_congr_left fun c _ => ?_
  simp only [Function.comp_apply]
  split <;> rfl

/-- Adds one chunk to a grouping: to the group of its location, or as a new last group. -/
def addToGroups (c : Chunk V) : List (Group V) → List (Group V)
  | [] => [⟨c.location, [c.value]⟩]
  | g :: gs =>
    if Term.same g.location c.location then { g with values := g.values ++ [c.value] } :: gs
    else g :: addToGroups c gs

/-- The chunks of a heap gathered by location, in order of first occurrence. -/
def groups (heap : List (Chunk V)) : List (Group V) :=
  heap.foldl (fun gs c => addToGroups c gs) []

@[simp] theorem groups_nil : groups ([] : List (Chunk V)) = [] := rfl

theorem groups_concat (heap : List (Chunk V)) (c : Chunk V) :
    groups (heap ++ [c]) = addToGroups c (groups heap) := by
  simp [groups]

/-- Counts one more member in a multiset. -/
def addToCounts (c : Member V) : List (Member V × Nat) → List (Member V × Nat)
  | [] => [(c, 1)]
  | (d, n) :: rest => if d.same c then (d, n + 1) :: rest else (d, n) :: addToCounts c rest

/-- Each member with its number of occurrences; the first of equal members stands for them. -/
def multiset (heap : List (Member V)) : List (Member V × Nat) :=
  heap.foldl (fun counts c => addToCounts c counts) []

@[simp] theorem multiset_nil : multiset ([] : List (Member V)) = [] := rfl

theorem multiset_concat (heap : List (Member V)) (c : Member V) :
    multiset (heap ++ [c]) = addToCounts c (multiset heap) := by
  simp [multiset]

/-- Multisets agree if they have as many entries and every entry of one is in the other. -/
def sameCounts (left right : List (Member V × Nat)) : Bool :=
  left.length == right.length
    && left.all fun (c, n) => right.any fun (d, m) => d.same c && n == m

/-- The first obstacle to counting the members of a heap. -/
def uncountable? (heap : List (Member V)) : Option String :=
  heap.findSome? Member.unhashable?

/-- Heaps agree member by member, in order. -/
def same : List (Member V) → List (Member V) → Bool
  | [], [] => true
  | c :: cs, d :: ds => c.same d && same cs ds
  | _, _ => false

end Heap

end SymbolicPaths
