import SymbolicPaths.Run
/-!
# Unification

When several chunks claim one location, a `Unifier` says which value the location holds.  It
receives the claimed values in heap order, two or more of them, and answers with one.

`maxTerm` is the unifier that is in force unless another is installed: the largest term, and of
equal terms the first.  A program may also pass a policy on (`Passed`); `meant` settles which of them
counts.  `fuse` compresses a heap: one chunk per location, in order of first occurrence, and the unifier
is asked only about locations with several chunks.
-/

namespace SymbolicPaths

/-- How several values at one location become one. -/
abbrev Unifier (V : Type) := List V → Run V V

/-- A policy that a program passes on.  It may be an object that counts as false where a truth value is
asked for, as one without elements does. -/
structure Passed (V : Type) where
  unify : Unifier V
  /-- Whether it counts as true. -/
  counts : Bool

variable {V : Type}

namespace Unifier

/-- Goes through candidates and keeps the best so far; a candidate replaces it only if `better`
says so, hence the first of equals stays. -/
def best (better : V → V → Run V Bool) : V → List V → Run V V
  | so, [] => pure so
  | so, v :: rest => do
    if ← better v so then best better v rest else best better so rest

/-- Whether a candidate is larger. -/
def larger [Term V] (candidate so : V) : Run V Bool := Run.ordered ">" (Term.more candidate so)

/-- Whether a candidate is smaller. -/
def smaller [Term V] (candidate so : V) : Run V Bool := Run.ordered "<" (Term.less candidate so)

/-- The largest term, the first of equals. -/
def maxTerm [Term V] : Unifier V
  | [] => Run.reject .nothingToUnify
  | v :: rest => best larger v rest

/-- The unifier in force; `meaning` says what a policy of the program's own does. -/
def inForce [Term V] (meaning : V → Unifier V) : Run V (Unifier V) := do
  match (← Run.context).policy with
  | .maxTerm => return maxTerm
  | .chosen p => return meaning p

/-- The unifier that is meant: a policy that is passed on, if it counts as true, and else the one in
force.  What counts as false is treated as if nothing were passed. -/
def meant [Term V] (meaning : V → Unifier V) : Option (Passed V) → Run V (Unifier V)
  | some ⟨unify, true⟩ => pure unify
  | some ⟨_, false⟩ | none => inForce meaning

/-- To settle which unifier is meant does nothing else. -/
theorem meant_bind_const [Term V] {α : Type} (meaning : V → Unifier V) (policy : Option (Passed V))
    (x : Run V α) : (meant meaning policy >>= fun _ => x) = x := by
  have inForce_bind : (inForce meaning >>= fun _ => x) = x := by
    funext σ c
    rw [inForce, bind_assoc, Run.context_bind]
    cases c.policy <;> rfl
  match policy with
  | some ⟨unify, true⟩ => exact pure_bind unify fun _ => x
  | some ⟨_, false⟩ | none => exact inForce_bind

end Unifier

namespace Heap

/-- The chunk that a group of claims becomes. -/
def fuseGroup (unify : Unifier V) (g : Group V) : Run V (Chunk V) :=
  match g.values with
  | [v] => pure ⟨g.location, v⟩
  | vs => do
    let v ← unify vs
    Run.log (.unified vs.length g.location v)
    return ⟨g.location, v⟩

/-- The chunks of a heap that is to be fused: every member has to be a chunk whose location is
usable as a key, and the first for which this fails is told. -/
def fusible [Term V] : List (Member V) → Run V (List (Chunk V))
  | [] => pure []
  | .foreign v :: _ => Run.reject (.lacking (Term.kind v) "location")
  | .chunk c :: rest => do
    Run.requireKey (Term.unhashable? c.location)
    return c :: (← fusible rest)

/-- A heap of chunks whose locations are usable as keys can be fused. -/
theorem fusible_map_chunk [Term V] {chunks : List (Chunk V)}
    (h : ∀ c ∈ chunks, Term.unhashable? c.location = none) :
    fusible (chunks.map Member.chunk) = pure chunks := by
  induction chunks with
  | nil => rfl
  | cons c rest ih =>
    have here := h c (List.mem_cons_self ..)
    have others := ih fun d hd => h d (List.mem_cons_of_mem c hd)
    simp only [List.map_cons, fusible, here, others, Run.requireKey, pure_bind]

/-- One chunk per location, in order of first occurrence.  Every location has to be usable as a
key, also those with a single chunk. -/
def fuseWith [Term V] (unify : Unifier V) (heap : List (Member V)) : Run V (List (Chunk V)) := do
  let chunks ← fusible heap
  Run.each (groups chunks) (fuseGroup unify)

/-- The same with the unifier that is found first, before the heap is looked at. -/
def fuse [Term V] (unifier : Run V (Unifier V)) (heap : List (Member V)) : Run V (List (Chunk V)) := do
  fuseWith (← unifier) heap

end Heap

end SymbolicPaths
