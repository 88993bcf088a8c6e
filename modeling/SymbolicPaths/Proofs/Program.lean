import SymbolicPaths.Primitive
import SymbolicPaths.Routine
import SymbolicPaths.Proofs.Leaves
/-!
# Programs and their execution trees

A `Program` is what a program asks of the library, written down as a tree of constructions: primitives,
reads of the heap, sequences, delays, iterations, computations on the side, and routines.  The functions
of the host are functions here.  A `Builder` is what a host function gives, a program to go on with or a
fault; a `Turn` is what the body of a routine does next, as a function of the values that it was sent, and
where it waits, what it does if it is let go of there.  A call that ends in a defect before it makes a
computation, as for a location that cannot be written, is no program; a host function that makes such a call
gives the fault.

There are two readings.  `Program.comp` is the computation that the library makes of a program, with its
guards, its levels and its worklist.  `Program.leaves` is the execution tree: it follows one path after
the other, knows neither guards nor modes, and says of each path how it ends.  A path that fails is a
leaf with the state in which the computation or host function was that failed, or for the body of a
routine the state that its path had reached.

The tree knows nothing of two things that do not belong to one path.  It takes no error for the end of a
body but the body's own result, and it does not let go of anything.  Where these things do not happen
(`Program.Tidy`) the two readings can be compared.

## Why leaves need not exist

A body of a routine may go on for ever on some path, and a path may end in a defect, which ends
everything.  `Program.leaves` is then `none`.  It is a least fixed point at routines and structural
elsewhere, so it says `some` of all trees that are finite and without a defect.
-/

namespace SymbolicPaths

variable {V α β ι : Type}

/-! ## Programs -/

/-- Which unifier a compression is given.  A policy that is passed on and counts as false is not given. -/
inductive Unifying (V : Type) where
  | inForce
  | given (policy : List V → Except (Fault V) V)

/-- What is not in a program: what the policies mean that may be in force, and how many steps a routine
may take. -/
structure Host (V : Type) where
  meaning : V → List V → Except (Fault V) V
  fuel : Nat

/-- The computations that are not made of others. -/
inductive Primitive (V : Type) : Type → Type 1 where
  | pure {α : Type} (a : α) : Primitive V α
  | zero : Primitive V Unit
  | readVar (name : V) : Primitive V V
  | storeVar (name value : V) : Primitive V Unit
  | getStore : Primitive V (Store V)
  | putStore (store : Except (Fault V) (Store V)) : Primitive V Unit
  | getHeap : Primitive V (List (Member V))
  | putHeap (heap : List (Member V)) : Primitive V Unit
  | addChunk (c : Member V) : Primitive V Unit
  | writeHeap (l v : V) : Primitive V Unit
  | compress (u : Unifying V) : Primitive V Unit
  | choose : Primitive V Bool

mutual

/-- What a program asks of the library. -/
inductive Program (V : Type) : Type → Type 1 where
  | primitive {α : Type} (p : Primitive V α) : Program V α
  | readHeap (u : Unifying V) (l : V) (attempt : Amount V) : Program V V
  | probe {α β : Type} (left : Program V α) (right : Program V β) :
      Program V (Delimited (List (Branch V α)) (List (Branch V β)))
  | bind {α β : Type} (p : Program V α) (f : α → Builder V β) : Program V β
  | defer {α : Type} (name : String) (thunk : Builder V α) : Program V α
  /-- A program for each item, their results in a list. -/
  | sequence {ι α : Type} (items : List ι) (step : ι → Program V α) : Program V (List α)
  | forEach {ι α : Type} (items : List ι) (body : ι → Builder V α) : Program V Unit
  /-- A routine; `whenOver` is the result of a path on which a computation says there is nothing more to
  come. -/
  | routine {α : Type} (name : String) (whenOver : Option V → α) (body : List V → Turn V α) : Program V α

/-- What a host function gives. -/
inductive Builder (V : Type) : Type → Type 1 where
  | build {α : Type} (p : Program V α) : Builder V α
  | raise {α : Type} (e : Fault V) : Builder V α

/-- What the body of a routine does next. -/
inductive Turn (V : Type) : Type → Type 1 where
  /-- It waits for what a program gives; `closing` is what comes of letting go of it here. -/
  | yields {α : Type} (p : Program V V) (closing : Except (Fault V) Unit) : Turn V α
  | returns {α : Type} (a : α) : Turn V α
  | raises {α : Type} (e : Fault V) : Turn V α

end

/-! ## What the library makes of a program -/

section Computations

variable [Term V] (host : Host V)

/-- The unifier as it is found when a compression is carried out. -/
def Unifying.run : Unifying V → Run V (Unifier V)
  | inForce => Unifier.inForce fun p vs => Run.ofExcept (host.meaning p vs)
  | given policy => pure fun vs => Run.ofExcept (policy vs)

/-- A primitive as a computation. -/
def Primitive.comp : Primitive V α → Comp V α
  | .pure a => Comp.pure a
  | .zero => Comp.zero
  | .readVar name => Comp.readVar name
  | .storeVar name value => Comp.storeVar name value
  | .getStore => Comp.getStore
  | .putStore store => Comp.putStore (Run.ofExcept store)
  | .getHeap => Comp.getHeap
  | .putHeap heap => Comp.putHeap heap
  | .addChunk c => Comp.addChunk c
  | .writeHeap l v => Comp.heapWrite l v
  | .compress u => Comp.compress (u.run host)
  | .choose => Comp.choose

/-- A body as a routine; while it waits, the values that it was sent are kept of it. -/
def Routine.ofSignals (whenOver : Option V → α) (release : List V → Run V Unit)
    (signal : List V → Run V (Signal V (List V) α)) : Routine V (List V) α where
  prepare := pure []
  start := signal
  resume trail v := signal (trail ++ [v])
  whenOver
  release

/-- What a body does when it is let go of; one that does not wait does nothing. -/
def Turn.release {α : Type} : Turn V α → Run V Unit
  | .yields _ closing => Run.ofExcept closing
  | .returns _ | .raises _ => pure ()

mutual

/-- A program as a computation. -/
def Program.comp {α : Type} : Program V α → Comp V α
  | .primitive p => p.comp host
  | .readHeap u l attempt => Comp.heapRead (u.run host) l attempt
  | .probe left right => Comp.probe left.comp right.comp
  | .bind p f => p.comp.bind fun a => (f a).run
  | .defer name thunk => Comp.defer name thunk.run
  | .sequence items step => Comp.sequence (items.map fun i => (step i).comp)
  | .forEach items body => Comp.forEach items fun i => (body i).run
  | .routine name whenOver body =>
    (Routine.ofSignals whenOver (fun trail => (body trail).release)
      fun trail => (body trail).signal trail).comp name host.fuel

/-- What a host function gives, as the library meets it. -/
def Builder.run {α : Type} : Builder V α → Run V (Comp V α)
  | .build p => pure p.comp
  | .raise e => Run.stop e

/-- What a body does after it was sent `trail`. -/
def Turn.signal {α : Type} (trail : List V) : Turn V α → Run V (Signal V (List V) α)
  | .yields p _ => pure (.awaiting (pure p.comp) trail)
  | .returns a => pure (.finished a)
  | .raises e => Run.stop e

end

/-- The same host, with routines that may take some number of steps. -/
def Host.within (n : Nat) : Host V := { host with fuel := n }

/-- What a compression is given has nothing to do with how many steps a routine may take, -/
@[simp] theorem Unifying.run_within (u : Unifying V) (n : Nat) : u.run (host.within n) = u.run host := by
  cases u <;> rfl

/-- and neither has a primitive. -/
@[simp] theorem Primitive.comp_within (p : Primitive V α) (n : Nat) :
    p.comp (host.within n) = p.comp host := by
  cases p <;> simp only [Primitive.comp, Unifying.run_within]

end Computations

/-! ## Execution trees -/

namespace Leaf

/-- The leaf of a fault in a given state; a defect leaves nothing to speak of. -/
def ofFault (s : Subject V) : Fault V → Option (List (Leaf V β))
  | .failure f => some [failed ⟨s, f⟩]
  | _ => none

/-- The leaves of an answer in a given state. -/
def ofAnswer (s : Subject V) : Except (Fault V) (List β) → Option (List (Leaf V β))
  | .ok bs => some (bs.map ended)
  | .error e => ofFault s e

/-- The leaves after a tree for each item in turn. -/
def descend (step : ι → β → Option (List (Leaf V β))) : List ι → β → Option (List (Leaf V β))
  | [], b => some [ended b]
  | i :: rest, b => do grow (descend step rest) (← step i b)

end Leaf

/-- What the body of a routine does next, with the tree of what it yields. -/
inductive Stage (V α : Type) where
  | asks (tree : Subject V → Option (List (Leaf V (Branch V V))))
  | gives (a : α)
  | stops (e : Fault V)

/-- The leaves of a routine from a path on: the tree of what its body yields there, with the rest of the
routine on each branch. -/
def Path.walk (body : List V → Stage V α) (path : Path V) : Option (List (Leaf V (Branch V α))) :=
  match body path.trail with
  | .gives a => some [.ended ⟨path.state, a⟩]
  | .stops e => Leaf.ofFault path.state e
  | .asks tree => do
    let leaves ← tree path.state
    let parts ← leaves.mapM fun
      | .ended b => (⟨path.trail ++ [b.value], b.state⟩ : Path V) |>.walk body
      | .failed d => some [.failed d]
    return parts.flatten
partial_fixpoint

section Trees

variable [Term V] (host : Host V) (c : Context V)

/-- The leaves of a computation that is not made of others: what its body says. -/
def Leaf.ofBody (m : Comp V α) (s : Subject V) : Option (List (Leaf V (Branch V α))) :=
  ofAnswer s (m.body s (.of .guarded) c).answer

/-- The leaves of a read of the heap: where there are several chunks, those of a compression with
another read on each of them. -/
def Unifying.read (u : Unifying V) (l : V) :
    (retries : Nat) → Amount V → Subject V → Option (List (Leaf V (Branch V V)))
  | 0, attempt, s => Leaf.ofBody c (Comp.heapReadWithin (u.run host) l 0 attempt) s
  | retries + 1, attempt, s =>
    match (Comp.chunksAt l s (.of .guarded) c).answer, attempt.counted with
    | .ok (_ :: _ :: _), .ok n => do
      Leaf.grow (fun b => u.read l retries (.number (n + 1)) b.state)
        (← Leaf.ofBody c (Comp.compress (u.run host)) s)
    | _, _ => Leaf.ofBody c (Comp.heapReadWithin (u.run host) l 0 attempt) s

mutual

/-- The leaves of the execution tree of a program, from left to right, where the settings and the
policy are those of the context `c`. -/
def Program.leaves {α : Type} : Program V α → Subject V → Option (List (Leaf V (Branch V α)))
  | .primitive p, s => Leaf.ofBody c (p.comp host) s
  | .readHeap u l attempt, s =>
    u.read host c l ((attempt.value.toOption.map fun n => (1 - n).toNat).getD 0) attempt s
  | .probe left right, s => do
    let l ← left.leaves s
    let r ← right.leaves s
    return [.ended ⟨s, ⟨Leaf.endings l, Leaf.endings r⟩⟩]
  | .bind p f, s => do Leaf.grow (fun b => (f b.value).leaves b.state) (← p.leaves s)
  | .defer _ thunk, s => thunk.leaves s
  | .sequence items step, s =>
    Leaf.descend (fun i path => do
      return (← (step i).leaves path.state).map (.map fun b => ⟨b.state, path.value ++ [b.value]⟩))
      items (⟨s, []⟩ : Branch V (List _))
  | .forEach items body, s => do
    let leaves ← Leaf.descend (fun i current => do
      return (← (body i).leaves current).map (.map (·.state))) items s
    return leaves.map (.map fun current => ⟨current, ()⟩)
  | .routine _ _ body, s => Path.walk (fun trail => (body trail).stage) ⟨[], s⟩

/-- The leaves of what a host function gives. -/
def Builder.leaves {α : Type} : Builder V α → Subject V → Option (List (Leaf V (Branch V α)))
  | .build p, s => p.leaves s
  | .raise e, s => Leaf.ofFault s e

/-- What a body does next, with the tree of what it yields. -/
def Turn.stage {α : Type} : Turn V α → Stage V α
  | .yields p _ => .asks p.leaves
  | .returns a => .gives a
  | .raises e => .stops e

end

end Trees

/-! ## Tidy programs -/

section Tidy

variable (meaning : V → List V → Except (Fault V) V)

/-- Whoever unifies values does not say that there is nothing more to come. -/
def Unifying.Tidy : Unifying V → Prop
  | inForce => ∀ p vs e, meaning p vs = .error e → e.over? = none
  | given policy => ∀ vs e, policy vs = .error e → e.over? = none

/-- What a primitive has from the host does not say that there is nothing more to come. -/
def Primitive.Tidy : Primitive V α → Prop
  | .putStore store => ∀ e, store = .error e → e.over? = none
  | .compress u => u.Tidy meaning
  | _ => True

mutual

/-- A program whose host functions do not say that there is nothing more to come, and whose bodies are
let go of without a fault. -/
def Program.Tidy {α : Type} : Program V α → Prop
  | .primitive p => p.Tidy meaning
  | .readHeap u _ _ => u.Tidy meaning
  | .probe left right => left.Tidy ∧ right.Tidy
  | .bind p f => p.Tidy ∧ ∀ a, (f a).Tidy
  | .defer _ thunk => thunk.Tidy
  | .sequence _ step => ∀ i, (step i).Tidy
  | .forEach _ body => ∀ i, (body i).Tidy
  | .routine _ _ body => ∀ trail, (body trail).Tidy

/-- The same of what a host function gives, -/
def Builder.Tidy {α : Type} : Builder V α → Prop
  | .build p => p.Tidy
  | .raise e => e.over? = none

/-- and of what a body does next. -/
def Turn.Tidy {α : Type} : Turn V α → Prop
  | .yields p closing => p.Tidy ∧ closing = .ok ()
  | .returns _ | .raises _ => True

end

end Tidy

end SymbolicPaths
