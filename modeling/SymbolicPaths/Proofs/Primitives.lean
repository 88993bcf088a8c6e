import SymbolicPaths.Primitive
import SymbolicPaths.Proofs.RawMode
import SymbolicPaths.Proofs.Interchange
/-!
# What primitives do

A primitive looks into the state that it is given and answers, or ends in a fault.  On the way it may
write log records, and one that fuses a heap asks whoever unifies values.  It takes no part in how
failures are treated, and it leaves the context alone.

Such facts hold of every primitive for the same reason: they hold of answers and of log records, and
sequences inherit them.  `Run.Household` is what a property of runs needs for that, and this file goes
through the primitives once, for all such properties.  A `Run.Family` is a household that minds no log
record at all.
-/

namespace SymbolicPaths

variable {V α β : Type}

/-- Whether a log record says that a branch was given up. -/
def Entry.isDropping : Entry V → Bool
  | dropping .. => true
  | _ => false

namespace Run

/-- A property of runs that answers, faults and log records have, and that sequences inherit. -/
structure Family (P : ∀ {α : Type}, Run V α → Prop) : Prop extends Sequential P where
  stop : ∀ {α : Type} (e : Fault V), P (Run.stop e : Run V α)
  log : ∀ e : Entry V, P (Run.log e)

/-- The same with records of dropped branches left out, which no primitive writes: only a guard does.
Nor does a primitive say that there is nothing more to come. -/
structure Household (P : ∀ {α : Type}, Run V α → Prop) : Prop extends Sequential P where
  stop : ∀ {α : Type} {e : Fault V}, e.over? = none → P (Run.stop e : Run V α)
  remark : ∀ {e : Entry V}, e.isDropping = false → P (Run.log e)

theorem Family.household {P : ∀ {α : Type}, Run V α → Prop} (family : Family P) : Household P :=
  ⟨family.toSequential, fun _ => family.stop _, fun _ => family.log _⟩

theorem Family.ofExcept {P : ∀ {α : Type}, Run V α → Prop} (family : Family P)
    (r : Except (Fault V) α) : P (Run.ofExcept r) := by
  cases r with
  | ok a => exact family.pure a
  | error e => exact family.stop e

namespace Household

variable {P : ∀ {α : Type}, Run V α → Prop} (family : Household P)

include family

theorem ordered (operator : String) (x : Except Incomparable α) : P (Run.ordered operator x) := by
  cases x with
  | ok a => exact family.pure a
  | error operands => exact family.stop rfl

theorem written (x : Except Unwritable α) : P (Run.written x) := by
  cases x with
  | ok a => exact family.pure a
  | error obstacle => exact family.stop (by cases obstacle <;> rfl)

theorem having (member : String) (x : Except String α) : P (Run.having member x) := by
  cases x with
  | ok a => exact family.pure a
  | error kind => exact family.stop rfl

theorem requireKey (obstacle : Option String) : P (Run.requireKey obstacle) := by
  cases obstacle with
  | some kind => exact family.stop rfl
  | none => exact family.pure ()

variable [Term V]

theorem stateWith (member : String) (s : Subject V) : P (Run.stateWith member s) := by
  cases s with
  | state s => exact family.pure s
  | foreign v => exact family.stop rfl

theorem claims (heap : List (Member V)) : P (Run.claims heap) := family.having ..

theorem complain {d : Defect V} (h : (Fault.defect d).over? = none) : P (Run.complain d : Run V α) :=
  family.bind (family.written d.message?) fun _ _ => family.stop h

theorem fail (f : Failure V) : P (Run.fail f : Run V α) := by
  cases f with
  | abandoned args => exact family.stop rfl
  | _ => exact family.bind (family.written _) fun _ _ => family.stop rfl

/-! ## Heaps -/

theorem fusible (heap : List (Member V)) : P (Heap.fusible heap) := by
  induction heap with
  | nil => exact family.pure []
  | cons member rest ih =>
    cases member with
    | foreign v => exact family.stop rfl
    | chunk c =>
      refine family.bind (family.requireKey _) fun _ _ => ?_
      exact family.bind ih fun others _ => family.pure (c :: others)

/-- Fusing a heap asks only whoever unifies. -/
theorem fuseWith {unify : Unifier V} (hu : ∀ vs, P (unify vs)) (heap : List (Member V)) :
    P (Heap.fuseWith unify heap) := by
  refine family.bind (family.fusible heap) fun chunks _ => family.each fun g _ => ?_
  rw [Heap.fuseGroup]
  split
  · exact family.pure _
  · refine family.bind (hu _) fun v _ => ?_
    exact family.bind (family.remark rfl) fun _ _ => family.pure _

theorem fuse {unifier : Run V (Unifier V)} (h : P unifier) (hu : ∀ u, unifier.Answers u → ∀ vs, P (u vs))
    (heap : List (Member V)) : P (Heap.fuse unifier heap) :=
  family.bind h fun u hanswer => family.fuseWith (hu u hanswer) heap

theorem chunksAt (l : V) (s : Subject V) : P (Comp.chunksAt l s) :=
  family.bind (family.stateWith _ s) fun _ _ =>
    family.bind (family.claims _) fun _ _ => family.pure _

/-- The largest term is found by comparisons. -/
theorem maxTerm (vs : List V) : P (Unifier.maxTerm vs) := by
  have best : ∀ (rest : List V) (so : V), P (Unifier.best Unifier.larger so rest) := by
    intro rest
    induction rest with
    | nil => exact family.pure
    | cons v rest ih =>
      intro so
      refine family.bind (family.ordered ..) fun better _ => ?_
      cases better with
      | true => exact ih v
      | false => exact ih so
  cases vs with
  | nil => exact family.stop rfl
  | cons v rest => exact best rest v

/-! ## The bodies of primitives -/

theorem readVar (name : V) (s : Subject V) : P ((Comp.readVar name).body s) := by
  refine family.bind (family.stateWith _ s) fun st _ => family.bind (family.requireKey _) fun _ _ => ?_
  cases st.store.find? name with
  | some v => exact family.pure _
  | none => exact family.fail _

theorem storeVar (name value : V) (s : Subject V) : P ((Comp.storeVar name value).body s) :=
  family.bind (family.stateWith _ s) fun _ _ =>
    family.bind (family.requireKey _) fun _ _ => family.pure _

theorem getStore (s : Subject V) : P ((Comp.getStore).body s) :=
  family.bind (family.stateWith _ s) fun _ _ => family.pure _

theorem putStore {store : Run V (Store V)} (hs : P store) (s : Subject V) :
    P ((Comp.putStore store).body s) :=
  family.bind (family.stateWith _ s) fun _ _ => family.bind hs fun _ _ => family.pure _

theorem getHeap (s : Subject V) : P ((Comp.getHeap).body s) :=
  family.bind (family.stateWith _ s) fun _ _ => family.pure _

theorem putHeap (heap : List (Member V)) (s : Subject V) : P ((Comp.putHeap heap).body s) :=
  family.bind (family.stateWith _ s) fun _ _ => family.pure _

theorem addChunk (c : Member V) (s : Subject V) : P ((Comp.addChunk c).body s) :=
  family.bind (family.stateWith _ s) fun _ _ => family.pure _

theorem writeHeap (l v : V) (s : Subject V) : P ((Comp.heapWrite l v).body s) :=
  family.bind (family.stateWith _ s) fun _ _ => family.bind (family.claims _) fun _ _ => family.pure _

theorem compress {unifier : Run V (Unifier V)} (h : P unifier)
    (hu : ∀ u, unifier.Answers u → ∀ vs, P (u vs)) (s : Subject V) :
    P ((Comp.compress unifier).body s) :=
  family.bind (family.stateWith _ s) fun st _ =>
    family.bind (family.fuse h hu st.heap) fun _ _ => family.pure _

/-- A read that may not compress any more. -/
theorem readHeap {unifier : Run V (Unifier V)} (l : V) (attempt : Amount V) (s : Subject V) :
    P ((Comp.heapReadWithin unifier l 0 attempt).body s) := by
  refine family.bind (family.chunksAt l s) fun chunks _ => ?_
  match chunks with
  | [] => exact family.fail _
  | [c] => exact family.pure _
  | _ :: _ :: _ => exact family.bind (family.ordered ..) fun _ _ => family.complain rfl

end Household

end Run

/-! ## Computations on the side -/

namespace Comp

variable [Term V] (left : Comp V α) (right : Comp V β) (s : Subject V)

/-- What two computations give that are applied one after the other to the same subject. -/
def sides : Run V (Delimited (List (Branch V α)) (List (Branch V β))) := do
  let l ← left.apply s
  let r ← right.apply s
  return ⟨l, r⟩

theorem probe_body : (probe left right).body s
    = Run.delimit none (sides left right s) >>= fun both => Pure.pure [⟨s, both⟩] := rfl

theorem contained_sides : (sides left right s).Contained :=
  (left.contained_apply s).bind fun l _ => (right.contained_apply s).bind fun r _ =>
    Run.contained_pure (Delimited.mk l r)

/-- Computations on the side do not fail, whatever the mode: they are guarded. -/
theorem probe_body_unfailing (τ : Scope V) (c : Context V) (f : Failure V) :
    ((probe left right).body s τ c).answer ≠ .error (.failure f) := by
  intro h
  rw [probe_body] at h
  cases hd : (Run.delimit none (sides left right s) τ c).answer with
  | ok both =>
    rw [Run.answer_bind_of_ok hd] at h
    cases h
  | error e =>
    rw [Run.answer_bind_of_error hd] at h
    obtain rfl : e = .failure f := Except.error.inj h
    exact contained_sides left right s rfl c f hd

/-- A fork on the side, applied, does not fail, whatever the mode. -/
theorem probe_apply_unfailing (τ : Scope V) (c : Context V) (f : Failure V) :
    ((probe left right).apply s τ c).answer ≠ .error (.failure f) := by
  cases hm : τ.mode with
  | guarded => exact contained_apply _ s hm c f
  | raw =>
    rw [apply_apply_of_raw hm]
    exact probe_body_unfailing left right s τ c f

end Comp

end SymbolicPaths
