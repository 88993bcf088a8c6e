import SymbolicPaths.Exploration
import SymbolicPaths.Proofs.RawMode
import SymbolicPaths.Proofs.Primitives
/-!
# What an exploration does in the end

An exploration carries its computation out while it collects what is dropped, and then says what it
found: it looks at the settings for a cap, cuts the branches off, and writes log records.  This second
part (`Comp.conclude`) takes no part in how failures are treated.  It adds no failure, so an exploration
never ends in one while guarded (`Comp.contained_explore`), and it is the same in both modes
(`Comp.plain_conclude`).
-/

namespace SymbolicPaths

variable {V α : Type}

namespace Comp

variable [Term V] (m : Comp V α) (cap : Option (Amount V)) (s : Subject V)

theorem contained_cutOff (found : List (Branch V α)) : (m.cutOff cap found).Contained := by
  cases cap with
  | none => exact Run.contained_pure _
  | some amount =>
    refine (Run.contained_ordered _ _).bind fun exceeded _ => ?_
    split
    · exact (Run.contained_ordered _ _).bind fun _ _ =>
        (Run.contained_emitIf _ _).bind fun _ _ => Run.contained_pure _
    · exact Run.contained_pure _

variable [Written α]

/-- What an exploration does with what it found. -/
def conclude (found : List (Branch V α) × List (Dropped V)) : Run V (Exploration V α) := do
  let (branches, truncated) ← m.cutOff (← effectiveCap cap) found.1
  Run.log (.explored m.name branches.length found.2.length)
  if ← Run.debugging then
    Run.log (.outcome m.name (← Run.written (Branch.layoutAll? branches)))
  return ⟨branches, found.2, truncated⟩

theorem explore_eq : m.explore cap s = Run.collect (m.apply s) >>= m.conclude cap := rfl

/-- What an exploration says of what it found. -/
def summarize (found : List (Branch V α) × List (Dropped V)) : Run V (Exploration V α) := do
  let (branches, truncated) ← m.cutOff (← effectiveCap cap) found.1
  Run.log (.explored m.name branches.length found.2.length)
  return ⟨branches, found.2, truncated⟩

/-- The trace of the branches that it returns. -/
def display (branches : List (Branch V α)) : Run V Unit := do
  if ← Run.debugging then
    Run.log (.outcome m.name (← Run.written (Branch.layoutAll? branches)))

/-- What is returned is settled before the trace is left. -/
theorem conclude_eq (found : List (Branch V α) × List (Dropped V)) : m.conclude cap found = do
    let e ← m.summarize cap found
    m.display e.branches
    return e := by
  simp only [conclude, summarize, display, bind_assoc, pure_bind]
  refine bind_congr fun _ => bind_congr fun _ => bind_congr fun _ => bind_congr fun on => ?_
  cases on with
  | true => simp only [if_true, bind_assoc]
  | false => rfl

theorem contained_conclude (found : List (Branch V α) × List (Dropped V)) :
    (m.conclude cap found).Contained := by
  have inForce : (effectiveCap cap : Run V (Option (Amount V))).Contained := by
    cases cap with
    | some n => exact Run.contained_pure _
    | none => exact Run.contained_settings.bind fun _ _ => Run.contained_having _ _
  refine inForce.bind fun _ _ => (contained_cutOff ..).bind fun ⟨branches, truncated⟩ _ => ?_
  refine (Run.contained_emitIf _ _).bind fun _ _ => Run.contained_debugging.bind fun on _ => ?_
  cases on with
  | false => exact Run.contained_pure _
  | true =>
    exact (Run.contained_written _).bind fun _ _ => (Run.contained_emitIf _ _).bind fun _ _ =>
      Run.contained_pure _

/-- **An exploration does not end in a failure.** -/
theorem contained_explore : (m.explore cap s).Contained := by
  rw [explore_eq]
  exact (Run.contained_collect (m.contained_apply s)).bind fun found _ => m.contained_conclude cap found

variable {m cap s}

theorem explore_answer_of_error {σ ρ : Scope V} (hρ : σ.receptive = ρ) {c : Context V} {e : Fault V}
    (h : (m.apply s ρ c).answer = .error e) : (m.explore cap s σ c).answer = .error e := by
  subst hρ
  refine Run.answer_bind_of_error (x := Run.collect (m.apply s)) ?_ _
  rw [Run.collect, h]
  rfl

theorem explore_answer_of_ok {σ ρ : Scope V} (hρ : σ.receptive = ρ) {c : Context V}
    {found : List (Branch V α)} (h : (m.apply s ρ c).answer = .ok found) :
    (m.explore cap s σ c).answer
      = (m.conclude cap (found, (m.apply s ρ c).dropped) σ (m.apply s ρ c).context).answer := by
  subst hρ
  refine Run.answer_bind_of_ok (x := Run.collect (m.apply s)) ?_ _
  rw [Run.collect, h]
  rfl

end Comp

/-! ## The same in both modes -/

section Inherited

variable [Term V] {P : ∀ {α : Type}, Run V α → Prop} (family : Run.Household (V := V) P)

include family

theorem Run.Household.debugging (settings : P Run.settings) : P (Run.debugging : Run V Bool) :=
  family.bind settings fun _ _ => family.having ..

/-- What primitives have, and what the cap comes to, a summary has. -/
theorem Run.Household.summarize {cap : Option (Amount V)} (inForce : P (Comp.effectiveCap cap))
    (m : Comp V α) (found : List (Branch V α) × List (Dropped V)) : P (m.summarize cap found) := by
  refine family.bind inForce fun cap _ => family.bind ?_ fun _ _ =>
    family.bind (family.remark rfl) fun _ _ => family.pure _
  cases cap with
  | none => exact family.pure _
  | some amount =>
    refine family.bind (family.ordered ..) fun exceeded _ => ?_
    cases exceeded with
    | true =>
      exact family.bind (family.ordered ..) fun _ _ => family.bind (family.remark rfl) fun _ _ =>
        family.pure _
    | false => exact family.pure _

variable [Written α]

theorem Run.Household.display (debugging : P Run.debugging) (m : Comp V α) (branches : List (Branch V α)) :
    P (m.display branches) := by
  refine family.bind debugging fun on _ => ?_
  cases on with
  | false => exact family.pure _
  | true => exact family.bind (family.written _) fun _ _ => family.remark rfl

/-- What a look at the settings has, and primitives have, the end of an exploration has. -/
theorem Run.Household.conclude (settings : P Run.settings) (m : Comp V α) (cap : Option (Amount V))
    (found : List (Branch V α) × List (Dropped V)) : P (m.conclude cap found) := by
  have inForce : P (Comp.effectiveCap cap) := by
    cases cap with
    | some n => exact family.pure _
    | none => exact family.bind settings fun _ _ => family.having ..
  rw [Comp.conclude_eq]
  exact family.bind (family.summarize inForce m found) fun e _ =>
    family.bind (family.display (family.debugging settings) m e.branches) fun _ _ => family.pure e

end Inherited

namespace Run

/-- A look at the settings is the same in every scope, and adds nothing to the journal. -/
theorem settings_apply (σ : Scope V) (c : Context V) :
    settings σ c = ⟨(settings (.of .guarded) c).answer, (settings (.of .guarded) c).context, []⟩ := by
  cases hc : c.settings with
  | some i => rw [settings_apply_of_installed hc, settings_apply_of_installed hc]
  | none =>
    have looked : ∀ τ, settings τ c = ((do
        let s := .loaded (← load (← context).environment)
        updateContext fun c => { c with settings := some s }
        return s) : Run V (Installed V)) τ c := fun τ => by rw [settings, context_bind, hc]
    rw [looked, looked, context_bind, context_bind, load]
    cases Settings.ofEnvironment c.environment <;> rfl

variable [Term V]

theorem Plain.family : Family (V := V) Plain where
  pure := .pure
  bind := .bind
  stop := .stop
  log := .log

end Run

end SymbolicPaths
