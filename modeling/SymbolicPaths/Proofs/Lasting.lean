import SymbolicPaths.Proofs.Closure
import SymbolicPaths.Proofs.Conclusion
/-!
# Runs that do not say they are over

One error is how bodies end: it says that there is nothing more to come.  The engine of routines takes
it for the end of a path wherever it comes from, so what is said of routines often needs that nothing
but bodies raises it.

`Run.Lasting` is that property of a run, where log records and dropped branches are taken.  The library
never raises the error itself, so the property is inherited by everything that is put together
(`Run.Lasting.closure`).
-/

namespace SymbolicPaths

variable {V α β : Type}

namespace Run

/-- A run that never says there is nothing more to come, in a scope. -/
def LastsIn (τ : Scope V) (x : Run V α) : Prop :=
  ∀ (c : Context V) (e : Fault V), (x τ c).answer = .error e → e.over? = none

/-- A run that never says there is nothing more to come where everything is taken. -/
def Lasting (x : Run V α) : Prop := ∀ m, x.LastsIn (.of m)

namespace LastsIn

variable {τ : Scope V}

protected theorem pure (a : α) : (pure a : Run V α).LastsIn τ := fun _ _ h => by cases h

theorem stop {e : Fault V} (h : e.over? = none) : (Run.stop e : Run V α).LastsIn τ := fun _ e' he => by
  obtain rfl : e = e' := Except.error.inj he
  exact h

protected theorem bind {x : Run V α} {f : α → Run V β} (h : x.LastsIn τ)
    (hf : ∀ a, x.Answers a → (f a).LastsIn τ) : (x >>= f).LastsIn τ := by
  intro c e he
  cases hx : (x τ c).answer with
  | ok a =>
    rw [answer_bind_of_ok hx] at he
    exact hf a (answers_of_answer hx) _ e he
  | error e' =>
    rw [answer_bind_of_error hx] at he
    obtain rfl : e' = e := Except.error.inj he
    exact h c e' hx

/-- Nothing that has left a body says it is over. -/
theorem asBody (x : Run V α) : (Run.asBody x).LastsIn τ := by
  intro c e he
  rw [Run.asBody, Run.reading] at he
  cases hx : (x τ c).answer with
  | ok a =>
    rw [hx] at he
    cases he
  | error e' =>
    rw [hx] at he
    obtain rfl : e'.ofBody = e := Except.error.inj he
    exact Fault.over?_ofBody e'

/-- Whoever takes the error for an end has none. -/
theorem unlessOver (x : Run V α) : (Run.unlessOver x).LastsIn τ := by
  intro c e he
  rw [Run.unlessOver, Run.reading] at he
  cases hx : (x τ c).answer with
  | ok a =>
    rw [hx] at he
    cases he
  | error e' =>
    rw [hx, withOver] at he
    cases ho : e'.over? with
    | some details =>
      rw [ho] at he
      cases he
    | none =>
      rw [ho] at he
      obtain rfl : e' = e := Except.error.inj he
      exact ho

end LastsIn

namespace Lasting

theorem household : Household (V := V) Lasting where
  pure a _ := .pure a
  bind h hf m := (h m).bind fun a ha => hf a ha m
  stop h _ := .stop h
  remark _ _ _ _ h := by cases h

theorem guarding {x : Run V α} (h : x.Lasting) (n : String) (s : Subject V) :
    (Run.guarding n s x).Lasting := by
  intro m c e he
  have direct : ∀ k, (x >>= fun a => pure (some a)).LastsIn (.of k) := fun k =>
    (h k).bind fun a _ => .pure (some a)
  cases m with
  | raw =>
    rw [guarding_apply_of_raw n s x rfl] at he
    exact direct .raw c e he
  | guarded =>
    by_cases hfail : ∃ f, (x (.of .guarded) c).answer = .error (.failure f)
    · obtain ⟨f, hf⟩ := hfail
      rw [guarding_apply_of_guarded n s x rfl, bind_apply_of_ok (confine_apply_of_failure hf)] at he
      cases he
    · rw [guarding_apply_of_unfailing (fun _ f hf => hfail ⟨f, hf⟩) n s] at he
      exact direct .guarded c e he

variable [Term V]

omit [Term V] in
/-- Settings that cannot be read are no end of anything. -/
theorem settings : (Run.settings : Run V (Installed V)).Lasting := by
  have context : (Run.context : Run V (Context V)).Lasting := fun _ _ _ h => by cases h
  refine household.bind context fun c _ => ?_
  cases c.settings with
  | some i => exact household.pure i
  | none =>
    refine household.bind context fun c _ => household.bind ?_ fun s _ => ?_
    · rw [load]
      split
      · exact household.stop rfl
      · exact household.pure _
    · exact household.bind (fun _ _ _ h => by cases h) fun _ _ => household.pure _

theorem announce (n : String) (k : Nat) : (Run.announce n k : Run V Unit).Lasting := by
  refine household.bind (household.debugging settings) fun on _ => ?_
  cases on with
  | true => exact household.remark rfl
  | false => exact household.pure ()

theorem settle (n : String) (r : Option (List (Branch V α))) : (Run.settle n r).Lasting := by
  cases r with
  | none => exact household.pure []
  | some branches =>
    intro m c e he
    rw [Run.settle, mode_bind] at he
    cases m with
    | raw => cases he
    | guarded =>
      exact (household.bind (announce n branches.length) fun _ _ => household.pure branches) .guarded c e he

/-- **The library does not say that there is nothing more to come.** -/
theorem closure : Closure (V := V) Lasting where
  toHousehold := household
  guarding n s _ h := h.guarding n s
  unlessOver _ _ := .unlessOver _
  asBody _ _ := .asBody _
  apply {_ c s} h := by
    rw [Comp.apply_eq]
    exact household.bind (h.guarding c.name s) fun r _ => settle c.name r

end Lasting

end Run

end SymbolicPaths
