import SymbolicPaths.Proofs.Isolation
/-!
# Runs under a contract

What host code does is known to a caller by what it promises.  A `Contract` names a scope to carry runs out
in, what holds of the context before and after each of them, and the faults that may end them.  A run meets
a contract with some answers (`Run.Meets`) if it keeps what holds of the context and ends with one of these
answers or with an admitted fault.  A contract that admits no fault promises an answer.

Runs that are put together meet a contract if their parts do (`Run.Meets.bind`, `Run.Meets.each`).  A guard
may leave no branches of an admitted failure (`Contract.Caught`), and an application looks at the settings,
which the contract has to allow for (`Contract.Usable`).  All but the first part of a run may be met by
contexts that nothing is known of but the contract, so where that matters the first context is kept in view
(`Run.MeetsFrom`).
-/

namespace SymbolicPaths

variable {V α β ι : Type}

/-- The terms on which runs are carried out. -/
structure Contract (V : Type) where
  scope : Scope V
  /-- What holds of the context before and after. -/
  keeps : Context V → Prop
  /-- What a run may end in instead of an answer. -/
  admits : Fault V → Prop

/-- The contract that admits no fault. -/
def Contract.total (σ : Scope V) (keeps : Context V → Prop) : Contract V := ⟨σ, keeps, fun _ => False⟩

/-- The contract that admits every fault but those of one family, and keeps nothing. -/
def Contract.sparing (σ : Scope V) (kind : ErrorKind) : Contract V :=
  ⟨σ, fun _ => True, fun e => e.kind ≠ kind⟩

/-- How a run may end: with one of these answers, or with an admitted fault. -/
def Contract.Allows (K : Contract V) (Q : α → Prop) : Except (Fault V) α → Prop
  | .ok a => Q a
  | .error e => K.admits e

/-- What a guard leaves of such branches: these, or none where a failure is admitted. -/
def Contract.Caught (K : Contract V) (Q : List α → Prop) (branches : List α) : Prop :=
  Q branches ∨ branches = [] ∧ ∃ f, K.admits (.failure f)

namespace Run

/-- From a context, a run keeps a contract, and if it answers, answers with what is asked. -/
def MeetsFrom (K : Contract V) (c : Context V) (x : Run V α) (Q : α → Prop) : Prop :=
  K.keeps (x K.scope c).context ∧ K.Allows Q (x K.scope c).answer

/-- A run that keeps a contract, and if it answers, answers with what is asked. -/
def Meets (K : Contract V) (x : Run V α) (Q : α → Prop) : Prop :=
  ∀ ⦃c⦄, K.keeps c → x.MeetsFrom K c Q

/-- Somewhere under a contract a run answers with `a`. -/
def Yields (K : Contract V) (x : Run V α) (a : α) : Prop :=
  ∃ c, K.keeps c ∧ (x K.scope c).answer = .ok a

end Run

/-- A contract under which computations can be applied: whatever is logged or dropped is taken, and where
applications look at the settings, that is met. -/
structure Contract.Usable [Term V] (K : Contract V) : Prop where
  records : ∀ e, K.scope.records e = .ok ()
  receives : ∀ d, K.scope.receives d = .ok ()
  looks : K.scope.mode = .guarded → (Run.debugging : Run V Bool).Meets K fun _ => True

namespace Run

variable {K : Contract V} {c : Context V} {x : Run V α} {f : α → Run V β} {Q Q' : α → Prop}
  {R : β → Prop}

namespace MeetsFrom

theorem bind (h : x.MeetsFrom K c Q) (hf : ∀ a, Q a → (f a).Meets K R) : (x >>= f).MeetsFrom K c R := by
  obtain ⟨kept, allowed⟩ := h
  cases hx : (x K.scope c).answer with
  | error e =>
    rw [hx] at allowed
    rw [MeetsFrom, context_bind_of_error hx, answer_bind_of_error hx]
    exact ⟨kept, allowed⟩
  | ok a =>
    rw [hx] at allowed
    rw [MeetsFrom, context_bind_of_ok hx, answer_bind_of_ok hx]
    exact hf a allowed kept

theorem imp (h : x.MeetsFrom K c Q) (hQ : ∀ a, Q a → Q' a) : x.MeetsFrom K c Q' := by
  rw [← bind_pure x]
  exact h.bind fun a ha _ hd => ⟨hd, hQ a ha⟩

/-- What is answered is the answer of the run. -/
theorem answering (h : x.MeetsFrom K c Q) :
    x.MeetsFrom K c fun a => Q a ∧ (x K.scope c).answer = .ok a := by
  refine ⟨h.1, ?_⟩
  have allowed := h.2
  cases hx : (x K.scope c).answer with
  | error e => rwa [hx] at allowed
  | ok a =>
    rw [hx] at allowed
    exact ⟨allowed, rfl⟩

/-- Where no fault is admitted, nothing is caught either. -/
theorem exists_branches {x : Run V (List α)} {Q : List α → Prop} (h : x.MeetsFrom K c (K.Caught Q))
    (returns : ∀ e, ¬ K.admits e) : ∃ branches, (x K.scope c).answer = .ok branches ∧ Q branches := by
  have allowed := h.2
  cases hx : (x K.scope c).answer with
  | error e =>
    rw [hx] at allowed
    exact absurd allowed (returns e)
  | ok branches =>
    rw [hx] at allowed
    exact ⟨branches, rfl, allowed.resolve_right fun ⟨_, f, hf⟩ => returns _ hf⟩

theorem admits_of_error (h : x.MeetsFrom K c Q) {e : Fault V} (he : (x K.scope c).answer = .error e) :
    K.admits e := by
  have allowed := h.2
  rwa [he] at allowed

end MeetsFrom

namespace Meets

theorem pure {a : α} (h : Q a) : (Pure.pure a : Run V α).Meets K Q := fun _ hc => ⟨hc, h⟩

theorem stop {e : Fault V} (h : K.admits e) : (Run.stop e : Run V α).Meets K Q := fun _ hc => ⟨hc, h⟩

theorem bind (h : x.Meets K Q) (hf : ∀ a, Q a → (f a).Meets K R) : (x >>= f).Meets K R :=
  fun _ hc => (h hc).bind hf

/-- What is answered is among the answers that the run has under the contract. -/
theorem yielding (h : x.Meets K Q) : x.Meets K fun a => Q a ∧ x.Yields K a :=
  fun c hc => (h hc).answering.imp fun _ => And.imp_right fun ha => ⟨c, hc, ha⟩

/-- Items are gone through one by one, and each has its answer. -/
theorem each {R : ι → α → Prop} {items : List ι} {f : ι → Run V α}
    (h : ∀ i ∈ items, (f i).Meets K (R i)) : (Run.each items f).Meets K (List.Forall₂ R items) := by
  induction items with
  | nil => exact .pure .nil
  | cons i rest ih =>
    refine (h i (List.mem_cons_self ..)).bind fun here hhere => ?_
    refine (ih fun j hj => h j (List.mem_cons_of_mem i hj)).bind fun others hothers => ?_
    exact .pure (.cons hhere hothers)

end Meets

/-! ## Guards and applications -/

section Usable

variable [Term V] (usable : K.Usable)

include usable

theorem log_apply_of_usable (e : Entry V) (c : Context V) : log e K.scope c = ⟨.ok (), c, [.entry e]⟩ :=
  log_apply_of_ok c (usable.records e)

theorem Meets.log (e : Entry V) : (Run.log e).Meets K fun _ => True := by
  intro c hc
  rw [MeetsFrom, log_apply_of_usable usable]
  exact ⟨hc, trivial⟩

theorem Meets.report (n : String) (s : Subject V) (f : Failure V) :
    (Run.report n s f).Meets K fun _ => True := by
  refine (Meets.log usable _).bind fun _ _ c hc => ?_
  rw [MeetsFrom, emitIf_apply_of_ok c (usable.receives _)]
  exact ⟨hc, trivial⟩

/-- A guard has nothing to hand on only if a failure was admitted. -/
theorem MeetsFrom.guarding (h : x.MeetsFrom K c Q) (n : String) (s : Subject V) :
    (Run.guarding n s x).MeetsFrom K c fun r =>
      (∀ a, r = some a → Q a) ∧ (r = none → ∃ f, K.admits (.failure f)) := by
  have some : ∀ {a}, Q a → (Pure.pure (some a) : Run V (Option α)).Meets K fun r =>
      (∀ a, r = some a → Q a) ∧ (r = none → ∃ f, K.admits (.failure f)) := fun ha =>
    .pure ⟨fun _ he => Option.some.inj he ▸ ha, fun he => nomatch he⟩
  cases hm : K.scope.mode with
  | raw =>
    rw [MeetsFrom, guarding_apply_of_raw n s x hm]
    exact h.bind fun a ha => some ha
  | guarded =>
    have confined : (confine x).MeetsFrom K c fun r =>
        (∀ a, r = .ok a → Q a) ∧ ∀ f, r = .error f → K.admits (.failure f) := by
      obtain ⟨kept, allowed⟩ := h
      rw [MeetsFrom, confine_apply]
      refine ⟨kept, ?_⟩
      rcases hx : (x K.scope c).answer with (f | e | _) | a <;> rw [hx] at allowed
      · exact ⟨fun _ he => (nomatch he), fun _ he => Except.error.inj he ▸ allowed⟩
      · exact allowed
      · exact allowed
      · exact ⟨fun _ he => Except.ok.inj he ▸ allowed, fun _ he => nomatch he⟩
    rw [MeetsFrom, guarding_apply_of_guarded n s x hm]
    refine confined.bind fun r hr => ?_
    cases r with
    | ok a => exact some (hr.1 a rfl)
    | error f =>
      exact (Meets.report usable n s f).bind fun _ _ =>
        .pure ⟨fun _ he => (nomatch he), fun _ => ⟨f, hr.2 f rfl⟩⟩

/-- After a success an application says how many branches there are, and answers with them. -/
theorem Meets.settle {bs : List (Branch V α)} {Q : List (Branch V α) → Prop} (h : Q bs) (n : String) :
    (Run.settle n (some bs)).Meets K Q := by
  intro c hc
  rw [MeetsFrom, Run.settle, mode_bind]
  cases hm : K.scope.mode with
  | raw => exact ⟨hc, h⟩
  | guarded =>
    have announced : (Run.announce n bs.length).Meets K fun _ => True := by
      refine (usable.looks hm).bind fun on _ => ?_
      cases on with
      | true => exact .log usable _
      | false => exact .pure trivial
    exact announced.bind (fun _ _ => .pure h) hc

/-- **An application meets what its body meets**, but for what its guard catches. -/
theorem MeetsFrom.apply {m : Comp V α} {s : Subject V} {Q : List (Branch V α) → Prop}
    (h : (m.body s).MeetsFrom K c (K.Caught Q)) : (m.apply s).MeetsFrom K c (K.Caught Q) := by
  rw [Comp.apply_eq]
  refine (h.guarding usable m.name s).bind fun r hr => ?_
  cases r with
  | some bs => exact .settle usable (hr.1 bs rfl) m.name
  | none => exact .pure (.inr ⟨rfl, hr.2 rfl⟩)

theorem Meets.apply {m : Comp V α} {s : Subject V} {Q : List (Branch V α) → Prop}
    (h : (m.body s).Meets K (K.Caught Q)) : (m.apply s).Meets K (K.Caught Q) :=
  fun _ hc => (h hc).apply usable

/-- A computation goes on from the one branch of another. -/
theorem MeetsFrom.andThen {m : Comp V α} {k : Comp V β} {s : Subject V} {T : Subject V → Prop}
    {Q : List (Branch V β) → Prop}
    (hm : (m.body s).MeetsFrom K c fun bs => ∃ b, bs = [b] ∧ T b.state)
    (hk : ∀ t, T t → (k.body t).Meets K (K.Caught Q)) :
    ((m.andThen k).apply s).MeetsFrom K c (K.Caught Q) := by
  refine .apply usable ((MeetsFrom.apply usable (hm.imp fun _ => .inl)).bind ?_)
  rintro _ (⟨b, rfl, ht⟩ | ⟨rfl, admitted⟩)
  · rw [Run.flatMap_cons_eq_joined, Run.flatMap_nil, Run.joined_nil]
    -- the guard of the continuation stands around an application of what is known beforehand
    refine .apply usable ?_
    show (Pure.pure k >>= fun d => d.apply b.state).Meets K (K.Caught Q)
    rw [pure_bind]
    exact .apply usable (hk b.state ht)
  · exact .pure (.inr ⟨rfl, admitted⟩)

end Usable

end Run

namespace Contract

variable [Term V] {σ : Scope V} (records : ∀ e, σ.records e = .ok ())
  (receives : ∀ d, σ.receives d = .ok ())

include records receives

/-- No fault need be admitted where the settings can be read and reading them is minded by nobody. -/
theorem usable_total {keeps : Context V → Prop} (loadable : ∀ ⦃c⦄, keeps c → c.Loadable)
    (primed : ∀ ⦃c⦄, keeps c → keeps c.primed) : (total σ keeps).Usable where
  records := records
  receives := receives
  looks _ c hc := by
    obtain ⟨i, on, hi, hon⟩ := loadable hc
    rw [Run.MeetsFrom, Run.debugging_apply_of_primed hi hon]
    exact ⟨primed hc, trivial⟩

/-- Whatever the context is, a look at the settings ends in no fault of a family that neither refused
settings nor missing members belong to. -/
theorem usable_sparing {kind : ErrorKind} (hv : kind ≠ .value) (hm : kind ≠ .member) :
    (sparing σ kind).Usable where
  records := records
  receives := receives
  looks _ := by
    have answering : ∀ {α : Type} {x : Run V α} (_ : ∀ c, ∃ a, (x σ c).answer = .ok a),
        x.Meets (sparing σ kind) fun _ => True := by
      intro α x answers c _
      obtain ⟨a, ha⟩ := answers c
      refine ⟨trivial, ?_⟩
      show (sparing σ kind).Allows _ (x σ c).answer
      rw [ha]
      trivial
    have load : ∀ env, (Run.load env : Run V Settings).Meets (sparing σ kind) fun _ => True := by
      intro env
      rw [Run.load]
      split
      · exact .stop fun h => hv h.symm
      · exact .pure trivial
    have settings : (Run.settings : Run V (Installed V)).Meets (sparing σ kind) fun _ => True := by
      refine (answering fun c => ⟨c, rfl⟩).bind fun d _ => ?_
      cases d.settings with
      | some i => exact .pure trivial
      | none =>
        refine (answering fun c => ⟨c, rfl⟩).bind fun k _ => (load _).bind fun _ _ => ?_
        exact (answering fun c => ⟨(), rfl⟩).bind fun _ _ => .pure trivial
    refine settings.bind fun i _ => ?_
    cases i.debug? with
    | ok on => exact .pure trivial
    | error k => exact .stop fun h => hm h.symm

end Contract

end SymbolicPaths
