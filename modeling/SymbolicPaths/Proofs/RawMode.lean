import SymbolicPaths.Proofs.Guard
/-!
# The two modes

The mode is one argument, handed down to everything that runs inside, and three things look at it: a
guard, which catches nothing in the raw mode; an application, which says in the guarded mode how many
branches it gave; and a delimited part, which is guarded whatever the mode outside.  This file shows
that the raw mode tells the truth about the guarded one.  A guarded run that drops nothing is the raw
run, and one that drops branches drops first the branch whose failure ends the raw run
(`Run.Composed.mirrored`).

## The invariant

`Outcome.Mirrored o p` compares the guarded outcome `o` with the raw outcome `p`.  As long as nothing
is dropped the two runs are in step: same answer, and contexts that differ at most in whether the
settings have been read.  Once a branch is dropped the raw run has ended, and nothing that the guarded
run does later can be compared with anything; what is kept is which branch was the first.

The first half needs settings that can be read, because only the guarded run looks at them.  It also
needs the runs that are put together to leave it unseen whether they have been (`Run.Steady`), since
from the first successful guard on they have been in one run and not in the other.

## What is put together

`Run.Composed` is the class of runs for which this is proved.  It contains the runs that take no part
in failures (`Run.Plain`) and is closed under what the library does: sequencing, guards, applications,
answers that are read as others, delimited parts and releases.
-/

namespace SymbolicPaths

variable {V α β ι : Type} [Term V]

/-! ## Guarded and raw outcomes -/

/-- How the outcome `p` of a raw run goes with the outcome `o` of a guarded one: in step while nothing
is dropped, and ended by the failure of the first dropped branch. -/
inductive Outcome.Mirrored (o p : Outcome V α) : Prop where
  | inStep (dropped : o.dropped = []) (answer : p.answer = o.answer)
      (context : o.context.primed = p.context.primed) (loadable : o.context.Loadable)
  | ended (first : Dropped V) (rest : List (Dropped V)) (dropped : o.dropped = first :: rest)
      (answer : p.answer = .error (.failure first.error))

/-- Wherever there are settings to read, the raw run goes with the guarded one. -/
def Run.Mirrored (x : Run V α) : Prop :=
  ∀ ⦃c d : Context V⦄, c.Loadable → c.primed = d.primed →
    Outcome.Mirrored (x (.of .guarded) c) (x (.of .raw) d)

/-- A run that takes no part in failures: it does not look at the mode, drops nothing, and leaves it
unseen whether the settings have been read. -/
structure Run.Plain (x : Run V α) : Prop where
  steady : x.Steady
  modeless : ∀ c, x (.of .guarded) c = x (.of .raw) c
  quiet : ∀ c, (x (.of .guarded) c).dropped = []

namespace Run

/-! ## Plain runs -/

namespace Plain

theorem mirrored {x : Run V α} (h : x.Plain) : x.Mirrored := by
  intro c d hc hcd
  have same := h.steady (.of_loadable .guarded hc) hcd
  refine .inStep (h.quiet c) ?_ ?_ (same.serves.settings rfl)
  · rw [← h.modeless, same.answer]
  · rw [← h.modeless, same.context]

theorem ofExcept (r : Except (Fault V) α) : (Run.ofExcept r).Plain :=
  ⟨steady_ofExcept r, fun _ => rfl, fun _ => rfl⟩

protected theorem pure (a : α) : (pure a : Run V α).Plain := ofExcept (.ok a)

theorem stop (e : Fault V) : (Run.stop e : Run V α).Plain := ofExcept (.error e)

theorem log (e : Entry V) : (Run.log e).Plain := ⟨steady_log e, fun _ => rfl, fun _ => rfl⟩

protected theorem bind {x : Run V α} {f : α → Run V β} (h : x.Plain)
    (hf : ∀ a, x.Answers a → (f a).Plain) : (x >>= f).Plain := by
  refine ⟨h.steady.bind fun a ha => (hf a ha).steady, fun c => ?_, fun c => ?_⟩
  · cases hx : (x (.of .guarded) c).answer with
    | ok a =>
      have hx' : (x (.of .raw) c).answer = .ok a := h.modeless c ▸ hx
      rw [bind_apply_of_answer_ok hx, bind_apply_of_answer_ok hx', ← h.modeless,
        (hf a (answers_of_answer hx)).modeless]
    | error e =>
      have hx' : (x (.of .raw) c).answer = .error e := h.modeless c ▸ hx
      rw [bind_apply_of_answer_error hx, bind_apply_of_answer_error hx', ← h.modeless]
  · cases hx : (x (.of .guarded) c).answer with
    | ok a =>
      rw [dropped_bind_of_ok hx, h.quiet, (hf a (answers_of_answer hx)).quiet]
      rfl
    | error e => rw [dropped_bind_of_error hx, h.quiet]

end Plain

/-! ## What keeps step -/

omit [Term V] in
/-- Whatever follows a run drops its branches after those of the run. -/
theorem exists_dropped_bind (x : Run V α) (f : α → Run V β) (σ : Scope V) (c : Context V) :
    ∃ more, ((x >>= f) σ c).dropped = (x σ c).dropped ++ more := by
  cases hx : (x σ c).answer with
  | ok a => exact ⟨_, dropped_bind_of_ok hx f⟩
  | error e => exact ⟨[], by rw [dropped_bind_of_error hx, List.append_nil]⟩

end Run

/-- Sequences keep step if their first parts do and whatever follows does. -/
theorem Outcome.Mirrored.bind {x : Run V α} {f : α → Run V β} {c d : Context V}
    (h : Outcome.Mirrored (x (.of .guarded) c) (x (.of .raw) d))
    (hf : ∀ a, x.Answers a → (f a).Mirrored) :
    Outcome.Mirrored ((x >>= f) (.of .guarded) c) ((x >>= f) (.of .raw) d) := by
  cases h with
  | inStep dropped answer context loadable =>
    cases hx : (x (.of .guarded) c).answer with
    | ok a =>
      have hy : (x (.of .raw) d).answer = .ok a := answer.trans hx
      cases hf a (Run.answers_of_answer hx) loadable context with
      | inStep dropped' answer' context' loadable' =>
        refine .inStep ?_ ?_ ?_ ?_
        · rw [Run.dropped_bind_of_ok hx, dropped, dropped']
          rfl
        · rw [Run.answer_bind_of_ok hx, Run.answer_bind_of_ok hy, answer']
        · rw [Run.context_bind_of_ok hx, Run.context_bind_of_ok hy, context']
        · rw [Run.context_bind_of_ok hx]
          exact loadable'
      | ended first rest dropped' answer' =>
        refine .ended first rest ?_ ?_
        · rw [Run.dropped_bind_of_ok hx, dropped, dropped']
          rfl
        · rw [Run.answer_bind_of_ok hy, answer']
    | error e =>
      have hy : (x (.of .raw) d).answer = .error e := answer.trans hx
      refine .inStep ?_ ?_ ?_ ?_
      · rw [Run.dropped_bind_of_error hx, dropped]
      · rw [Run.answer_bind_of_error hx, Run.answer_bind_of_error hy]
      · rw [Run.context_bind_of_error hx, Run.context_bind_of_error hy, context]
      · rw [Run.context_bind_of_error hx]
        exact loadable
  | ended first rest dropped answer =>
    -- the raw run is over, and the guarded one can only drop more branches after the first
    obtain ⟨more, hmore⟩ := Run.exists_dropped_bind x f (.of .guarded) c
    refine .ended first (rest ++ more) ?_ (Run.answer_bind_of_error answer f)
    rw [hmore, dropped]
    rfl

namespace Run

theorem Steady.reading {x : Run V α} (h : x.Steady) (g : Except (Fault V) α → Except (Fault V) β) :
    (Run.reading g x).Steady := fun _ _ _ hs hcd =>
  have alike := h hs hcd
  ⟨congrArg g alike.answer, alike.news, alike.context, alike.serves⟩

namespace Mirrored

/-- Answers that are read as others keep step if failures are read as they are. -/
theorem reading {x : Run V α} (h : x.Mirrored) {g : Except (Fault V) α → Except (Fault V) β}
    (hg : ∀ f, g (.error (.failure f)) = .error (.failure f)) : (Run.reading g x).Mirrored := by
  intro c d hc hcd
  cases h hc hcd with
  | inStep dropped answer context loadable =>
    exact .inStep dropped (congrArg g answer) context loadable
  | ended first rest dropped answer =>
    exact .ended first rest dropped ((congrArg g answer).trans (hg first.error))

protected theorem bind {x : Run V α} {f : α → Run V β} (h : x.Mirrored)
    (hf : ∀ a, x.Answers a → (f a).Mirrored) : (x >>= f).Mirrored :=
  fun _ _ hc hcd => (h hc hcd).bind hf

/-- A guard drops the branch whose failure the raw run ends with. -/
theorem guarding {x : Run V α} (h : x.Mirrored) (n : String) (s : Subject V) :
    (Run.guarding n s x).Mirrored := by
  intro c d hc hcd
  have uncaught : Run.guarding n s x (.of .raw) d = (x >>= fun a => pure (some a)) (.of .raw) d :=
    guarding_apply_of_raw n s x rfl d
  rw [uncaught]
  by_cases hfail : ∃ f, (x (.of .guarded) c).answer = .error (.failure f)
  · obtain ⟨f, hf⟩ := hfail
    have reported : (Run.guarding n s x (.of .guarded) c).dropped
        = (x (.of .guarded) c).dropped ++ [⟨s, f⟩] := by
      rw [guarding_apply_of_guarded n s x rfl, bind_apply_of_ok (confine_apply_of_failure hf)]
      exact List.filterMap_append ..
    cases h hc hcd with
    | inStep dropped answer _ _ =>
      refine .ended ⟨s, f⟩ [] ?_ (answer_bind_of_error (answer.trans hf) _)
      rw [reported, dropped]
      rfl
    | ended first rest dropped answer =>
      refine .ended first (rest ++ [⟨s, f⟩]) ?_ (answer_bind_of_error answer _)
      rw [reported, dropped]
      rfl
  · rw [guarding_apply_of_unfailing (fun _ f hf => hfail ⟨f, hf⟩) n s]
    exact h.bind (fun a _ => (Plain.pure (some a)).mirrored) hc hcd

/-- The look at the settings after a success keeps step where there are settings to read. -/
theorem settle (n : String) (r : Option (List (Branch V α))) : (Run.settle n r).Mirrored := by
  intro c d hc hcd
  have alike := settle_alike n r (.of_loadable .guarded hc) hcd
  have raw : Run.settle n r (.of .raw) d = ⟨.ok (r.getD []), d, []⟩ := by
    cases r <;> rfl
  rw [raw]
  exact .inStep alike.dropped alike.answer.symm alike.context (alike.serves.settings rfl)

/-- Applications keep step if bodies do. -/
theorem apply {c : Comp V α} {s : Subject V} (h : (c.body s).Mirrored) : (c.apply s).Mirrored := by
  rw [Comp.apply_eq]
  exact (h.guarding c.name s).bind fun r _ => settle c.name r

end Mirrored

/-! ## Delimited parts and releases -/

omit [Term V] in
/-- A part that nobody receives from, as a part that drops nothing. -/
theorem delimit_none_apply (x : Run V α) (σ : Scope V) (c : Context V) :
    delimit none x σ c
      = ⟨(x (σ.receptive.withMode .guarded) c).answer, (x (σ.receptive.withMode .guarded) c).context,
        (x (σ.receptive.withMode .guarded) c).events.filter fun e => e.pending?.isNone⟩ := rfl

/-- A delimited part that is steady inside is steady, although the mode inside is another one. -/
theorem Steady.aside {x : Run V α} (h : x.Steady) : (delimit none x).Steady := by
  intro σ c d hs hcd
  rw [delimit_none_apply, delimit_none_apply]
  by_cases hc : c.Loadable
  · have inside : (σ.receptive.withMode .guarded).Serves c := ⟨hs.records, fun _ => hc⟩
    have alike := h inside hcd
    refine ⟨alike.answer, ?_, alike.context, ⟨hs.records, fun _ => alike.serves.settings rfl⟩⟩
    have swapped : ∀ events : List (Event V),
        (events.filter fun e => e.pending?.isNone).filter (fun e => !e.isRecord)
          = (events.filter fun e => !e.isRecord).filter fun e => e.pending?.isNone := fun events => by
      rw [List.filter_filter, List.filter_filter]
      exact List.filter_congr fun e _ => Bool.and_comm ..
    show List.filter _ (List.filter _ _) = List.filter _ (List.filter _ _)
    rw [swapped, swapped]
    exact congrArg (List.filter fun e => e.pending?.isNone) alike.news
  · -- in the raw mode there may be nothing to read, but then the contexts are the same
    obtain rfl : c = d := Context.eq_of_not_loadable hc hcd
    have raw : σ.mode = .raw := by
      cases hm : σ.mode with
      | raw => rfl
      | guarded => exact absurd (hs.settings hm) hc
    exact .refl_of_serves ⟨hs.records, fun hm => by rw [raw] at hm; cases hm⟩

/-- What is delimited keeps step, whatever it drops inside. -/
theorem Mirrored.aside {x : Run V α} (h : x.Steady) : (delimit none x).Mirrored := by
  intro c d hc hcd
  have alike := h.aside (.of_loadable .guarded hc) hcd
  have raw : delimit none x (.of .raw) d = delimit none x (.of .guarded) d :=
    delimit_apply none x rfl d
  rw [raw]
  exact .inStep (pending_delimit none x _ c) alike.answer.symm alike.context
    (alike.serves.settings rfl)

/-- What `attempt` makes of an answer. -/
def attempted : Except (Fault V) α → Except (Fault V) (Except (Fault V) α)
  | .ok a => .ok (.ok a)
  | .error .exhausted => .error .exhausted
  | .error e => .ok (.error e)

omit [Term V] in
/-- Attempting a run changes its answer only. -/
theorem attempt_apply (x : Run V α) (σ : Scope V) (c : Context V) :
    attempt x σ c = ⟨attempted (x σ c).answer, (x σ c).context, (x σ c).events⟩ := by
  rw [attempt]
  rcases x σ c with ⟨(f | d | _) | a, c', events⟩ <;> rfl

theorem Steady.attempt {x : Run V α} (h : x.Steady) : (Run.attempt x).Steady := by
  intro σ c d hs hcd
  have alike := h hs hcd
  rw [attempt_apply, attempt_apply]
  exact ⟨congrArg attempted alike.answer, alike.news, alike.context, alike.serves⟩

theorem Plain.reading {x : Run V α} (h : x.Plain) (g : Except (Fault V) α → Except (Fault V) β) :
    (Run.reading g x).Plain where
  steady := h.steady.reading g
  modeless c := by rw [Run.reading, Run.reading, h.modeless]
  quiet := h.quiet

theorem Plain.asBody {x : Run V α} (h : x.Plain) : (Run.asBody x).Plain := h.reading _

theorem Plain.parting {last : Run V Unit} (hl : last.Plain) (keep : α → Bool)
    (answer : Except (Fault V) α) : (Run.parting keep last answer).Plain :=
  Sequential.parting ⟨Plain.pure, Plain.bind⟩ Plain.stop hl keep answer

theorem Steady.afterUnless {last : Run V Unit} {x : Run V α} (h : x.Steady) (hl : last.Steady)
    (keep : α → Bool) : (Run.afterUnless keep last x).Steady :=
  h.attempt.bind fun answer _ => sequential_steady.parting steady_stop hl keep answer

/-- A release keeps step if it answers wherever a failure left off. -/
theorem Mirrored.afterUnless {last : Run V Unit} {x : Run V α} (h : x.Mirrored) (hl : last.Plain)
    (hends : ∀ c f, (x (.of .raw) c).answer = .error (.failure f) →
      (last (.of .raw) (x (.of .raw) c).context).answer = .ok ()) (keep : α → Bool) :
    (Run.afterUnless keep last x).Mirrored := by
  intro c d hc hcd
  have guarded := attempt_apply x (.of .guarded) c
  have raw := attempt_apply x (.of .raw) d
  cases h hc hcd with
  | inStep dropped answer context loadable =>
    have tried : Outcome.Mirrored (Run.attempt x (.of .guarded) c) (Run.attempt x (.of .raw) d) := by
      rw [guarded, raw]
      exact .inStep dropped (congrArg attempted answer) context loadable
    exact tried.bind fun answer _ => (hl.parting keep answer).mirrored
  | ended first rest dropped answer =>
    have kept : (Run.attempt x (.of .guarded) c).dropped = first :: rest := by
      rw [guarded]
      exact dropped
    obtain ⟨more, hmore⟩ :=
      exists_dropped_bind (Run.attempt x) (Run.parting keep last) (.of .guarded) c
    refine .ended first (rest ++ more) ?_ ?_
    · rw [kept] at hmore
      exact hmore
    · rw [answer] at raw
      show ((Run.attempt x >>= Run.parting keep last) (.of .raw) d).answer = _
      rw [bind_apply_of_ok raw]
      exact answer_bind_of_ok (hends d first.error answer) _

/-- Runs that are put together from plain ones by what the library does. -/
inductive Composed : {α : Type} → Run V α → Prop where
  | plain {α : Type} {x : Run V α} (h : x.Plain) : Composed x
  | bind {α β : Type} {x : Run V α} {f : α → Run V β} (h : Composed x)
      (hf : ∀ a, x.Answers a → Composed (f a)) : Composed (x >>= f)
  | guarding {α : Type} (n : String) (s : Subject V) {x : Run V α} (h : Composed x) :
      Composed (Run.guarding n s x)
  | apply {α : Type} {c : Comp V α} {s : Subject V} (h : Composed (c.body s)) : Composed (c.apply s)
  | aside {α : Type} {x : Run V α} (h : Composed x) : Composed (delimit none x)
  | reading {α β : Type} {x : Run V α} (h : Composed x) {g : Except (Fault V) α → Except (Fault V) β}
      (hg : ∀ f, g (.error (.failure f)) = .error (.failure f)) : Composed (Run.reading g x)
  | afterUnless {α : Type} {last : Run V Unit} {x : Run V α} (h : Composed x) (hl : last.Plain)
      (hends : ∀ c f, (x (.of .raw) c).answer = .error (.failure f) →
        (last (.of .raw) (x (.of .raw) c).context).answer = .ok ()) (keep : α → Bool) :
      Composed (Run.afterUnless keep last x)

namespace Composed

theorem steady {x : Run V α} (h : x.Composed) : x.Steady := by
  induction h with
  | plain h => exact h.steady
  | bind _ _ ih ihf => exact ih.bind ihf
  | guarding n s _ ih => exact fun _ _ _ hs hcd => (ih hs hcd).guarding n n s
  | apply _ ih => exact Comp.apply_alike ih
  | aside _ ih => exact ih.aside
  | reading _ _ ih => exact ih.reading _
  | afterUnless _ hl _ keep ih => exact ih.afterUnless hl.steady keep

/-- **The raw run goes with the guarded one**, for everything that the library puts together. -/
theorem mirrored {x : Run V α} (h : x.Composed) : x.Mirrored := by
  induction h with
  | plain h => exact h.mirrored
  | bind _ _ ih ihf => exact ih.bind ihf
  | guarding n s _ ih => exact ih.guarding n s
  | apply _ ih => exact ih.apply
  | aside h _ => exact .aside h.steady
  | reading _ hg ih => exact ih.reading hg
  | afterUnless _ hl hends keep ih => exact ih.afterUnless hl hends keep

end Composed

end Run

end SymbolicPaths
