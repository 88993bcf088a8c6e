import SymbolicPaths.Proofs.Closure
/-!
# What settings do not change

Two runs are compared that are the same but for the settings that are installed.  A run is *indifferent* to
an exchange of settings (`Run.Indifferent`) if it gives the same answer either way, or ends in the same fault,
leaves the same events behind in the same order, and installs nothing that was not installed.  Log records
that are there only because steps are logged are not counted (`Entry.isTrace`); everything else is, and so
are the branches that were dropped and received.

There is one place where the library looks at the settings while it carries a computation out: a guarded
application asks whether steps are logged when it has its branches (`Run.announce`).  It is indifferent to
every exchange of settings of which neither is at a loss for an answer there (`Installed.Exchange`), and all
else inherits this: what the library does is indifferent if host code is (`Run.Indifferent.closure`).

The trace may be refused by whoever keeps log records, and then it is not just the trace that is missing.  So
the runs are compared where it is taken (`Scope.Traces`).
-/

namespace SymbolicPaths

variable {V α β : Type}

/-! ## The trace -/

/-- Whether a log record is there only because steps are logged. -/
def Entry.isTrace : Entry V → Bool
  | produced .. | outcome .. => true
  | _ => false

/-- Whether an event is such a log record. -/
def Event.isTrace : Event V → Bool
  | entry e => e.isTrace
  | _ => false

/-- What a run leaves behind besides the trace. -/
def Outcome.said (o : Outcome V α) : List (Event V) := o.events.filter fun e => !e.isTrace

/-- Whoever keeps log records takes the trace. -/
def Scope.Traces (σ : Scope V) : Prop := ∀ e : Entry V, e.isTrace = true → σ.records e = .ok ()

/-- What is pending is no part of the trace. -/
theorem Outcome.filterMap_pending?_said (o : Outcome V α) :
    o.said.filterMap Event.pending? = o.dropped := by
  have unseen : (fun e : Event V => if (!e.isTrace) = true then e.pending? else none) = Event.pending? := by
    funext e
    rcases e with (_ | _ | _ | _ | _ | _ | _) | _ | _ | _ <;> rfl
  rw [said, dropped, List.filterMap_filter, unseen]

/-! ## Exchanges of settings -/

/-- Settings that may stand for one another: neither knows whether steps are logged where the other one does
not. -/
structure Installed.Exchange [Term V] (R : Installed V → Installed V → Prop) : Prop where
  refl : ∀ i, R i i
  debug : ∀ {i j}, R i j → ∀ kind, i.debug? = .error kind ↔ j.debug? = .error kind

/-- Contexts that are the same but for the settings, and these stand for one another. -/
structure Context.Exchanged (R : Installed V → Installed V → Prop) (c d : Context V) : Prop where
  settings : Option.Rel R c.settings d.settings
  rest : d = { c with settings := d.settings }

/-- Outcomes that are the same but for the trace and the settings. -/
structure Outcome.Unchanged (R : Installed V → Installed V → Prop) (o p : Outcome V α) : Prop where
  answer : o.answer = p.answer
  said : o.said = p.said
  context : o.context.Exchanged R p.context

/-- A run that is the same whichever settings are installed. -/
def Run.Indifferent (R : Installed V → Installed V → Prop) (x : Run V α) : Prop :=
  ∀ ⦃σ : Scope V⦄, σ.Traces → ∀ ⦃c d : Context V⦄, c.Exchanged R d → Outcome.Unchanged R (x σ c) (x σ d)

variable {R : Installed V → Installed V → Prop} {σ : Scope V} {c d : Context V}

/-- Settings that are installed can be exchanged. -/
theorem Context.exchanged_of (c : Context V) {i j : Installed V} (h : R i j) :
    Context.Exchanged R { c with settings := some i } { c with settings := some j } := ⟨.some h, rfl⟩

/-- Nothing is exchanged where nothing is installed. -/
theorem Context.Exchanged.eq_of_none (h : c.Exchanged R d) (hc : c.settings = none) : c = d := by
  have settings := h.settings
  rw [hc] at settings
  have hd : d.settings = none := by
    cases hd : d.settings with
    | none => rfl
    | some j =>
      rw [hd] at settings
      cases settings
  rw [h.rest, hd, ← hc]

theorem Context.Exchanged.exists_of_some (h : c.Exchanged R d) {i : Installed V} (hc : c.settings = some i) :
    ∃ j, d.settings = some j ∧ R i j := by
  have settings := h.settings
  rw [hc] at settings
  cases hd : d.settings with
  | none =>
    rw [hd] at settings
    cases settings
  | some j =>
    rw [hd] at settings
    cases settings with
    | some hij => exact ⟨j, rfl, hij⟩

/-- Nothing has to be exchanged. -/
theorem Context.Exchanged.refl (hR : ∀ i, R i i) (c : Context V) : c.Exchanged R c := by
  refine ⟨?_, rfl⟩
  cases c.settings with
  | none => exact .none
  | some i => exact .some (hR i)

namespace Outcome.Unchanged

theorem refl (hR : ∀ i, R i i) (o : Outcome V α) : Unchanged R o o := ⟨rfl, rfl, .refl hR _⟩

/-- What was dropped and what was received is the same. -/
theorem dropped {o p : Outcome V α} (h : Unchanged R o p) : o.dropped = p.dropped := by
  rw [← o.filterMap_pending?_said, h.said, p.filterMap_pending?_said]

/-- Sequences are the same if their first parts are and what follows their answer is. -/
theorem bind {x : Run V α} {f : α → Run V β} (h : Unchanged R (x σ c) (x σ d))
    (hf : ∀ a, (x σ c).answer = .ok a → Unchanged R (f a σ (x σ c).context) (f a σ (x σ d).context)) :
    Unchanged R ((x >>= f) σ c) ((x >>= f) σ d) := by
  cases hx : (x σ c).answer with
  | ok a =>
    have hy : (x σ d).answer = .ok a := h.answer.symm.trans hx
    have next := hf a hx
    rw [Run.bind_apply_of_answer_ok hx, Run.bind_apply_of_answer_ok hy]
    refine ⟨next.answer, ?_, next.context⟩
    show List.filter _ _ = List.filter _ _
    rw [List.filter_append, List.filter_append]
    exact congrArg₂ (· ++ ·) h.said next.said
  | error e =>
    have hy : (x σ d).answer = .error e := h.answer.symm.trans hx
    rw [Run.bind_apply_of_answer_error hx, Run.bind_apply_of_answer_error hy]
    exact ⟨rfl, h.said, h.context⟩

/-- To change the answer, and the events besides the trace, changes nothing. -/
theorem map {o p : Outcome V α} (h : Unchanged R o p) {r r' : Except (Fault V) β} (hr : r = r')
    {es fs : List (Event V)}
    (hes : (es.filter fun e => !e.isTrace) = fs.filter fun e => !e.isTrace) :
    Unchanged R ⟨r, o.context, es⟩ ⟨r', p.context, fs⟩ := ⟨hr, hes, h.context⟩

end Outcome.Unchanged

namespace Run.Indifferent

/-! ## Runs that do not look at the context -/

/-- A run that neither looks at the context nor changes it. -/
theorem of_still {x : Run V α} (h : ∀ σ, ∃ r es, ∀ c, x σ c = ⟨r, c, es⟩) : x.Indifferent R := by
  intro σ _ c d hcd
  obtain ⟨r, es, hx⟩ := h σ
  rw [hx, hx]
  exact ⟨rfl, rfl, hcd⟩

/-- A run that does not consult the settings, nor install any. -/
theorem of_unconsulted {x : Run V α} (h : ∀ σ c t, x σ { c with settings := t } = { x σ c with
    context := { (x σ c).context with settings := t } }) : x.Indifferent R := by
  intro σ _ c d hcd
  have hx : x σ c = { x σ c with context := { (x σ c).context with settings := c.settings } } := h σ c c.settings
  have hy : x σ d = { x σ c with context := { (x σ c).context with settings := d.settings } } := by
    rw [hcd.rest]
    exact h σ c d.settings
  have kept : (x σ c).context.settings = c.settings := congrArg (·.context.settings) hx
  rw [hy]
  refine ⟨rfl, rfl, ?_, rfl⟩
  show Option.Rel R (x σ c).context.settings d.settings
  rw [kept]
  exact hcd.settings

theorem ofExcept (r : Except (Fault V) α) : (Run.ofExcept r).Indifferent R :=
  of_still fun _ => ⟨r, [], fun _ => rfl⟩

theorem mode : (Run.mode : Run V Mode).Indifferent R := of_still fun σ => ⟨.ok σ.mode, [], fun _ => rfl⟩

/-- An event that somebody takes or refuses. -/
theorem emitIf (taken : Scope V → Except (Defect V) Unit) (e : Event V) :
    (Run.emitIf taken e).Indifferent R := by
  refine of_still fun σ => ?_
  cases h : taken σ with
  | ok u => exact ⟨_, _, fun c => emitIf_apply_of_ok c h e⟩
  | error x => exact ⟨_, _, fun c => emitIf_apply_of_error c h e⟩

theorem bind {x : Run V α} {f : α → Run V β} (h : x.Indifferent R)
    (hf : ∀ a, x.Answers a → (f a).Indifferent R) : (x >>= f).Indifferent R :=
  fun _ traces _ _ hcd => (h traces hcd).bind fun a ha => hf a (answers_of_answer ha) traces (h traces hcd).context

theorem family : Family (V := V) (Indifferent R) where
  pure a := ofExcept (.ok a)
  bind := bind
  stop e := ofExcept (.error e)
  log _ := emitIf _ _

/-! ## Guards -/

theorem confine {x : Run V α} (h : x.Indifferent R) : (Run.confine x).Indifferent R := by
  intro σ traces c d hcd
  rw [confine_apply, confine_apply]
  exact (h traces hcd).map (congrArg confined (h traces hcd).answer) (h traces hcd).said

theorem attempt {x : Run V α} (h : x.Indifferent R) : (Run.attempt x).Indifferent R := by
  intro σ traces c d hcd
  rw [attempt_apply, attempt_apply]
  exact (h traces hcd).map (congrArg attempted (h traces hcd).answer) (h traces hcd).said

/-- Answers that are read as others. -/
theorem reading {x : Run V α} (h : x.Indifferent R) (g : Except (Fault V) α → Except (Fault V) β) :
    (Run.reading g x).Indifferent R :=
  fun _ traces _ _ hcd => (h traces hcd).map (congrArg g (h traces hcd).answer) (h traces hcd).said

theorem guarding (n : String) (s : Subject V) {x : Run V α} (h : x.Indifferent R) :
    (Run.guarding n s x).Indifferent R := by
  refine mode.bind fun m _ => ?_
  cases m with
  | raw => exact h.bind fun a _ => family.pure (some a)
  | guarded =>
    refine h.confine.bind fun r _ => ?_
    cases r with
    | ok a => exact family.pure (some a)
    | error f => exact ((emitIf _ _).bind fun _ _ => emitIf _ _).bind fun _ _ => family.pure none

/-! ## Scopes -/

/-- A run in another scope that takes the trace as well. -/
theorem inMode (m : Mode) {x : Run V α} (h : x.Indifferent R) : (Run.inMode m x).Indifferent R :=
  fun σ traces _ _ hcd => h (σ := σ.withMode m) traces hcd

/-- What is kept of the events, if it is not kept for the sake of the trace. -/
theorem filter_said {o p : Outcome V α} (h : o.said = p.said) (q : Event V → Bool) :
    ((o.events.filter q).filter fun e => !e.isTrace) = (p.events.filter q).filter fun e => !e.isTrace := by
  have swapped : ∀ es : List (Event V), (es.filter q).filter (fun e => !e.isTrace)
      = (es.filter fun e => !e.isTrace).filter q := fun es => by
    rw [List.filter_filter, List.filter_filter]
    exact List.filter_congr fun e _ => Bool.and_comm ..
  rw [swapped, swapped]
  exact congrArg (List.filter q) h

theorem discard {x : Run V α} (h : x.Indifferent R) : (Run.discard x).Indifferent R := by
  intro σ traces c d hcd
  have inside := h (σ := σ.receptive) traces hcd
  exact inside.map inside.answer (filter_said inside.said _)

theorem collect {x : Run V α} (h : x.Indifferent R) : (Run.collect x).Indifferent R := by
  intro σ traces c d hcd
  have inside := h (σ := σ.receptive) traces hcd
  refine inside.map ?_ (filter_said inside.said _)
  show Except.map (fun a => (a, (x σ.receptive c).dropped)) (x σ.receptive c).answer
    = Except.map (fun a => (a, (x σ.receptive d).dropped)) (x σ.receptive d).answer
  rw [inside.answer, inside.dropped]

theorem deliverTo (r : Receiver V) {x : Run V α} (h : x.Indifferent R) : (Run.deliverTo r x).Indifferent R := by
  intro σ traces c d hcd
  have inside := h (σ := σ.receivedBy r.takes) traces hcd
  refine inside.map inside.answer ?_
  -- whoever receives what is pending, it is no part of the trace before nor after
  have unseen : ∀ e : Event V, (e.receivedBy r.label).isTrace = e.isTrace := fun e => by cases e <;> rfl
  have swapped : ∀ es : List (Event V), (es.map (Event.receivedBy r.label)).filter (fun e => !e.isTrace)
      = (es.filter fun e => !e.isTrace).map (Event.receivedBy r.label) := fun es => by
    rw [List.filter_map]
    exact congrArg (List.map _) (List.filter_congr fun e _ => congrArg _ (unseen e))
  rw [swapped, swapped]
  exact congrArg (List.map _) inside.said

theorem delimit (receiver : Option (Receiver V)) {x : Run V α} (h : x.Indifferent R) :
    (Run.delimit receiver x).Indifferent R := by
  cases receiver with
  | none => exact (h.inMode .guarded).discard
  | some r => exact (h.inMode .guarded).deliverTo r

/-! ## Applications -/

variable [Term V]

/-- Whether steps are logged, where settings are installed. -/
theorem debugging_apply_of_installed {i : Installed V} (hc : c.settings = some i) (σ : Scope V) :
    Run.debugging σ c = ⟨(Run.having "debug" i.debug? σ c).answer, c, []⟩ := by
  rw [Run.debugging, bind_apply_of_ok (settings_apply_of_installed hc σ)]
  cases i.debug? <;> rfl

theorem announce_apply_of_installed {i : Installed V} (traces : σ.Traces) (hc : c.settings = some i)
    (n : String) (k : Nat) :
    Run.announce n k σ c = match i.debug? with
      | .error kind => ⟨.error (.defect (.lacking kind "debug")), c, []⟩
      | .ok on => ⟨.ok (), c, if on then [.entry (.produced n k)] else []⟩ := by
  have asked := debugging_apply_of_installed hc σ
  cases hd : i.debug? with
  | error kind =>
    rw [hd] at asked
    exact bind_apply_of_error asked _
  | ok on =>
    rw [hd] at asked
    have logged := log_apply_of_ok c (traces (.produced n k) rfl)
    refine (bind_apply_of_ok asked _).trans ?_
    cases on with
    | true => simp only [if_true, logged, List.nil_append]
    | false => rfl

omit [Term V] in
/-- Something that the settings say is looked at, and they say the same of it. -/
theorem looked (hR : ∀ i, R i i) {say : Installed V → Run V β} (alike : ∀ {i j}, R i j → say i = say j)
    (still : ∀ i, (say i).Indifferent R) : (Run.settings >>= say).Indifferent R := by
  intro σ traces c d hcd
  cases hc : c.settings with
  | none =>
    obtain rfl := hcd.eq_of_none hc
    exact .refl hR _
  | some i =>
    obtain ⟨j, hd, hij⟩ := hcd.exists_of_some hc
    rw [bind_apply_of_ok (settings_apply_of_installed hc σ), bind_apply_of_ok (settings_apply_of_installed hd σ),
      ← alike hij]
    exact still i traces hcd

variable (exchange : Installed.Exchange R)

include exchange

/-- **The one look at the settings is indifferent.** -/
theorem announce (n : String) (k : Nat) : (Run.announce n k).Indifferent R := by
  intro σ traces c d hcd
  cases hc : c.settings with
  | none =>
    obtain rfl := hcd.eq_of_none hc
    exact .refl exchange.refl _
  | some i =>
    obtain ⟨j, hd, hij⟩ := hcd.exists_of_some hc
    rw [announce_apply_of_installed traces hc, announce_apply_of_installed traces hd]
    have sure := exchange.debug hij
    cases hi : i.debug? with
    | error kind =>
      rw [(sure kind).1 hi]
      exact ⟨rfl, rfl, hcd⟩
    | ok on =>
      cases hj : j.debug? with
      | error kind =>
        rw [(sure kind).2 hj] at hi
        cases hi
      | ok on' =>
        refine ⟨rfl, ?_, hcd⟩
        cases on <;> cases on' <;> rfl

theorem apply {m : Comp V α} {s : Subject V} (h : (m.body s).Indifferent R) :
    (m.apply s).Indifferent R := by
  rw [Comp.apply_eq]
  refine (h.guarding m.name s).bind fun r _ => ?_
  cases r with
  | none => exact family.pure []
  | some bs =>
    refine mode.bind fun k _ => ?_
    split
    · exact (announce exchange m.name bs.length).bind fun _ _ => family.pure bs
    · exact family.pure bs

/-- **What is put together of indifferent runs is indifferent.** -/
theorem closure : Closure (V := V) (Indifferent R) where
  toHousehold := family.household
  guarding n s _ h := guarding n s h
  unlessOver h := h.reading _
  asBody h := h.reading _
  apply h := apply exchange h

end Run.Indifferent

end SymbolicPaths
