import SymbolicPaths.Proofs.Switching
/-!
# What a cap does to an exploration

A cap is looked at after everything has been carried out.  So it cannot change what a computation does, nor
which failures are collected; it cuts off the end of what the computation gives, and one warning says so
(`Comp.explore_capped`).  Under a larger cap more of the same branches are left.

An exploration can end in a defect where the computation itself gives branches.  It looks at the settings even if
it has a cap of its own, and there may be none to be read; and if steps are logged it sets out the branches that
are left, of which one may have no writing.

The cap of the settings can also be looked at by host code.  Then the computation itself depends on it, and under
a larger cap it may have other branches.  All three are seen in `Comp.explore_not_capped`.
-/

namespace SymbolicPaths

variable {V α β : Type}

/-! ## Limits -/

namespace Exploration

/-- A limit that is exceeded whenever another is, where to have none is never exceeded. -/
def Tighter (limit limit' : Option Int) : Prop := ∀ q, limit' = some q → ∃ p, limit = some p ∧ p ≤ q

variable {limit limit' : Option Int}

/-- A limit that is no negative number is how many are kept at most. -/
theorem kept_eq_take (h : ∀ n, limit = some n → 0 ≤ n) (found : List β) :
    kept limit found = found.take (limit.elim found.length Int.toNat) := by
  cases limit with
  | none => exact (List.take_length).symm
  | some n => exact keep_of_nonneg (h n rfl) found

theorem exceeds_eq_true_iff (limit : Option Int) (found : List β) :
    exceeds limit found = true ↔ ∃ n, limit = some n ∧ n < found.length := by
  cases limit with
  | none => simp [exceeds]
  | some n => simp [exceeds_some]

theorem Tighter.exceeds (h : Tighter limit limit') {found : List β} (h' : exceeds limit' found = true) :
    exceeds limit found = true := by
  obtain ⟨q, hq, more⟩ := (exceeds_eq_true_iff ..).1 h'
  obtain ⟨p, hp, hpq⟩ := h q hq
  exact (exceeds_eq_true_iff ..).2 ⟨p, hp, by omega⟩

/-- Under a tighter limit no others are kept. -/
theorem Tighter.isPrefix_kept (h : Tighter limit limit') (hn : ∀ n, limit = some n → 0 ≤ n) (found : List β) :
    kept limit found <+: kept limit' found := by
  cases limit' with
  | none => exact Exploration.isPrefix_kept limit found
  | some q =>
    obtain ⟨p, rfl, hpq⟩ := h q rfl
    have nonneg : 0 ≤ p := hn p rfl
    rw [kept_eq_take hn, kept_eq_take (fun n hq => Option.some.inj hq ▸ Int.le_trans nonneg hpq)]
    exact List.take_prefix_take_left (Int.toNat_le_toNat hpq)

end Exploration

/-! ## What is said of an exploration -/

/-- Whether an event is a log record of a given weight. -/
def Event.hasLevel (l : Level) : Event V → Bool
  | entry e => e.level == l
  | _ => false

namespace Run

variable {x : Run V α} {σ : Scope V} {c : Context V}

theorem events_bind_of_ok {a : α} (h : (x σ c).answer = .ok a) (f : α → Run V β) :
    ((x >>= f) σ c).events = (x σ c).events ++ (f a σ (x σ c).context).events := by
  rw [bind_apply_of_answer_ok h]

/-- A log record that was kept is what is left behind. -/
theorem log_apply_of_answer {r : Entry V} (h : (Run.log r σ c).answer = .ok ()) :
    Run.log r σ c = ⟨.ok (), c, [.entry r]⟩ := by
  cases hr : σ.records r with
  | ok u => exact log_apply_of_ok c hr
  | error d =>
    rw [Run.log, emitIf_apply_of_error c hr] at h
    cases h

/-- To look at the settings leaves nothing behind. -/
theorem events_settings_bind {say : Installed V → Run V β} (h : ∀ i d, (say i σ d).events = [])
    (c : Context V) : ((settings >>= say) σ c).events = [] := by
  cases hi : (settings σ c).answer with
  | ok i =>
    rw [events_bind_of_ok hi, h, settings_apply]
    rfl
  | error e =>
    rw [bind_apply_of_answer_error hi, settings_apply]

theorem events_having (member : String) (x : Except String β) (σ : Scope V) (c : Context V) :
    (having member x σ c).events = [] := by
  cases x <;> rfl

end Run

/-- Settings that say the same of whether steps are logged.  Their caps may differ. -/
def Installed.Recapped [Term V] (i j : Installed V) : Prop := i.debug? = j.debug?

theorem Installed.Recapped.exchange [Term V] : Exchange (Recapped (V := V)) where
  refl _ := rfl
  debug h kind := by rw [show _ = _ from h]

namespace Comp

variable [Term V] {m : Comp V α} {cap : Option (Amount V)} {σ : Scope V} {c : Context V} {limit : Option Int}

/-! ### What is left behind -/

theorem events_effectiveCap (cap : Option (Amount V)) (σ : Scope V) (c : Context V) :
    (effectiveCap cap σ c).events = [] := by
  cases cap with
  | some a => rfl
  | none => exact Run.events_settings_bind (fun _ _ => Run.events_having ..) c

omit [Term V] in
theorem events_warn {found : List (Branch V α)} (h : (m.warn limit found σ c).answer = .ok ()) :
    (m.warn limit found σ c).events = m.cutRecords limit found := by
  cases limit with
  | none => rfl
  | some n =>
    rw [warn, Option.elim] at h ⊢
    rw [cutRecords, Option.elim]
    split at h
    · rw [if_pos ‹_›, if_pos ‹_›, Run.log_apply_of_answer h]
    · rw [if_neg ‹_›, if_neg ‹_›]
      rfl

/-- What an exploration says of what it found: that the limit is exceeded, if it is, and how much is
returned. -/
theorem events_summarize {found : List (Branch V α) × List (Dropped V)} {e : Exploration V α}
    (hlimit : Limits cap c limit) (h : (m.summarize cap found σ c).answer = .ok e) :
    (m.summarize cap found σ c).events = m.cutRecords limit found.1 ++
      [.entry (.explored m.name e.branches.length e.failures.length)] := by
  obtain ⟨amount, inForce, related⟩ := hlimit
  rw [← effectiveCap_answer cap σ c] at inForce
  obtain ⟨amount', inForce', h⟩ := Run.exists_of_answer_bind_ok h
  obtain rfl := Except.ok.inj (inForce.symm.trans inForce')
  refine (Run.events_bind_of_ok inForce _).trans ?_
  rw [events_effectiveCap, List.nil_append, cutOff_eq related]
  rw [cutOff_eq related] at h
  simp only [bind_assoc, pure_bind] at h ⊢
  obtain ⟨_, warned, h⟩ := Run.exists_of_answer_bind_ok h
  obtain ⟨_, logged, h⟩ := Run.exists_of_answer_bind_ok h
  obtain rfl := Except.ok.inj h
  rw [Run.events_bind_of_ok warned, events_warn warned, Run.events_bind_of_ok logged,
    Run.log_apply_of_answer logged]
  rfl

variable [Written α]

/-- The trace of the branches that it returns is all that may follow. -/
theorem events_display {branches : List (Branch V α)} {ev : Event V}
    (h : ev ∈ (m.display branches σ c).events) : ∃ text, ev = .entry (.outcome m.name text) := by
  have asked : (Run.debugging σ c : Outcome V Bool).events = [] :=
    Run.events_settings_bind (fun _ _ => Run.events_having ..) c
  cases hon : (Run.debugging σ c : Outcome V Bool).answer with
  | error f =>
    rw [display, Run.bind_apply_of_answer_error hon, asked] at h
    cases h
  | ok on =>
    rw [display, Run.events_bind_of_ok hon, asked, List.nil_append] at h
    cases on with
    | false => cases h
    | true =>
      rw [if_pos rfl] at h
      cases ht : Branch.layoutAll? branches with
      | error obstacle =>
        rw [ht] at h
        cases h
      | ok text =>
        rw [ht] at h
        have logged : ∀ d, ev ∈ (Run.log (.outcome m.name text) σ d).events → ev = .entry (.outcome m.name text) := by
          intro d hev
          rw [Run.log, Run.emitIf] at hev
          split at hev
          · exact List.mem_singleton.1 hev
          · cases hev
        exact ⟨text, logged _ h⟩

/-! ## Explorations under a limit -/

variable {s : Subject V} {found : List (Branch V α)} {e : Exploration V α}

/-- What an exploration returns, by what the computation gives and the limit in force. -/
theorem eq_of_explore_answer (direct : (m.apply s σ.receptive c).answer = .ok found)
    (hlimit : Limits cap (m.apply s σ.receptive c).context limit) (h : (m.explore cap s σ c).answer = .ok e) :
    e = ⟨Exploration.kept limit found, (m.apply s σ.receptive c).dropped, Exploration.exceeds limit found⟩ := by
  rw [explore_answer_of_ok rfl direct] at h
  obtain ⟨limit', hlimit', rfl⟩ := exists_limit_of_conclude h
  rw [hlimit.unique hlimit']

/-- What it leaves behind: what the computation does, then the warning if there is one, then how much was found,
and then the trace if there is one. -/
theorem exists_events_explore (direct : (m.apply s σ.receptive c).answer = .ok found)
    (hlimit : Limits cap (m.apply s σ.receptive c).context limit) (h : (m.explore cap s σ c).answer = .ok e) :
    ∃ trace, (m.explore cap s σ c).events = (Run.collect (m.apply s) σ c).events ++ (m.cutRecords limit found ++
        .entry (.explored m.name e.branches.length e.failures.length) :: trace) ∧
      ∀ ev ∈ trace, ∃ text, ev = .entry (.outcome m.name text) := by
  have collected : (Run.collect (m.apply s) σ c).answer = .ok (found, (m.apply s σ.receptive c).dropped) := by
    rw [Run.collect, direct]
    rfl
  rw [explore_eq] at h ⊢
  rw [Run.answer_bind_of_ok collected, conclude_eq] at h
  obtain ⟨e', summarized, h⟩ := Run.exists_of_answer_bind_ok h
  obtain ⟨_, displayed, h⟩ := Run.exists_of_answer_bind_ok h
  obtain rfl := Except.ok.inj h
  have said := events_summarize (c := (Run.collect (m.apply s) σ c).context) hlimit summarized
  obtain ⟨d, hd⟩ : ∃ d, (m.summarize cap (found, (m.apply s σ.receptive c).dropped) σ
      (Run.collect (m.apply s) σ c).context).context = d := ⟨_, rfl⟩
  rw [hd] at displayed
  refine ⟨(m.display e'.branches σ d).events, ?_, fun _ => events_display⟩
  rw [Run.events_bind_of_ok collected, conclude_eq, Run.events_bind_of_ok summarized, said, hd,
    Run.events_bind_of_ok displayed]
  show _ ++ (_ ++ [_] ++ (_ ++ [])) = _
  rw [List.append_nil, List.append_assoc]
  rfl

/-- To ask for the branches changes the answer of an exploration and nothing else. -/
theorem feasible_apply (m : Comp V α) (s : Subject V) (σ : Scope V) (c : Context V) :
    m.feasible s σ c = ⟨(m.explore none s σ c).answer.map (·.branches), (m.explore none s σ c).context,
      (m.explore none s σ c).events⟩ := by
  cases h : (m.explore none s σ c).answer with
  | ok e =>
    rw [feasible, Run.bind_apply_of_answer_ok h]
    exact congrArg (Outcome.mk _ _) (List.append_nil _)
  | error f => exact Run.bind_apply_of_answer_error h _

omit [Term V] [Written α] in
/-- The warnings among what is left behind are what the limit is the reason for. -/
theorem filter_cutRecords (found : List (Branch V α)) : ∀ l : Level, (m.cutRecords limit found).filter
    (Event.hasLevel l) = if l = .warning then m.cutRecords limit found else [] := by
  intro l
  cases limit with
  | none => cases l <;> rfl
  | some n =>
    rw [cutRecords, Option.elim]
    split <;> cases l <;> rfl

/-- **A cap only cuts off the end.**  Let a computation be explored from any state in any scope, and be applied
directly where whatever is dropped is taken.

* If the application ends in a fault, so does the exploration.
* Else let the limit in force where the computation leaves off, which is the number that is given or else that of
  the settings, be none or not negative.  The branches returned are the first ones of those found, as many as the
  limit allows; the failures are all that a collecting scope takes from the application, in order; it is said
  that there are more branches exactly if there are more than the limit.  What is left behind is what the
  application leaves in a collecting scope, and then one warning if the limit is exceeded, and one record at the
  level below with the numbers of branches and of failures returned.
* There is a result if log records are kept, the settings can be read there, and the branches returned can be set
  out if steps are logged.
* Let the computation be explored under two caps, in contexts in which the application gives the same branches
  and drops the same, and let the first limit be tighter.  Then the branches under the first are a prefix of those
  under the second, what is truncated under the second is under the first, and the failures are the same.
* The application gives and drops the same under two settings that differ in the cap if the host code is
  indifferent to it.
* To ask for the branches alone is to explore under no cap but that of the settings. -/
theorem explore_capped (m : Comp V α) (s : Subject V) (σ : Scope V) (c : Context V) :
    (∀ cap f, (m.apply s σ.receptive c).answer = .error f → (m.explore cap s σ c).answer = .error f) ∧
    (∀ cap limit found, (m.apply s σ.receptive c).answer = .ok found →
      Limits cap (m.apply s σ.receptive c).context limit → (∀ n, limit = some n → 0 ≤ n) →
      (∀ e, (m.explore cap s σ c).answer = .ok e →
        e.branches = found.take (limit.elim found.length Int.toNat) ∧
        (Run.collect (m.apply s) σ c).answer = .ok (found, e.failures) ∧
        (e.truncated = true ↔ ∃ n, limit = some n ∧ n < found.length) ∧
        ∃ own, (m.explore cap s σ c).events = (Run.collect (m.apply s) σ c).events ++ own ∧
          own.filter (Event.hasLevel .warning) = (limit.elim [] fun n =>
            if n < found.length then [.entry (.truncated m.name found.length n)] else []) ∧
          own.filter (Event.hasLevel .info)
            = [.entry (.explored m.name e.branches.length e.failures.length)]) ∧
      ∀ i on, (∀ r, σ.records r = .ok ()) →
        (m.apply s σ.receptive c).context.primed.settings = some i → i.debug? = .ok on →
        (on = true → ∃ text,
          Branch.layoutAll? (found.take (limit.elim found.length Int.toNat)) = .ok text) →
        ∃ e, (m.explore cap s σ c).answer = .ok e) ∧
    (∀ d found, (m.apply s σ.receptive c).answer = .ok found → (m.apply s σ.receptive d).answer = .ok found →
      (m.apply s σ.receptive c).dropped = (m.apply s σ.receptive d).dropped →
      ∀ cap cap' limit limit', Limits cap (m.apply s σ.receptive c).context limit →
        Limits cap' (m.apply s σ.receptive d).context limit' → (∀ n, limit = some n → 0 ≤ n) →
        Exploration.Tighter limit limit' →
        ∀ e e', (m.explore cap s σ c).answer = .ok e → (m.explore cap' s σ d).answer = .ok e' →
          e.branches <+: e'.branches ∧ (e'.truncated = true → e.truncated = true) ∧
            e.failures = e'.failures) ∧
    (∀ d, (m.body s).Indifferent Installed.Recapped → σ.Traces → c.Exchanged Installed.Recapped d →
      (m.apply s σ.receptive c).answer = (m.apply s σ.receptive d).answer ∧
        (m.apply s σ.receptive c).dropped = (m.apply s σ.receptive d).dropped) ∧
    m.feasible s σ c = ⟨(m.explore none s σ c).answer.map (·.branches), (m.explore none s σ c).context,
      (m.explore none s σ c).events⟩ := by
  refine ⟨fun cap f h => explore_answer_of_error rfl h, fun cap limit found direct hlimit nonneg => ?_, ?_, ?_, ?_⟩
  · have kept := Exploration.kept_eq_take nonneg found
    refine ⟨fun e he => ?_, fun i on records hi hon laidOut => ?_⟩
    · obtain ⟨trace, events, outcomes⟩ := exists_events_explore direct hlimit he
      obtain rfl := eq_of_explore_answer direct hlimit he
      have untold : ∀ l : Level, l ≠ .debug → trace.filter (Event.hasLevel l) = [] := by
        refine fun l hl => List.filter_eq_nil_iff.2 fun ev hev => ?_
        obtain ⟨text, rfl⟩ := outcomes ev hev
        exact fun h => hl (beq_iff_eq.1 h).symm
      refine ⟨kept, ?_, Exploration.exceeds_eq_true_iff limit found, _, events, ?_, ?_⟩
      · rw [Run.collect, direct]
        rfl
      · rw [List.filter_append, filter_cutRecords, if_pos rfl, List.filter_cons_of_neg Bool.false_ne_true,
          untold .warning (by decide), List.append_nil]
        rfl
      · rw [List.filter_append, filter_cutRecords, if_neg (by decide), List.filter_cons_of_pos rfl,
          untold .info (by decide), List.nil_append]
    · rw [← kept] at laidOut
      exact exists_explore_answer direct hlimit records hi hon laidOut
  · intro d found direct direct' same cap cap' limit limit' hlimit hlimit' nonneg tighter e e' he he'
    obtain rfl := eq_of_explore_answer direct hlimit he
    obtain rfl := eq_of_explore_answer direct' hlimit' he'
    exact ⟨tighter.isPrefix_kept nonneg found, tighter.exceeds, same⟩
  · intro d indifferent traces hcd
    have unchanged := indifferent.apply Installed.Recapped.exchange (σ := σ.receptive) traces hcd
    exact ⟨unchanged.answer, unchanged.dropped⟩
  · exact feasible_apply m s σ c

section Instances

open Script

/-- A fork with two branches on one side of another, and a read that finds no variable on the other side. -/
def forkOrMiss : Comp (Datum Empty) (Datum Empty) := choose.bind fun side =>
  return if side then bothSides else readVar (.text "x")

theorem built_forkOrMiss : Built (Run.Indifferent Installed.Recapped) (fun _ => True) forkOrMiss := by
  refine .bind .choose (fun side => .of_unconsulted fun σ c t => rfl) ?_
  rintro side d ⟨σ, c, hd⟩
  obtain rfl := Except.ok.inj hd
  cases side with
  | true => exact .relabel _ .choose
  | false => exact .readVar _

/-- Settings with a cap, read from the environment. -/
def cappedBy (n : Int) : Context (Datum Empty) := { settings := some (.loaded { maxBranches := some n }) }

/-- Where the settings have a cap of two, both branches are returned under that cap, and the first of them under a
cap of one; the one failure is returned either way.  Where the settings have a cap of one, the computation gives
the same. -/
theorem explore_capped_forkOrMiss :
    (∃ e e', (forkOrMiss.explore (some (.number 1)) (.state .empty) (.of .guarded) (cappedBy 2)).answer = .ok e ∧
      (forkOrMiss.explore none (.state .empty) (.of .guarded) (cappedBy 2)).answer = .ok e' ∧
      e.branches = [⟨.state .empty, .bool true⟩] ∧ e.truncated = true ∧ e.branches <+: e'.branches ∧
      e'.branches = [⟨.state .empty, .bool true⟩, ⟨.state .empty, .bool false⟩] ∧ e.failures = e'.failures) ∧
    (forkOrMiss.apply (.state .empty) (.of .guarded) (cappedBy 2)).answer
      = (forkOrMiss.apply (.state .empty) (.of .guarded) (cappedBy 1)).answer := by
  obtain ⟨-, capped, compared, same, -⟩ := explore_capped forkOrMiss (.state .empty) (.of .guarded) (cappedBy 2)
  have direct : (forkOrMiss.apply (.state .empty) (.of .guarded) (cappedBy 2)).answer
      = .ok [⟨.state .empty, .bool true⟩, ⟨.state .empty, .bool false⟩] := rfl
  have one := Limits.number 1 (forkOrMiss.apply (.state .empty) (.of .guarded) (cappedBy 2)).context
  have two : Limits none (forkOrMiss.apply (.state .empty) (.of .guarded) (cappedBy 2)).context (some 2) :=
    .loaded (t := { maxBranches := some 2 }) rfl
  obtain ⟨found, answers⟩ := capped _ _ _ direct one fun n hn => by cases hn; decide
  obtain ⟨found', answers'⟩ := capped _ _ _ direct two fun n hn => by cases hn; decide
  obtain ⟨e, he⟩ := answers _ false (fun _ => rfl) rfl rfl fun on => by cases on
  obtain ⟨e', he'⟩ := answers' _ false (fun _ => rfl) rfl rfl fun on => by cases on
  obtain ⟨branches, -, truncated, -⟩ := found e he
  obtain ⟨branches', -, -, -⟩ := found' e' he'
  obtain ⟨shorter, -, failures⟩ := compared _ _ direct direct rfl _ _ _ _ one two
    (fun n hn => by cases hn; decide) (fun q hq => ⟨1, rfl, by cases hq; decide⟩) e e' he he'
  exact ⟨⟨e, e', he, he', branches, truncated.2 ⟨1, rfl, by decide⟩, shorter, branches', failures⟩,
    (same (cappedBy 1) (built_forkOrMiss.indifferent Installed.Recapped.exchange _) (fun _ _ => rfl)
      (Context.exchanged_of {} rfl)).1⟩

/-- One branch that says whether a fork has more branches than the cap of the settings allows. -/
def askCap : Comp (Datum Empty) (Datum Empty) where
  name := "ask"
  body s := do return [⟨s, .bool (← bothSides.explore none s).truncated⟩]

/-- **What keeps a cap from only cutting off.**  Where the settings cannot be read, a read that finds no variable
gives no branch, and to explore it under a cap of its own ends in a defect.  So it ends where steps are logged
and a branch cannot be written.  And a computation that looks at the cap of the settings has other branches under
a larger one. -/
theorem explore_not_capped :
    ((readVar (.text "x") : Comp (Datum Empty) _).apply (.state .empty) (.of .guarded) .misconfigured).answer
        = .ok [] ∧
      ((readVar (.text "x") : Comp (Datum Empty) _).explore (some (.number 5)) (.state .empty) (.of .guarded)
        .misconfigured).answer = .error (.defect (.settings (.malformedCap "abc"))) ∧
    (giveTooLong.apply (.state .empty) (.of .guarded) { settings := some (switchedTo true) }).answer
        = .ok [⟨.state .empty, .int Text.firstTooLong⟩] ∧
      (giveTooLong.explore none (.state .empty) (.of .guarded) { settings := some (switchedTo true) }).answer
        = .error (.defect .tooLong) ∧
    ∃ e e', (askCap.explore none (.state .empty) (.of .guarded) (cappedBy 1)).answer = .ok e ∧
      (askCap.explore none (.state .empty) (.of .guarded) (cappedBy 2)).answer = .ok e' ∧
      e.branches = [⟨.state .empty, .bool true⟩] ∧ e'.branches = [⟨.state .empty, .bool false⟩] := by
  refine ⟨rfl, rfl, rfl, ?_, _, _, rfl, rfl, rfl, rfl⟩
  exact explore_pure_of_tooLong (Nat.le_of_eq (Int.natAbs_natCast _).symm)

end Instances

end Comp

end SymbolicPaths
