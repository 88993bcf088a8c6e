import SymbolicPaths.Proofs.Observation
/-!
# Guards

Everything that the library carries out stands under guards: a computation under its own, each
continuation of a sequence under another.  This file says when a guard can be seen.

* `Run.caught` is what a guard comes to: the branches, or none if the guarded part failed.  An applied
  computation is like its caught body (`Comp.apply_alike_caught`): the look at the settings and the log
  record after a success cannot be seen where runs are served.
* A run is `Contained` if it never ends in a failure while guarded.  Every applied computation is, and
  a second guard around a contained run is no guard at all (`Run.caught_of_contained`).  In the raw mode
  no guard is one.

So a tower of guards comes down to its innermost one, which is why a sequence of sequences and a
sequence of delays can be compared by what they apply and by nothing else.
-/

namespace SymbolicPaths

variable {V α β ι : Type} [Term V]

namespace Run

/-! ## What a guard comes to -/

/-- The branches of a guarded part, or none if it failed. -/
def caught (computation : String) (state : Subject V) (x : Run V (List α)) : Run V (List α) := do
  return (← guarding computation state x).getD []

/-- What `confine` makes of an answer. -/
def confined : Except (Fault V) α → Except (Fault V) (Except (Failure V) α)
  | .ok a => .ok (.ok a)
  | .error (.failure f) => .ok (.error f)
  | .error e => .error e

omit [Term V] in
/-- Confining a run changes its answer only. -/
theorem confine_apply (x : Run V α) (σ : Scope V) (c : Context V) :
    confine x σ c = ⟨confined (x σ c).answer, (x σ c).context, (x σ c).events⟩ := by
  rw [confine]
  rcases x σ c with ⟨(f | d | _) | a, c', events⟩ <;> rfl

omit [Term V] in
/-- A run that does not say it is over is gone on with as it is. -/
theorem unlessOver_bind_apply {x : Run V α} {σ : Scope V} {c : Context V}
    (h : ∀ e, (x σ c).answer = .error e → e.over? = none) (f : Except (List V) α → Run V β) :
    (unlessOver x >>= f) σ c = (x >>= fun a => f (.ok a)) σ c := by
  have carried : unlessOver x σ c = ⟨withOver (x σ c).answer, (x σ c).context, (x σ c).events⟩ := rfl
  cases hx : (x σ c).answer with
  | ok a =>
    rw [hx] at carried
    rw [bind_apply_of_ok carried, bind_apply_of_answer_ok hx]
  | error e =>
    have lasting : withOver (.error e : Except (Fault V) α) = .error e := by rw [withOver, h e hx]
    rw [hx, lasting] at carried
    rw [bind_apply_of_error carried, bind_apply_of_answer_error hx]

omit [Term V] in
theorem answer_of_asBody {x : Run V α} {σ : Scope V} {c : Context V} {a : α}
    (h : (asBody x σ c).answer = .ok a) : (x σ c).answer = .ok a := by
  have read : (x σ c).answer.mapError Fault.ofBody = .ok a := h
  cases hx : (x σ c).answer with
  | ok b =>
    rw [hx] at read
    exact congrArg Except.ok (Except.ok.inj read)
  | error e =>
    rw [hx] at read
    cases read

omit [Term V] in
/-- What a body answers it answers as a body. -/
theorem answers_of_asBody {x : Run V α} {a : α} (h : (asBody x).Answers a) : x.Answers a := by
  obtain ⟨σ, c, h⟩ := h
  exact answers_of_answer (answer_of_asBody h)

omit [Term V] in
theorem answer_of_unlessOver {x : Run V α} {σ : Scope V} {c : Context V} {a : α}
    (h : (unlessOver x σ c).answer = .ok (.ok a)) : (x σ c).answer = .ok a := by
  have read : withOver (x σ c).answer = .ok (.ok a) := h
  cases hx : (x σ c).answer with
  | ok b =>
    rw [hx] at read
    exact congrArg Except.ok (Except.ok.inj (Except.ok.inj read))
  | error e =>
    rw [hx, withOver] at read
    split at read <;> cases read

omit [Term V] in
/-- Whoever takes the error that says there is nothing more to come for an end has the answers of the
run. -/
theorem answers_of_unlessOver {x : Run V α} {a : α} (h : (unlessOver x).Answers (.ok a)) :
    x.Answers a := by
  obtain ⟨σ, c, h⟩ := h
  exact answers_of_answer (answer_of_unlessOver h)

omit [Term V] in
/-- What goes on from there is what went wrong. -/
theorem error_of_unlessOver {x : Run V α} {σ : Scope V} {c : Context V} {e : Fault V}
    (h : (unlessOver x σ c).answer = .error e) : (x σ c).answer = .error e := by
  have read : withOver (x σ c).answer = .error e := h
  cases hx : (x σ c).answer with
  | ok b =>
    rw [hx] at read
    cases read
  | error e' =>
    rw [hx, withOver] at read
    split at read
    · cases read
    · exact congrArg Except.error (Except.error.inj read)

/-- What a guard does with a part that answered or failed. -/
def rescue (computation : String) (state : Subject V) : Except (Failure V) α → Run V (Option α)
  | .ok a => pure (some a)
  | .error f => do
    report computation state f
    return none

omit [Term V] in
theorem guarding_apply_of_guarded (n : String) (s : Subject V) (x : Run V α) {σ : Scope V}
    (hm : σ.mode = .guarded) (c : Context V) :
    guarding n s x σ c = (confine x >>= rescue n s) σ c := by
  have handler : (rescue n s : Except (Failure V) α → Run V (Option α)) = fun
      | .ok a => pure (some a)
      | .error f => do
        report n s f
        return none := by
    funext r
    cases r <;> rfl
  cases σ
  cases hm
  rw [handler]
  rfl

omit [Term V] in
theorem guarding_apply_of_raw (n : String) (s : Subject V) (x : Run V α) {σ : Scope V}
    (hm : σ.mode = .raw) (c : Context V) :
    guarding n s x σ c = (x >>= fun a => pure (some a)) σ c := by
  rw [guarding, mode_bind, hm]

omit [Term V] in
/-- What a guard lets through, the guarded part answered. -/
theorem answers_of_guarding {n : String} {s : Subject V} {x : Run V α} {a : α}
    (h : (guarding n s x).Answers (some a)) : x.Answers a := by
  obtain ⟨σ, c, h⟩ := h
  cases hm : σ.mode with
  | raw =>
    rw [guarding_apply_of_raw n s x hm] at h
    obtain ⟨b, hb, h⟩ := exists_of_answer_bind_ok h
    obtain rfl : b = a := Option.some.inj (Except.ok.inj h)
    exact answers_of_answer hb
  | guarded =>
    rw [guarding_apply_of_guarded n s x hm] at h
    obtain ⟨r, hr, h⟩ := exists_of_answer_bind_ok h
    rw [confine_apply] at hr
    cases r with
    | ok b =>
      obtain rfl : b = a := Option.some.inj (Except.ok.inj h)
      rcases hx : (x σ c).answer with (f | d | _) | b' <;> rw [hx] at hr <;> cases hr
      exact answers_of_answer hx
    | error f =>
      obtain ⟨_, _, h⟩ := exists_of_answer_bind_ok h
      cases h

/-! ## Guarded runs that cannot be told apart -/

theorem report_alike (n n' : String) (s : Subject V) (f : Failure V) :
    (report n s f).Alike (report n' s f) := by
  refine Alike.bind ?_ fun _ _ => steady_emitIf ..
  exact (log_alike_pure _).trans (log_alike_pure _).symm

end Run

namespace Outcome.Alike

variable {σ : Scope V} {c d : Context V}

theorem confine {x y : Run V α} (h : Outcome.Alike σ (x σ c) (y σ d)) :
    Outcome.Alike σ (Run.confine x σ c) (Run.confine y σ d) := by
  rw [Run.confine_apply, Run.confine_apply]
  exact ⟨congrArg Run.confined h.answer, h.news, h.context, h.serves⟩

/-- The name under which a part is guarded cannot be seen. -/
theorem guarding {x y : Run V α} (h : Outcome.Alike σ (x σ c) (y σ d)) (n n' : String)
    (s : Subject V) :
    Outcome.Alike σ (Run.guarding n s x σ c) (Run.guarding n' s y σ d) := by
  cases hm : σ.mode with
  | raw =>
    rw [Run.guarding_apply_of_raw n s x hm, Run.guarding_apply_of_raw n' s y hm]
    exact h.bind fun a _ => Run.steady_pure (some a)
  | guarded =>
    rw [Run.guarding_apply_of_guarded n s x hm, Run.guarding_apply_of_guarded n' s y hm]
    refine h.confine.bind fun r _ => ?_
    cases r with
    | ok a => exact Run.steady_pure (some a)
    | error f => exact (Run.report_alike n n' s f).bind fun _ _ => Run.steady_pure none

theorem caught {x y : Run V (List α)} (h : Outcome.Alike σ (x σ c) (y σ d)) (n n' : String)
    (s : Subject V) :
    Outcome.Alike σ (Run.caught n s x σ c) (Run.caught n' s y σ d) :=
  (h.guarding n n' s).bind fun r _ => Run.steady_pure (r.getD [])

end Outcome.Alike

namespace Run

theorem Alike.caught {x y : Run V (List α)} (h : x.Alike y) (n n' : String) (s : Subject V) :
    (Run.caught n s x).Alike (Run.caught n' s y) := fun _ _ _ hs hcd => (h hs hcd).caught n n' s

/-- Saying how many branches there are is to read the settings, and to log it if they say so. -/
theorem announce_apply_of_primed {c : Context V} {i : Installed V} {on : Bool}
    (hi : c.primed.settings = some i) (hon : i.debug? = .ok on) (n : String) (k : Nat) (σ : Scope V) :
    announce n k σ c = ((if on = true then log (.produced n k) else pure ()) σ c.primed) := by
  rw [announce, bind_apply_of_ok (debugging_apply_of_primed hi hon σ)]
  rfl

/-- Saying how many branches there are cannot be seen where there are settings to look at. -/
theorem announce_alike_pure {σ : Scope V} {c d : Context V} (hs : σ.Serves c)
    (hm : σ.mode = .guarded) (hcd : c.primed = d.primed) (n : String) (k : Nat) :
    Outcome.Alike σ (announce n k σ c) ((pure () : Run V Unit) σ d) := by
  obtain ⟨i, on, hi, hon⟩ := hs.settings hm
  have served : σ.Serves c.primed := hs.of_primed_eq (Context.primed_primed c).symm
  have same : c.primed.primed = d.primed := (Context.primed_primed c).trans hcd
  rw [announce_apply_of_primed hi hon]
  cases on with
  | true => exact log_alike_pure _ served same
  | false => exact steady_pure () served same

/-! ## Applied computations -/

/-- What an application does with the branches that its guard let through. -/
def settle (computation : String) : Option (List (Branch V α)) → Run V (List (Branch V α))
  | none => pure []
  | some branches => do
    if (← mode) = .guarded then announce computation branches.length
    return branches

theorem settle_alike (n : String) (r : Option (List (Branch V α))) :
    (settle n r).Alike (pure (r.getD [])) := by
  cases r with
  | none => exact steady_pure []
  | some branches =>
    intro σ c d hs hcd
    rw [settle, mode_bind]
    cases hm : σ.mode with
    | raw => exact steady_pure branches hs hcd
    | guarded =>
      exact (announce_alike_pure hs hm hcd n branches.length).bind fun _ _ => steady_pure branches

/-- In the raw mode nothing is looked at. -/
theorem settle_apply_of_raw {σ : Scope V} (hm : σ.mode = .raw) (n : String)
    (branches : List (Branch V α)) (c : Context V) :
    settle n (some branches) σ c = ⟨.ok branches, c, []⟩ := by
  rw [settle, mode_bind, hm]
  rfl

end Run

namespace Comp

theorem apply_eq (c : Comp V α) (s : Subject V) :
    c.apply s = Run.guarding c.name s (c.body s) >>= Run.settle c.name := by
  refine congrArg (Run.guarding c.name s (c.body s) >>= ·) ?_
  funext r
  cases r <;> rfl

/-- **An application is its caught body.**  The look at the settings after a success, and the log
record that may follow it, cannot be seen where runs are served. -/
theorem apply_alike_caught {c : Comp V α} {s : Subject V} {y : Run V (List (Branch V α))}
    {σ : Scope V} {d e : Context V} (h : Outcome.Alike σ (c.body s σ d) (y σ e)) (n : String) :
    Outcome.Alike σ (c.apply s σ d) (Run.caught n s y σ e) := by
  rw [apply_eq]
  exact (h.guarding c.name n s).bind fun r _ => Run.settle_alike c.name r

/-- In the raw mode an application is its body. -/
theorem apply_apply_of_raw {σ : Scope V} (hm : σ.mode = .raw) (c : Comp V α) (s : Subject V)
    (d : Context V) : c.apply s σ d = c.body s σ d := by
  rw [apply_eq, Run.bind_apply_congr_left (Run.guarding_apply_of_raw c.name s _ hm d), bind_assoc]
  refine (Run.bind_apply_congr (g := Pure.pure) fun branches _ => ?_).trans ?_
  · rw [pure_bind, Run.settle_apply_of_raw hm]
    rfl
  · rw [bind_pure]

/-- Run raw, a computation does what its application does in the raw mode. -/
theorem runRaw_apply (c : Comp V α) (s : Subject V) (σ : Scope V) (d : Context V) :
    c.runRaw s σ d = c.apply s (σ.withMode .raw) d := (apply_apply_of_raw rfl c s d).symm

/-- Computations whose bodies cannot be told apart cannot be told apart when they are applied. -/
theorem apply_alike {c c' : Comp V α} {s : Subject V} (h : (c.body s).Alike (c'.body s)) :
    (c.apply s).Alike (c'.apply s) := fun _ _ _ hs hcd =>
  (apply_alike_caught (h hs hcd) "").trans
    (apply_alike_caught (h.steady_right (hs.of_primed_eq hcd) rfl) "").symm

end Comp

/-! ## Runs that do not fail

The second guard around a part has nothing to catch if the first one caught it. -/

/-- A run that does not end in a failure while guarded. -/
def Run.Contained (x : Run V α) : Prop :=
  ∀ ⦃σ : Scope V⦄, σ.mode = .guarded → ∀ c f, (x σ c).answer ≠ .error (.failure f)

namespace Run

omit [Term V]

theorem contained_pure (a : α) : (pure a : Run V α).Contained := fun _ _ _ _ h => by
  rw [pure_apply] at h
  cases h

theorem contained_stop {e : Fault V} (h : ∀ f, e ≠ .failure f) : (stop e : Run V α).Contained :=
  fun _ _ _ f hf => h f (Except.error.inj hf)

theorem contained_reject (d : Defect V) : (reject d : Run V α).Contained :=
  contained_stop fun f h => by cases h

theorem Contained.bind {x : Run V α} {f : α → Run V β} (h : x.Contained)
    (hf : ∀ a, x.Answers a → (f a).Contained) : (x >>= f).Contained := by
  intro σ hm c e hfail
  cases hx : (x σ c).answer with
  | ok a =>
    rw [answer_bind_of_ok hx] at hfail
    exact hf a (answers_of_answer hx) hm _ e hfail
  | error e' =>
    rw [answer_bind_of_error hx] at hfail
    rw [Except.error.inj hfail] at hx
    exact h hm c e hx

theorem contained_emitIf (taken : Scope V → Except (Defect V) Unit) (e : Event V) :
    (emitIf taken e).Contained := by
  intro σ _ c f h
  rw [emitIf] at h
  split at h <;> cases h

theorem contained_report (n : String) (s : Subject V) (f : Failure V) :
    (report n s f).Contained :=
  (contained_emitIf _ _).bind fun _ _ => contained_emitIf _ _

theorem contained_guarding (n : String) (s : Subject V) (x : Run V α) :
    (guarding n s x).Contained := by
  intro σ hm c f
  rw [guarding_apply_of_guarded n s x hm]
  have caughtAll : (confine x).Contained := by
    intro τ _ d e h
    rw [confine_apply] at h
    rcases hx : (x τ d).answer with (g | g | _) | a <;> rw [hx] at h <;> cases h
  refine caughtAll.bind (fun r _ => ?_) hm c f
  cases r with
  | ok a => exact contained_pure (some a)
  | error e => exact (contained_report n s e).bind fun _ _ => contained_pure none

/-- A guard has nothing to catch where nothing fails, and in the raw mode no guard has. -/
theorem guarding_apply_of_unfailing {x : Run V α} {σ : Scope V} {c : Context V}
    (h : σ.mode = .guarded → ∀ f, (x σ c).answer ≠ .error (.failure f)) (n : String)
    (s : Subject V) : guarding n s x σ c = (x >>= fun a => pure (some a)) σ c := by
  cases hm : σ.mode with
  | raw => exact guarding_apply_of_raw n s x hm c
  | guarded =>
    have confinement := confine_apply x σ c
    rw [guarding_apply_of_guarded n s x hm]
    cases hx : (x σ c).answer with
    | ok a =>
      rw [hx] at confinement
      rw [bind_apply_of_ok confinement, bind_apply_of_answer_ok hx]
      rfl
    | error e =>
      rw [hx] at confinement
      rw [bind_apply_of_answer_error hx]
      cases e with
      | failure f => exact absurd hx (h hm f)
      | defect d => exact bind_apply_of_error confinement _
      | exhausted => exact bind_apply_of_error confinement _

theorem caught_apply_of_unfailing {x : Run V (List α)} {σ : Scope V} {c : Context V}
    (h : σ.mode = .guarded → ∀ f, (x σ c).answer ≠ .error (.failure f)) (n : String)
    (s : Subject V) : caught n s x σ c = x σ c := by
  refine (bind_apply_congr_left (guarding_apply_of_unfailing h n s) _).trans ?_
  rw [bind_assoc]
  exact congrFun (congrFun (bind_pure x) σ) c

/-- What `confine` makes of a run that failed. -/
theorem confine_apply_of_failure {x : Run V α} {σ : Scope V} {c : Context V} {f : Failure V}
    (h : (x σ c).answer = .error (.failure f)) :
    confine x σ c = ⟨.ok (.error f), (x σ c).context, (x σ c).events⟩ := by
  rw [confine_apply, h]
  rfl

/-- A caught failure is reported, and then there are no branches. -/
theorem caught_apply_of_failure {x : Run V (List α)} {σ : Scope V} {c : Context V} {f : Failure V}
    (hm : σ.mode = .guarded) (h : (x σ c).answer = .error (.failure f)) (n : String)
    (s : Subject V) :
    caught n s x σ c = (confine x >>= fun _ => report n s f >>= fun _ => pure []) σ c := by
  have confinement := confine_apply_of_failure h
  refine (bind_apply_congr_left (guarding_apply_of_guarded n s x hm c) _).trans ?_
  rw [bind_assoc, bind_apply_of_ok confinement, bind_apply_of_ok confinement, rescue, bind_assoc]
  rfl

/-- A guarded part that fails leaves no branches and is reported at the end, if that can be received. -/
theorem caught_apply_of_received {x : Run V (List α)} {σ : Scope V} {c : Context V} {e : Failure V} {s : Subject V}
    (hm : σ.mode = .guarded) (records : ∀ r, σ.records r = .ok ()) (receives : σ.receives ⟨s, e⟩ = .ok ())
    (h : (x σ c).answer = .error (.failure e)) (n : String) : caught n s x σ c
      = ⟨.ok [], (x σ c).context, (x σ c).events ++ [.entry (.dropping n e), .dropped ⟨s, e⟩]⟩ := by
  have reported := report_apply_of_received (x σ c).context (records (.dropping n e)) receives
  rw [caught_apply_of_failure hm h, bind_apply_of_ok (confine_apply_of_failure h),
    bind_apply_of_ok reported]
  rfl

/-- So it has one more dropped branch. -/
theorem caught_of_failure {x : Run V (List α)} {σ : Scope V} {c : Context V} {e : Failure V}
    (hm : σ.mode = .guarded) (records : ∀ r, σ.records r = .ok ()) (receives : ∀ d, σ.receives d = .ok ())
    (h : (x σ c).answer = .error (.failure e)) (n : String) (s : Subject V) :
    (caught n s x σ c).answer = .ok [] ∧
      (caught n s x σ c).dropped = (x σ c).dropped ++ [⟨s, e⟩] := by
  rw [caught_apply_of_received hm records (receives ⟨s, e⟩) h]
  exact ⟨rfl, List.filterMap_append ..⟩

/-- A guard around a run that does not fail is no guard. -/
theorem guarding_of_contained {x : Run V α} (h : x.Contained) (n : String) (s : Subject V) :
    guarding n s x = x >>= fun a => pure (some a) :=
  funext fun _ => funext fun c => guarding_apply_of_unfailing (fun hm f => h hm c f) n s

/-- A caught run that does not fail is the run. -/
theorem caught_of_contained {x : Run V (List α)} (h : x.Contained) (n : String) (s : Subject V) :
    caught n s x = x := by
  rw [caught, guarding_of_contained h, bind_assoc]
  exact bind_pure x

/-- Not to fail is inherited by sequences. -/
theorem sequential_contained : Sequential (V := V) Contained := ⟨contained_pure, Contained.bind⟩

theorem Contained.unlessOver {x : Run V α} (h : x.Contained) : (unlessOver x).Contained :=
  fun _ hσ c f hf => h hσ c f (error_of_unlessOver hf)

theorem contained_context : (context : Run V (Context V)).Contained := fun _ _ _ _ h => by cases h

theorem contained_updateContext (f : Context V → Context V) : (updateContext f).Contained :=
  fun _ _ _ _ h => by cases h

theorem contained_having (member : String) (x : Except String α) :
    (having member x : Run V α).Contained := by
  cases x with
  | ok a => exact contained_pure a
  | error kind => exact contained_reject _

theorem contained_ordered (operator : String) (x : Except Incomparable α) :
    (ordered operator x : Run V α).Contained := by
  cases x with
  | ok a => exact contained_pure a
  | error operands => exact contained_reject _

theorem contained_written (x : Except Unwritable α) : (written x : Run V α).Contained := by
  cases x with
  | ok a => exact contained_pure a
  | error obstacle => exact contained_reject _

theorem contained_load (env : Environment) : (load env : Run V Settings).Contained := by
  unfold load
  split
  · exact contained_reject _
  · exact contained_pure _

/-- Only a defect ends a look at the settings. -/
theorem contained_settings : (settings : Run V (Installed V)).Contained := by
  refine contained_context.bind fun d _ => ?_
  cases d.settings with
  | some i => exact contained_pure i
  | none =>
    exact contained_context.bind fun k _ => (contained_load _).bind fun _ _ =>
      (contained_updateContext _).bind fun _ _ => contained_pure _

/-- To collect what is dropped catches nothing, and adds no failure. -/
theorem contained_collect {x : Run V α} (h : x.Contained) : (collect x).Contained := by
  intro σ hm c f hf
  cases hx : (x σ.receptive c).answer with
  | ok a =>
    rw [collect, hx] at hf
    cases hf
  | error e =>
    rw [collect, hx] at hf
    obtain rfl : e = .failure f := Except.error.inj hf
    exact h (σ := σ.receptive) hm c f hx

end Run

theorem Run.contained_debugging : (Run.debugging : Run V Bool).Contained :=
  Run.contained_settings.bind fun _ _ => Run.contained_having _ _

theorem Run.contained_announce (n : String) (k : Nat) : (Run.announce n k : Run V Unit).Contained := by
  refine Run.contained_debugging.bind fun on _ => ?_
  cases on with
  | true => exact Run.contained_emitIf _ _
  | false => exact Run.contained_pure ()

/-- **A guarded application never fails**: a failure inside has become a dropped branch. -/
theorem Comp.contained_apply (c : Comp V α) (s : Subject V) : (c.apply s).Contained := by
  rw [apply_eq]
  refine (Run.contained_guarding c.name s (c.body s)).bind fun r _ => ?_
  cases r with
  | none => exact Run.contained_pure []
  | some branches =>
    intro σ hm d f
    rw [Run.settle, Run.mode_bind, hm]
    exact (Run.contained_announce c.name branches.length).bind
      (fun _ _ => Run.contained_pure branches) hm d f

/-- An application whose body fails is the caught body: it looks at the settings after a success only. -/
theorem Comp.apply_apply_of_failure {c : Comp V α} {s : Subject V} {σ : Scope V} {d : Context V}
    {f : Failure V} (hm : σ.mode = .guarded) (h : (c.body s σ d).answer = .error (.failure f)) :
    c.apply s σ d = Run.caught c.name s (c.body s) σ d := by
  have confinement := Run.confine_apply_of_failure h
  rw [Run.caught_apply_of_failure hm h, apply_eq,
    Run.bind_apply_congr_left (Run.guarding_apply_of_guarded c.name s (c.body s) hm d), bind_assoc,
    Run.bind_apply_of_ok confinement, Run.bind_apply_of_ok confinement, Run.rescue, bind_assoc]
  rfl

/-- An application that does not fail is its body and a look at the settings. -/
theorem Comp.apply_apply_of_unfailing {m : Comp V α} {s : Subject V} {σ : Scope V} {c : Context V}
    (h : ∀ f, (m.body s σ c).answer ≠ .error (.failure f)) :
    m.apply s σ c = (m.body s >>= fun found => Run.settle m.name (some found)) σ c := by
  rw [apply_eq, Run.bind_apply_congr_left (Run.guarding_apply_of_unfailing (fun _ => h) m.name s)]
  rw [bind_assoc]
  rfl

/-! ## Joining lists of branches -/

namespace Run

section Joined

omit [Term V]

/-- Carries out two runs one after the other and joins their lists. -/
def joined (x y : Run V (List α)) : Run V (List α) := do
  let here ← x
  let others ← y
  return here ++ others

theorem flatMap_cons_eq_joined (i : ι) (rest : List ι) (f : ι → Run V (List α)) :
    flatMap (i :: rest) f = joined (f i) (flatMap rest f) := rfl

theorem pure_joined (a : List α) (y : Run V (List α)) :
    joined (pure a) y = y >>= fun others => pure (a ++ others) := rfl

@[simp] theorem nil_joined (y : Run V (List α)) : joined (pure []) y = y := by
  rw [pure_joined]
  exact bind_pure y

@[simp] theorem joined_nil (x : Run V (List α)) : joined x (pure []) = x := by
  show (x >>= fun here => pure (here ++ [])) = x
  simp only [List.append_nil]
  exact bind_pure x

theorem joined_assoc (x y z : Run V (List α)) :
    joined (joined x y) z = joined x (joined y z) := by
  simp only [joined, bind_assoc, pure_bind, List.append_assoc]

/-- The second of two joined runs matters only where the first one left off. -/
theorem joined_apply_congr {x y y' : Run V (List α)} {τ : Scope V} {c : Context V}
    (h : ∀ a, (x τ c).answer = .ok a → y τ (x τ c).context = y' τ (x τ c).context) :
    joined x y τ c = joined x y' τ c := by
  exact bind_apply_congr fun a ha => bind_apply_congr_left (h a ha) _

/-- The branches of two lists are gone on with one list after the other. -/
theorem flatMap_append (front back : List ι) (f : ι → Run V (List α)) :
    flatMap (front ++ back) f = joined (flatMap front f) (flatMap back f) := by
  induction front with
  | nil => exact (nil_joined _).symm
  | cons i front ih =>
    rw [List.cons_append, flatMap_cons_eq_joined, ih, ← joined_assoc, ← flatMap_cons_eq_joined]

/-- To make one branch of each item is to answer at once. -/
theorem flatMap_pure (items : List ι) (f : ι → α) :
    (flatMap items fun i => pure [f i] : Run V (List α)) = pure (items.map f) := by
  induction items with
  | nil => rfl
  | cons i rest ih =>
    rw [flatMap_cons_eq_joined, ih]
    rfl

end Joined

end Run

/-! ## Combinators without their guards -/

namespace Run

theorem Alike.flatMap {items : List ι} {f g : ι → Run V (List α)}
    (h : ∀ i ∈ items, (f i).Alike (g i)) : (Run.flatMap items f).Alike (Run.flatMap items g) := by
  induction items with
  | nil => exact steady_pure []
  | cons i rest ih =>
    refine (h i (List.mem_cons_self ..)).bind fun here _ => ?_
    refine (ih fun j hj => h j (List.mem_cons_of_mem i hj)).bind fun others _ => ?_
    exact steady_pure (here ++ others)

end Run

namespace Comp

/-- A computation that does not fail, applied, is its body. -/
theorem apply_alike_body {c : Comp V α} {s : Subject V} {y : Run V (List (Branch V α))}
    {σ : Scope V} {d e : Context V} (hc : (c.body s).Contained)
    (h : Outcome.Alike σ (c.body s σ d) (y σ e)) : Outcome.Alike σ (c.apply s σ d) (y σ e) := by
  have hb : Outcome.Alike σ (c.body s σ d) (c.body s σ d) := h.trans h.symm
  have applied := apply_alike_caught hb c.name
  rw [Run.caught_of_contained hc] at applied
  exact applied.trans h

/-- A computation that does not fail is applied like its body. -/
theorem apply_alike_unguarded {c : Comp V α} {s : Subject V} (h : (c.body s).Steady)
    (hc : (c.body s).Contained) : (c.apply s).Alike (c.body s) := fun _ _ _ hs hcd =>
  apply_alike_body hc (h hs hcd)

/-- What `bind` continues a branch with. -/
def continuation (c : Comp V α) (f : α → Run V (Comp V β)) (b : Branch V α) :
    Run V (List (Branch V β)) :=
  (defer (c.name ++ " >>=") (f b.value)).apply b.state

theorem bind_body (c : Comp V α) (f : α → Run V (Comp V β)) (s : Subject V) :
    (c.bind f).body s = c.apply s >>= fun branches => Run.flatMap branches (c.continuation f) := rfl

theorem contained_bind_body (c : Comp V α) (f : α → Run V (Comp V β)) (s : Subject V) :
    ((c.bind f).body s).Contained := by
  rw [bind_body]
  exact (c.contained_apply s).bind fun branches _ =>
    Run.sequential_contained.flatMap fun b _ => contained_apply _ _

/-- The continuation of a branch comes to what is built for it and applied, caught as one. -/
theorem continuation_alike_caught (c : Comp V α) {f : α → Run V (Comp V β)} {b : Branch V α}
    (h : (f b.value >>= fun d => d.apply b.state).Steady) (n : String) :
    (c.continuation f b).Alike (Run.caught n b.state (f b.value >>= fun d => d.apply b.state)) :=
  fun _ _ _ hs hcd => apply_alike_caught (h hs hcd) n

/-- What a delay of a known computation does is to apply that one. -/
theorem defer_body_of_known {d : Comp V α} {thunk : Run V (Comp V α)} (known : thunk = Pure.pure d)
    (n : String) (s : Subject V) : (defer n thunk).body s = d.apply s := by
  rw [known]
  exact pure_bind d _

/-- A known computation is applied alike if it is delayed: its failures are caught already. -/
theorem defer_apply_alike {d : Comp V α} {n : String} {thunk : Run V (Comp V α)} {s : Subject V}
    {y : Run V (List (Branch V α))} {σ : Scope V} {c e : Context V} (known : thunk = Pure.pure d)
    (h : Outcome.Alike σ (d.apply s σ c) (y σ e)) :
    Outcome.Alike σ ((defer n thunk).apply s σ c) (y σ e) := by
  have body := defer_body_of_known known n s
  refine apply_alike_body ?_ ?_
  · rw [body]
    exact d.contained_apply s
  · rw [body]
    exact h

end Comp

end SymbolicPaths
