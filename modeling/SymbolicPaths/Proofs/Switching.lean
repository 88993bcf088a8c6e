import SymbolicPaths.Proofs.Carrier
import SymbolicPaths.Proofs.Rendering
import SymbolicPaths.Proofs.Summary
/-!
# The switch that has steps logged

What a computation does is the same whether steps are logged or not (`Comp.Built.switched`): its branches, the
fault that it ends in, what is dropped and who receives it.  Only the trace is there or is not.

* Applications say how many branches they gave, and that can be said of all branches.  So the switch makes no
  difference to them, nor in the raw mode, where nothing is said.
* An exploration sets out the branches that it returns.  To sort the variables by name is no obstacle, and two
  values are never compared; but a value may have no writing, and then the exploration ends in a defect that
  it does not end in without the trace (`Comp.switched_unwritable`).  Where all that is returned can be
  written, the switch makes no difference to explorations either.
-/

namespace SymbolicPaths

variable {V α : Type} [Term V]

/-! ## Settings that are switched -/

/-- The same settings; or settings with the same cap, of which the first have steps logged and the second
have not. -/
def Installed.Switched (i j : Installed V) : Prop :=
  i = j ∨ i.cap? = j.cap? ∧ i.debug? = .ok true ∧ j.debug? = .ok false

namespace Installed.Switched

theorem cap?_eq {i j : Installed V} : i.Switched j → i.cap? = j.cap?
  | .inl h => congrArg _ h
  | .inr h => h.1

theorem exchange : Exchange (Switched (V := V)) where
  refl _ := .inl rfl
  debug {i j} h kind := by
    obtain rfl | ⟨-, on, off⟩ := h
    · rfl
    · rw [on, off]
      exact ⟨fun h => (by cases h), fun h => (by cases h)⟩

end Installed.Switched

open Installed (Switched)

/-- Contexts that are exchanged are the same, or steps are logged in the first and not in the second. -/
theorem Context.Exchanged.eq_or_switched {c d : Context V} (h : c.Exchanged Switched d) : c = d ∨
    ∃ i j, c.settings = some i ∧ i.debug? = .ok true ∧ d.settings = some j ∧ j.debug? = .ok false := by
  cases hc : c.settings with
  | none => exact .inl (h.eq_of_none hc)
  | some i =>
    obtain ⟨j, hd, rfl | ⟨-, on, off⟩⟩ := h.exists_of_some hc
    · exact .inl (by rw [h.rest, hd, ← hc])
    · exact .inr ⟨i, j, rfl, on, hd, off⟩

namespace Comp

variable [Written α] {m : Comp V α} {cap : Option (Amount V)} {s : Subject V} {σ : Scope V} {c d : Context V}

/-! ## Explorations -/

theorem indifferent_effectiveCap (cap : Option (Amount V)) : (effectiveCap cap).Indifferent Switched (V := V) := by
  cases cap with
  | some a => exact Run.Indifferent.family.pure _
  | none =>
    refine .looked Installed.Switched.exchange.refl (fun h => ?_) fun i => ?_
    · rw [h.cap?_eq]
    · exact Run.Indifferent.family.household.having ..

/-- The trace of branches makes no difference if it can be left wherever it is meant to be. -/
theorem display_unchanged {branches : List (Branch V α)} (traces : σ.Traces) (hcd : c.Exchanged Switched d)
    (h : (m.display branches σ d).answer = .ok () → ∃ text, Branch.layoutAll? branches = .ok text) :
    Outcome.Unchanged Switched (m.display branches σ c) (m.display branches σ d) := by
  obtain rfl | ⟨i, j, hc, on, hd, off⟩ := hcd.eq_or_switched
  · exact .refl Installed.Switched.exchange.refl _
  · have debugging := Run.Indifferent.debugging_apply_of_installed hc σ
    have quiet := Run.Indifferent.debugging_apply_of_installed hd σ
    rw [on] at debugging
    rw [off] at quiet
    have unsaid : m.display branches σ d = ⟨.ok (), d, []⟩ := Run.bind_apply_of_ok quiet _
    obtain ⟨text, ht⟩ := h (by rw [unsaid])
    have logged := Run.log_apply_of_ok c (traces (.outcome m.name text) rfl)
    have said : m.display branches σ c = ⟨.ok (), c, [.entry (.outcome m.name text)]⟩ := by
      refine (Run.bind_apply_of_ok debugging _).trans ?_
      rw [if_pos rfl, ht]
      exact congrArg (fun o : Outcome V Unit => (⟨o.answer, o.context, [] ++ o.events⟩ : Outcome V Unit)) logged
    rw [said, unsaid]
    exact ⟨rfl, rfl, hcd⟩

/-- So an exploration makes no difference if all that it returns can be set out. -/
theorem explore_unchanged (h : (m.apply s).Indifferent Switched) (traces : σ.Traces)
    (hcd : c.Exchanged Switched d) (laidOut : ∀ e, (m.explore cap s σ d).answer = .ok e →
      ∃ text, Branch.layoutAll? e.branches = .ok text) :
    Outcome.Unchanged Switched (m.explore cap s σ c) (m.explore cap s σ d) := by
  rw [explore_eq] at laidOut ⊢
  have collected := h.collect traces hcd
  refine collected.bind fun found hfound => ?_
  have hfound' := collected.answer.symm.trans hfound
  rw [conclude_eq]
  have summarized := Run.Indifferent.family.household.summarize (indifferent_effectiveCap cap) m found traces
    collected.context
  refine summarized.bind fun e he => ?_
  have he' := summarized.answer.symm.trans he
  have displayed : Outcome.Unchanged Switched (m.display e.branches σ _) (m.display e.branches σ _) :=
    display_unchanged traces summarized.context fun shown => laidOut e (by
      rw [Run.answer_bind_of_ok hfound', conclude_eq, Run.answer_bind_of_ok he', Run.answer_bind_of_ok shown]
      rfl)
  exact displayed.bind fun _ _ => ⟨rfl, rfl, displayed.context⟩

/-! ## What is built from the library -/

variable {N : V → Prop}

/-- The branches that an exploration returns end in sound states. -/
theorem Built.explored_sound {H : ∀ {α : Type}, Run V α → Prop} (h : Built H N m) (hs : s.Sound N)
    {e : Exploration V α} (he : (m.explore cap s σ c).answer = .ok e) : ∀ b ∈ e.branches, b.state.Sound N := by
  cases happly : (m.apply s σ.receptive c).answer with
  | error f =>
    rw [explore_answer_of_error rfl happly] at he
    cases he
  | ok found =>
    rw [explore_answer_of_ok rfl happly] at he
    obtain ⟨limit, -, rfl⟩ := exists_limit_of_conclude he
    have sound := (h.keeps.apply hs σ.receptive c).1 found happly
    exact fun b hb => sound b ((Exploration.isPrefix_kept limit found).subset hb)

/-- **The switch changes nothing but the trace.**  Let a computation be built from the library with host code
that is indifferent to whether steps are logged, as it is if it does not consult the settings
(`Run.Indifferent.of_unconsulted`), and let it bind legible names only.  Carry it out twice from a state with
such names, in the same scope, which takes the trace, and in contexts that are the same but for the switch.
Then branches, faults, events and contexts are the same, except for the trace and the switch:

* where it is applied, and where it is carried out raw;
* where it is explored under any cap, if all that is returned where steps are not logged can be written;
* so they are where just the branches are asked for.

As for setting out what an exploration returns: the variables of each branch can be sorted, and are sorted the
same whatever would decide between values under one name, so values are not compared; and the branches can be
set out exactly if each can be written. -/
theorem Built.switched (legible : Term.Legible N) (h : Built (Run.Indifferent Switched) N m)
    (sound : s.Sound N) (traces : σ.Traces) (hcd : c.Exchanged Switched d) :
    Outcome.Unchanged Switched (m.apply s σ c) (m.apply s σ d) ∧
    Outcome.Unchanged Switched (m.runRaw s σ c) (m.runRaw s σ d) ∧
    (∀ cap, (∀ e, (m.explore cap s σ d).answer = .ok e → ∀ b ∈ e.branches, b.Writable) →
      Outcome.Unchanged Switched (m.explore cap s σ c) (m.explore cap s σ d)) ∧
    ((∀ bs, (m.feasible s σ d).answer = .ok bs → ∀ b ∈ bs, b.Writable) →
      Outcome.Unchanged Switched (m.feasible s σ c) (m.feasible s σ d)) ∧
    ∀ cap e, (m.explore cap s σ d).answer = .ok e →
      (∀ b ∈ e.branches, ∃ t sorted, b.state = .state t ∧ t.store.sorted? = .ok sorted ∧
        ∀ breaks : V → V → Except Incomparable Bool, sortBy? (fun x y =>
          if Term.same x.1 y.1 then breaks x.2 y.2 else Term.less x.1 y.1) t.store.entries = .ok sorted) ∧
      ((∃ text, Branch.layoutAll? e.branches = .ok text) ↔ ∀ b ∈ e.branches, b.Writable) := by
  have indifferent : (m.body s).Indifferent Switched := h.indifferent Installed.Switched.exchange s
  have applied : (m.apply s).Indifferent Switched := indifferent.apply Installed.Switched.exchange
  have laidOut : ∀ cap e, (m.explore cap s σ d).answer = .ok e →
      ((∃ text, Branch.layoutAll? e.branches = .ok text) ↔ ∀ b ∈ e.branches, b.Writable) :=
    fun _ _ he => Branch.exists_layoutAll_iff legible (h.explored_sound sound he)
  have explored : ∀ cap, (∀ e, (m.explore cap s σ d).answer = .ok e → ∀ b ∈ e.branches, b.Writable) →
      Outcome.Unchanged Switched (m.explore cap s σ c) (m.explore cap s σ d) := fun cap writable =>
    explore_unchanged applied traces hcd fun e he => (laidOut cap e he).2 (writable e he)
  refine ⟨applied traces hcd, indifferent.inMode .raw traces hcd, explored, fun writable => ?_,
    fun cap e he => ⟨fun b hb => ?_, laidOut cap e he⟩⟩
  · have returned := explored none fun e he => writable e.branches (Run.answer_bind_of_ok he _)
    exact returned.bind fun _ _ => ⟨rfl, rfl, returned.context⟩
  · obtain ⟨t, ht, named⟩ := h.explored_sound sound he b hb
    obtain ⟨sorted, hsorted⟩ := named.exists_sorted legible
    exact ⟨t, sorted, ht, hsorted, fun breaks => (named.sorted?_eq legible breaks).symm.trans hsorted⟩

section Instances

open Script

/-- Texts are legible names. -/
theorem legible_text {P : Type} : Term.Legible fun v : Datum P => ∃ t, v = .text t where
  ordered := by
    rintro _ _ ⟨a, rfl⟩ ⟨b, rfl⟩
    exact ⟨_, rfl⟩
  shown := by
    rintro _ ⟨a, rfl⟩
    exact ⟨_, rfl⟩
  symm := by
    rintro _ _ ⟨a, rfl⟩ ⟨b, rfl⟩ h
    exact Datum.same_text_iff.2 (Datum.same_text_iff.1 h).symm

/-- Forks, notes which side is taken, and keeps it in a variable. -/
def keepSide : Comp (Datum Empty) Unit := choose.bind fun side => do
  Run.emit (.noted (.bool side))
  return storeVar (.text "side") (.bool side)

/-- Settings without a cap, given by a program. -/
def switchedTo (on : Bool) : Installed (Datum Empty) := .given (.settings .null (.bool on))

theorem built_keepSide :
    Built (Run.Indifferent Switched) (fun v : Datum Empty => ∃ t, v = .text t) keepSide := by
  refine .bind .choose (fun side => .of_unconsulted fun σ c t => rfl) ?_
  rintro side d ⟨σ, c, hd⟩
  obtain rfl : storeVar (.text "side") (.bool side) = d := Except.ok.inj hd
  exact .storeVar ⟨"side", rfl⟩ _

/-- Both sides are found and noted, whether steps are logged or not.  Seven more log records are kept if they
are. -/
theorem switched_keepSide :
    (keepSide.explore none (.state .empty) (.of .guarded) { settings := some (switchedTo true) }).answer
      = .ok ⟨[⟨.state (State.empty.bindLocal (.text "side") (.bool true)), ()⟩,
          ⟨.state (State.empty.bindLocal (.text "side") (.bool false)), ()⟩], [], false⟩ ∧
    (keepSide.explore none (.state .empty) (.of .guarded) { settings := some (switchedTo true) }).said
      = (keepSide.explore none (.state .empty) (.of .guarded) { settings := some (switchedTo false) }).events ∧
    (keepSide.explore none (.state .empty) (.of .guarded)
      { settings := some (switchedTo true) }).events.length = 10 := by
  obtain ⟨-, -, explored, -, returned⟩ := built_keepSide.switched legible_text ⟨.empty, rfl, .empty⟩
    (σ := .of .guarded) (fun _ _ => rfl)
    (Context.exchanged_of {} (i := switchedTo true) (j := switchedTo false) (.inr ⟨rfl, rfl, rfl⟩))
  have unchanged := explored none fun e he => by
    refine (returned none e he).2.1 ?_
    obtain rfl := Except.ok.inj he
    exact ⟨_, rfl⟩
  exact ⟨unchanged.answer, unchanged.said, rfl⟩

/-- A result without a writing ends an exploration where steps are logged. -/
theorem explore_pure_of_unwritten {v : Datum Empty} {obstacle : Unwritable}
    (h : Written.written? v = .error obstacle) :
    ((pure v).explore none (.state .empty) (.of .guarded) { settings := some (switchedTo true) }).answer
      = .error (.defect (.ofUnwritable obstacle)) := by
  have refused : Branch.layoutAll? [(⟨.state .empty, v⟩ : Branch (Datum Empty) (Datum Empty))]
      = .error obstacle := by
    show (((Written.written? v >>= fun _ => _) >>= fun _ => _) >>= fun _ => _) = _
    rw [h]
    rfl
  have applied : ((pure v).apply (.state .empty) (.of .guarded)
      { settings := some (switchedTo true) }).answer = .ok [⟨.state .empty, v⟩] := rfl
  rw [explore_answer_of_ok rfl applied, conclude_eq,
    Run.answer_bind_of_ok (a := ⟨[⟨.state .empty, v⟩], [], false⟩) rfl]
  refine Run.answer_bind_of_error ?_ _
  show ((Run.written (Branch.layoutAll? [⟨.state .empty, v⟩]) >>= fun _ => _ : Run _ _) _ _).answer = _
  rw [refused]
  rfl

theorem explore_pure_of_tooLong {n : Int} (h : Text.firstTooLong ≤ n.natAbs) :
    ((pure (.int n) : Comp (Datum Empty) (Datum Empty)).explore none (.state .empty) (.of .guarded)
      { settings := some (switchedTo true) }).answer = .error (.defect .tooLong) := by
  have written : Written.written? (.int n : Datum Empty) = numeral n := by
    show Datum.written? _ = _
    rw [Datum.written?, Datum.forms, Forms.alike]
  exact explore_pure_of_unwritten (written.trans (numeral_of_le h))

/-- A number with too many digits to be written, as the one result. -/
def giveTooLong : Comp (Datum Empty) (Datum Empty) := pure (.int Text.firstTooLong)

/-- **A value without a writing shows the switch.**  A number with too many digits is a result like any other
where steps are not logged, and where they are the same exploration ends in a defect. -/
theorem switched_unwritable :
    Built (Run.Indifferent Switched) (fun v : Datum Empty => ∃ t, v = .text t) giveTooLong ∧
    (giveTooLong.explore none (.state .empty) (.of .guarded) { settings := some (switchedTo false) }).answer
      = .ok ⟨[⟨.state .empty, .int Text.firstTooLong⟩], [], false⟩ ∧
    (giveTooLong.explore none (.state .empty) (.of .guarded) { settings := some (switchedTo true) }).answer
      = .error (.defect .tooLong) :=
  ⟨.pure _, rfl, explore_pure_of_tooLong (Nat.le_of_eq (Int.natAbs_natCast _).symm)⟩

end Instances

end Comp

end SymbolicPaths
