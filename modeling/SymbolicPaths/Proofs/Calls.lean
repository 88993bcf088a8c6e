import SymbolicPaths.Proofs.Enclosure
/-!
# What is carried out inside a call

A `Call` is a run with the scope and the context in which it is met.  `y.Inside bodies z` says that the
call `y` is carried out in the course of the call `z`; it has a rule for everything that the library does
with a run, and no rule for `Run.attempt`, which is how a program catches what it likes.

The rules say where things happen and not how they end.  The theorem about ends is `Call.Inside.raises`:
guards, collectors and delimited parts all look at how the part inside ended, and none of them holds a
defect.  A defect that is raised inside is the end of the whole call.

Bodies are the exception.  One error is how they end, and it does not get past whoever carries them out.
So a call may be inside on the way through bodies or not (`bodies`), and only in the second case is the
theorem about this error too.

The other rule with a condition is that for a body that is let go of (`Run.afterUnless`).  Of two faults
the later one shows there, so a part is reckoned to be inside if letting go of it raises nothing.
-/

namespace SymbolicPaths

variable {V : Type}

/-- A run where it is met. -/
structure Call (V : Type) where
  {answers : Type}
  run : Run V answers
  scope : Scope V
  context : Context V

/-- A defect that is not held on the way, if there are `bodies` on it: it is not how bodies end. -/
def Defect.Passes (d : Defect V) (bodies : Bool) : Prop :=
  bodies = true → (Fault.defect d).over? = none

namespace Call

/-- How a call ends. -/
def outcome (z : Call V) : Outcome V z.answers := z.run z.scope z.context

/-- The call ends in a defect. -/
def Raises (z : Call V) (d : Defect V) : Prop := z.outcome.answer = .error (.defect d)

/-- `y.Inside bodies z`: the call `y` is carried out in the course of `z`, and if not `bodies`, no body is
carried out on the way to it. -/
inductive Inside (y : Call V) (bodies : Bool) : Call V → Prop where
  | here : Inside y bodies y
  | first {α β : Type} {x : Run V α} (f : α → Run V β) {σ : Scope V} {c : Context V}
      (h : Inside y bodies ⟨x, σ, c⟩) : Inside y bodies ⟨x >>= f, σ, c⟩
  | next {α β : Type} {x : Run V α} {f : α → Run V β} {σ : Scope V} {c : Context V} {a : α}
      (ha : (x σ c).answer = .ok a) (h : Inside y bodies ⟨f a, σ, (x σ c).context⟩) :
      Inside y bodies ⟨x >>= f, σ, c⟩
  | guarded {α : Type} (n : String) (s : Subject V) {x : Run V α} {σ : Scope V} {c : Context V}
      (h : Inside y bodies ⟨x, σ, c⟩) : Inside y bodies ⟨Run.guarding n s x, σ, c⟩
  /-- Where a guarded part failed, the failure is reported. -/
  | reported {α : Type} {n : String} {s : Subject V} {x : Run V α} {σ : Scope V} {c : Context V}
      {f : Failure V} (hσ : σ.mode = .guarded) (hf : (x σ c).answer = .error (.failure f))
      (h : Inside y bodies ⟨Run.report n s f, σ, (x σ c).context⟩) : Inside y bodies ⟨Run.guarding n s x, σ, c⟩
  | collected {α : Type} {x : Run V α} {σ : Scope V} {c : Context V}
      (h : Inside y bodies ⟨x, σ.receptive, c⟩) : Inside y bodies ⟨Run.collect x, σ, c⟩
  | delivered {α : Type} {r : Receiver V} {x : Run V α} {σ : Scope V} {c : Context V}
      (h : Inside y bodies ⟨x, σ.receivedBy r.takes, c⟩) : Inside y bodies ⟨Run.deliverTo r x, σ, c⟩
  | discarded {α : Type} {x : Run V α} {σ : Scope V} {c : Context V}
      (h : Inside y bodies ⟨x, σ.receptive, c⟩) : Inside y bodies ⟨Run.discard x, σ, c⟩
  | inMode {α : Type} {k : Mode} {x : Run V α} {σ : Scope V} {c : Context V}
      (h : Inside y bodies ⟨x, σ.withMode k, c⟩) : Inside y bodies ⟨Run.inMode k x, σ, c⟩
  /-- The error that says there is nothing more to come is an answer here. -/
  | unlessOver {α : Type} (hb : bodies = true) {x : Run V α} {σ : Scope V} {c : Context V}
      (h : Inside y bodies ⟨x, σ, c⟩) : Inside y bodies ⟨Run.unlessOver x, σ, c⟩
  | asBody {α : Type} (hb : bodies = true) {x : Run V α} {σ : Scope V} {c : Context V}
      (h : Inside y bodies ⟨x, σ, c⟩) : Inside y bodies ⟨Run.asBody x, σ, c⟩
  /-- What has to be let go of afterwards is let go of without a fault. -/
  | kept {α : Type} {keep : α → Bool} {last : Run V Unit} {x : Run V α} {σ : Scope V} {c : Context V}
      (hl : (last σ (x σ c).context).answer = .ok ()) (h : Inside y bodies ⟨x, σ, c⟩) :
      Inside y bodies ⟨Run.afterUnless keep last x, σ, c⟩
  | lettingGo {α : Type} {keep : α → Bool} {last : Run V Unit} {x : Run V α} {σ : Scope V}
      {c : Context V} (hx : (x σ c).answer ≠ .error .exhausted)
      (hk : ∀ a, (x σ c).answer = .ok a → keep a = false)
      (h : Inside y bodies ⟨last, σ, (x σ c).context⟩) :
      Inside y bodies ⟨Run.afterUnless keep last x, σ, c⟩

/-! ## A defect inside is the answer of the whole -/

section Parts

variable {α β : Type} {x : Run V α} {σ : Scope V} {c : Context V} {d : Defect V}

theorem raises_bind_of_first (h : Raises ⟨x, σ, c⟩ d) (f : α → Run V β) :
    Raises ⟨x >>= f, σ, c⟩ d := Run.answer_bind_of_error h f

theorem raises_bind_of_next {f : α → Run V β} {a : α} (ha : (x σ c).answer = .ok a)
    (h : Raises ⟨f a, σ, (x σ c).context⟩ d) : Raises ⟨x >>= f, σ, c⟩ d :=
  (Run.answer_bind_of_ok ha f).trans h

/-- A guard holds failures only. -/
theorem raises_guarding (n : String) (s : Subject V) (h : Raises ⟨x, σ, c⟩ d) :
    Raises ⟨Run.guarding n s x, σ, c⟩ d := by
  have answer : (x σ c).answer = .error (.defect d) := h
  have unfailing : σ.mode = .guarded → ∀ f, (x σ c).answer ≠ .error (.failure f) := by
    intro _ f hf
    rw [answer] at hf
    cases hf
  show (Run.guarding n s x σ c).answer = _
  rw [Run.guarding_apply_of_unfailing unfailing]
  exact raises_bind_of_first h _

/-- A guard that reports ends as the report does. -/
theorem raises_guarding_of_report {n : String} {s : Subject V} {f : Failure V}
    (hσ : σ.mode = .guarded) (hf : (x σ c).answer = .error (.failure f))
    (h : Raises ⟨Run.report n s f, σ, (x σ c).context⟩ d) : Raises ⟨Run.guarding n s x, σ, c⟩ d := by
  show (Run.guarding n s x σ c).answer = _
  rw [Run.guarding_apply_of_guarded n s x hσ,
    Run.bind_apply_of_ok (Run.confine_apply_of_failure hf)]
  exact raises_bind_of_first h _

theorem raises_collect (h : Raises ⟨x, σ.receptive, c⟩ d) : Raises ⟨Run.collect x, σ, c⟩ d := by
  have answer : (x σ.receptive c).answer = .error (.defect d) := h
  show (x σ.receptive c).answer.map _ = _
  rw [answer]
  rfl

/-- Whoever takes the end of a body for an answer lets everything else through. -/
theorem raises_unlessOver (hd : (Fault.defect d).over? = none) (h : Raises ⟨x, σ, c⟩ d) :
    Raises ⟨Run.unlessOver x, σ, c⟩ d := by
  have answer : (x σ c).answer = .error (.defect d) := h
  show Run.withOver (x σ c).answer = _
  rw [answer, Run.withOver, hd]

theorem raises_asBody (hd : (Fault.defect d).over? = none) (h : Raises ⟨x, σ, c⟩ d) :
    Raises ⟨Run.asBody x, σ, c⟩ d := by
  have answer : (x σ c).answer = .error (.defect d) := h
  show (x σ c).answer.mapError Fault.ofBody = _
  rw [answer]
  exact congrArg Except.error (Fault.ofBody_of_over? hd)

variable {keep : α → Bool} {last : Run V Unit}

/-- What is let go of without a fault changes nothing of how its part ended. -/
theorem raises_afterUnless (hl : (last σ (x σ c).context).answer = .ok ())
    (h : Raises ⟨x, σ, c⟩ d) : Raises ⟨Run.afterUnless keep last x, σ, c⟩ d := by
  have answer : (x σ c).answer = .error (.defect d) := h
  have attempted := Run.attempt_apply x σ c
  rw [answer] at attempted
  show ((Run.attempt x >>= _) σ c).answer = _
  rw [Run.bind_apply_of_ok attempted]
  exact Run.answer_bind_of_ok hl _

/-- Of two faults, that of letting go is the one that shows. -/
theorem raises_afterUnless_of_last (hx : (x σ c).answer ≠ .error .exhausted)
    (hk : ∀ a, (x σ c).answer = .ok a → keep a = false) (h : Raises ⟨last, σ, (x σ c).context⟩ d) :
    Raises ⟨Run.afterUnless keep last x, σ, c⟩ d := by
  have attempted := Run.attempt_apply x σ c
  -- however the part ended, it is let go of
  have parted : ∃ r : Except (Fault V) α, ∃ f : Unit → Run V α,
      Run.attempted (x σ c).answer = .ok r ∧ Run.parting keep last r = last >>= f := by
    rcases hr : (x σ c).answer with (f | d | _) | a
    · exact ⟨_, _, rfl, rfl⟩
    · exact ⟨_, _, rfl, rfl⟩
    · exact absurd hr hx
    · refine ⟨.ok a, fun _ => pure a, rfl, ?_⟩
      rw [Run.parting, hk a hr]
      rfl
  obtain ⟨r, f, hr, hparted⟩ := parted
  rw [hr] at attempted
  show ((Run.attempt x >>= _) σ c).answer = _
  rw [Run.bind_apply_of_ok attempted]
  show (Run.parting keep last r _ _).answer = _
  rw [hparted]
  exact raises_bind_of_first h _

end Parts

namespace Inside

variable {y z w : Call V} {bodies : Bool} {d : Defect V}

/-- **A defect raised inside a call is how the call ends**, unless it is the end of a body on the way. -/
theorem raises (h : y.Inside bodies z) (hd : d.Passes bodies)
    (hy : y.Raises d) : z.Raises d := by
  induction h with
  | here => exact hy
  | first f _ ih => exact raises_bind_of_first ih f
  | next ha _ ih => exact raises_bind_of_next ha ih
  | guarded n s _ ih => exact raises_guarding n s ih
  | reported hσ hf _ ih => exact raises_guarding_of_report hσ hf ih
  | collected _ ih => exact raises_collect ih
  | delivered _ ih => exact ih
  | discarded _ ih => exact ih
  | inMode _ ih => exact ih
  | unlessOver hb _ ih => exact raises_unlessOver (hd hb) ih
  | asBody hb _ ih => exact raises_asBody (hd hb) ih
  | kept hl _ ih => exact raises_afterUnless hl ih
  | lettingGo hx hk _ ih => exact raises_afterUnless_of_last hx hk ih

theorem trans (h : y.Inside bodies z) (h' : z.Inside bodies w) : y.Inside bodies w := by
  induction h' with
  | here => exact h
  | first f _ ih => exact .first f ih
  | next ha _ ih => exact .next ha ih
  | guarded n s _ ih => exact .guarded n s ih
  | reported hσ hf _ ih => exact .reported hσ hf ih
  | collected _ ih => exact .collected ih
  | delivered _ ih => exact .delivered ih
  | discarded _ ih => exact .discarded ih
  | inMode _ ih => exact .inMode ih
  | unlessOver hb _ ih => exact .unlessOver hb ih
  | asBody hb _ ih => exact .asBody hb ih
  | kept hl _ ih => exact .kept hl ih
  | lettingGo hx hk _ ih => exact .lettingGo hx hk ih

/-! ## Sequences and lists -/

section Lists

variable {ι α β : Type} {σ : Scope V} {c : Context V}

/-- An item is reached when the items before it are done. -/
theorem flatMap {f : ι → Run V (List α)} {front : List ι} {found : List α} (i : ι) (rest : List ι)
    (hf : (Run.flatMap front f σ c).answer = .ok found)
    (h : y.Inside bodies ⟨f i, σ, (Run.flatMap front f σ c).context⟩) :
    y.Inside bodies ⟨Run.flatMap (front ++ i :: rest) f, σ, c⟩ := by
  -- the context moves on with every item in front, and what is found with it
  induction front generalizing found c with
  | nil => exact .first _ h
  | cons j front ih =>
    obtain ⟨here, hhere, hf⟩ := Run.exists_of_answer_bind_ok hf
    obtain ⟨others, hothers, -⟩ := Run.exists_of_answer_bind_ok hf
    refine .next hhere (.first _ (ih hothers ?_))
    rw [Run.flatMap_cons, Run.context_bind_of_ok hhere, Run.context_bind_of_ok hothers] at h
    exact h

theorem each {f : ι → Run V α} {front : List ι} {found : List α} (i : ι) (rest : List ι)
    (hf : (Run.each front f σ c).answer = .ok found)
    (h : y.Inside bodies ⟨f i, σ, (Run.each front f σ c).context⟩) :
    y.Inside bodies ⟨Run.each (front ++ i :: rest) f, σ, c⟩ := by
  induction front generalizing found c with
  | nil => exact .first _ h
  | cons j front ih =>
    obtain ⟨here, hhere, hf⟩ := Run.exists_of_answer_bind_ok hf
    obtain ⟨others, hothers, -⟩ := Run.exists_of_answer_bind_ok hf
    refine .next hhere (.first _ (ih hothers ?_))
    rw [Run.each_cons, Run.context_bind_of_ok hhere, Run.context_bind_of_ok hothers] at h
    exact h

theorem foldlM {f : β → ι → Run V β} {front : List ι} {b b' : β} (i : ι) (rest : List ι)
    (hf : (front.foldlM f b σ c).answer = .ok b')
    (h : y.Inside bodies ⟨f b' i, σ, (front.foldlM f b σ c).context⟩) :
    y.Inside bodies ⟨(front ++ i :: rest).foldlM f b, σ, c⟩ := by
  rw [List.foldlM_append]
  refine .next hf ?_
  rw [List.foldlM_cons]
  exact .first _ h

end Lists

/-! ## Applications and enclosing operations -/

section Applications

variable {α : Type} {σ : Scope V} {c : Context V}

/-- What a delimited part carries out. -/
theorem delimited {x : Run V α} (h : y.Inside bodies ⟨x, σ.receptive.withMode .guarded, c⟩) :
    y.Inside bodies ⟨Run.delimit none x, σ, c⟩ := .discarded (.inMode h)

/-- Under a tower of enclosing operations a part is carried out in the scope there. -/
theorem enclosed (tower : List (Enclosure V)) {x : Run V α}
    (h : y.Inside bodies ⟨x, Enclosure.within tower σ, c⟩) :
    y.Inside bodies ⟨Enclosure.enclosed tower x, σ, c⟩ := by
  induction tower generalizing σ with
  | nil => exact h
  | cons e tower ih =>
    have inside : y.Inside bodies ⟨Enclosure.enclosed tower x, e.scope σ, c⟩ := ih h
    rcases e with _ | r | (_ | r) | _
    · exact .first _ (.collected inside)
    · exact .delivered inside
    · exact .discarded (.inMode inside)
    · exact .delivered (.inMode inside)
    · exact .inMode inside

variable [Term V]

/-- The body of a computation is carried out when it is applied. -/
theorem apply {m : Comp V α} {s : Subject V} (h : y.Inside bodies ⟨m.body s, σ, c⟩) :
    y.Inside bodies ⟨m.apply s, σ, c⟩ := by
  rw [Comp.apply_eq]
  exact .first _ (.guarded m.name s h)

/-- A computation is applied when it is explored. -/
theorem explore [Written α] {m : Comp V α} {s : Subject V} (cap : Option (Amount V))
    (h : y.Inside bodies ⟨m.apply s, σ.receptive, c⟩) : y.Inside bodies ⟨m.explore cap s, σ, c⟩ := by
  rw [Comp.explore_eq]
  exact .first _ (.collected h)

end Applications

end Inside

end Call

end SymbolicPaths
