import SymbolicPaths.Proofs.Primitives
import SymbolicPaths.Routine
/-!
# What combinators inherit

The combinators and the engine of routines do little by themselves: they carry runs out one after the
other, put guards around them, and apply computations.  So a property that primitives have and that
guards and applications keep (`Run.Closure`) holds of all that is put together, once it holds of what
host functions do and of the computations that they give.  This file goes through the combinators once,
for all such properties.

A host function is met in two ways: it is carried out, and what it answers is applied.  The lemmas ask
for the property of both, of the second only for computations that the function really gives.
-/

namespace SymbolicPaths

variable {V α β σ ι : Type} [Term V]

/-- A property of runs that primitives have, and that sequences, guards, applications and what the
engine of routines does with bodies inherit. -/
structure Run.Closure (P : ∀ {α : Type}, Run V α → Prop) : Prop extends Run.Household P where
  guarding : ∀ {α : Type} (n : String) (s : Subject V) {x : Run V α}, P x → P (Run.guarding n s x)
  unlessOver : ∀ {α : Type} {x : Run V α}, P x → P (Run.unlessOver x)
  asBody : ∀ {α : Type} {x : Run V α}, P x → P (Run.asBody x)
  apply : ∀ {α : Type} {c : Comp V α} {s : Subject V}, P (c.body s) → P (c.apply s)

omit [Term V] in
/-- What is built for items was built for one of them. -/
theorem Run.exists_of_answers_each {items : List ι} {f : ι → Run V α} {as : List α}
    (h : (Run.each items f).Answers as) : ∀ a ∈ as, ∃ i ∈ items, (f i).Answers a := by
  obtain ⟨σ, c, h⟩ := h
  induction items generalizing as c with
  | nil =>
    obtain rfl : [] = as := Except.ok.inj h
    exact fun a ha => absurd ha (by simp)
  | cons i rest ih =>
    obtain ⟨here, hhere, h⟩ := Run.exists_of_answer_bind_ok h
    obtain ⟨others, hothers, h⟩ := Run.exists_of_answer_bind_ok h
    obtain rfl : here :: others = as := Except.ok.inj h
    intro a ha
    rcases List.mem_cons.1 ha with rfl | ha
    · exact ⟨i, List.mem_cons_self .., Run.answers_of_answer hhere⟩
    · obtain ⟨j, hj, hanswer⟩ := ih _ hothers a ha
      exact ⟨j, List.mem_cons_of_mem i hj, hanswer⟩

/-- Where a routine waits for a computation. -/
inductive Routine.Wants (r : Routine V σ α) (wanted : Run V (Comp V V)) : Prop where
  | first (ready paused : σ) (h : (r.start ready).Answers (.awaiting wanted paused))
  | next (waiting paused : σ) (v : V) (h : (r.resume waiting v).Answers (.awaiting wanted paused))

namespace Run.Closure

variable {P : ∀ {α : Type}, Run V α → Prop} (closed : Closure (V := V) P)

include closed

/-! ## Combinators -/

/-- What a host function builds, applied at once. -/
theorem built {thunk : Run V (Comp V α)} (h : P thunk)
    (hd : ∀ d, thunk.Answers d → ∀ s, P (d.body s)) (s : Subject V) :
    P (thunk >>= fun d => d.apply s) :=
  closed.bind h fun d hanswer => closed.apply (hd d hanswer s)

theorem defer (name : String) {thunk : Run V (Comp V α)} (h : P thunk)
    (hd : ∀ d, thunk.Answers d → ∀ s, P (d.body s)) (s : Subject V) :
    P ((Comp.defer name thunk).body s) := closed.built h hd s

theorem bindComp {c : Comp V α} {f : α → Run V (Comp V β)} (h : ∀ s, P (c.body s))
    (hf : ∀ a, P (f a)) (hd : ∀ a d, (f a).Answers d → ∀ s, P (d.body s)) (s : Subject V) :
    P ((c.bind f).body s) :=
  closed.bind (closed.apply (h s)) fun _ _ => closed.flatMap fun b _ =>
    closed.apply (closed.defer _ (hf b.value) (hd b.value) b.state)

theorem map {f : α → Run V β} {c : Comp V α} (hf : ∀ a, P (f a)) (h : ∀ s, P (c.body s))
    (s : Subject V) : P ((Comp.map f c).body s) :=
  closed.bind (closed.apply (h s)) fun _ _ => closed.each fun b _ =>
    closed.bind (hf b.value) fun _ _ => closed.pure _

theorem sequence {steps : List (Comp V α)} (h : ∀ c ∈ steps, ∀ s, P (c.body s)) (s : Subject V) :
    P ((Comp.sequence steps).body s) :=
  closed.foldlM steps (fun _ c hc => closed.flatMap fun path _ =>
    closed.bind (closed.apply (h c hc path.state)) fun _ _ => closed.pure _) _

theorem traverse (items : List ι) {f : ι → Run V (Comp V α)} (hf : ∀ i, P (f i))
    (hd : ∀ i d, (f i).Answers d → ∀ s, P (d.body s)) (s : Subject V) :
    P ((Comp.traverse items f).body s) := by
  refine closed.defer _ (closed.bind (closed.each fun i _ => closed.asBody (hf i)) fun _ _ =>
    closed.pure _) (fun d hd' => ?_) s
  obtain ⟨σ, c, h⟩ := hd'
  obtain ⟨steps, hsteps, h⟩ := Run.exists_of_answer_bind_ok h
  obtain rfl : Comp.sequence steps = d := Except.ok.inj h
  refine closed.sequence fun step hstep => ?_
  obtain ⟨i, -, hanswer⟩ := exists_of_answers_each (answers_of_answer hsteps) step hstep
  exact hd i step (answers_of_asBody hanswer)

theorem forEach (items : List ι) {body : ι → Run V (Comp V α)} (hf : ∀ i, P (body i))
    (hd : ∀ i d, (body i).Answers d → ∀ s, P (d.body s)) (s : Subject V) :
    P ((Comp.forEach items body).body s) := by
  refine closed.bind (closed.foldlM items (fun frontier i _ => ?_) [s]) fun _ _ => closed.pure _
  refine closed.flatMap fun current _ => ?_
  exact closed.bind (closed.apply (closed.defer _ (hf i) (hd i) current)) fun _ _ => closed.pure _

theorem heapReadWithin {unifier : Run V (Unifier V)} (h : P unifier)
    (hu : ∀ u, unifier.Answers u → ∀ vs, P (u vs)) (l : V) (retries : Nat) (attempt : Amount V)
    (s : Subject V) : P ((Comp.heapReadWithin unifier l retries attempt).body s) := by
  induction retries generalizing attempt s with
  | zero => exact closed.readHeap l attempt s
  | succ retries ih =>
    refine closed.bind (closed.chunksAt l s) fun chunks _ => ?_
    match chunks with
    | [] => exact closed.fail _
    | [c] => exact closed.pure _
    | _ :: _ :: _ =>
      refine closed.bind (closed.ordered ..) fun next _ => closed.bind (closed.remark rfl) fun _ _ => ?_
      refine closed.apply (closed.bindComp (closed.compress h hu) (fun _ => closed.pure _)
        (fun _ d hd => ?_) s)
      obtain ⟨σ, c, hd⟩ := hd
      obtain rfl : Comp.heapReadWithin unifier l retries (.number next) = d := Except.ok.inj hd
      exact ih _

/-! ## Routines -/

section Routine

omit closed

variable {r : Routine V σ α}

/-- A signal of a body: what it waits for, if it waits, is wanted by the routine. -/
def Sent (r : Routine V σ α) (signal : Signal V σ α) : Prop :=
  ∀ wanted paused, signal = .awaiting wanted paused → r.Wants wanted

omit [Term V] in
theorem sent_of_resume {paused : σ} {v : V} {signal : Signal V σ α}
    (h : (r.resume paused v).Answers signal) : Sent r signal := by
  rintro wanted next rfl
  exact .next paused next v h

omit [Term V] in
/-- A replay ends in a signal of the body. -/
theorem sent_of_feed {trail : List V} {signal next : Signal V σ α} (hs : Sent r signal)
    (h : (r.feed trail signal).Answers next) : Sent r next := by
  obtain ⟨τ, c, h⟩ := h
  induction trail generalizing signal c with
  | nil =>
    obtain rfl : signal = next := Except.ok.inj h
    exact hs
  | cons v trail ih =>
    obtain ⟨middle, hmiddle, h⟩ := Run.exists_of_answer_bind_ok h
    refine ih ?_ _ h
    cases signal with
    | finished a =>
      obtain rfl : .finished a = middle := Except.ok.inj hmiddle
      exact hs
    | awaiting wanted paused =>
      exact sent_of_resume (Run.answers_of_asBody (Run.answers_of_answer hmiddle))

omit [Term V] in
theorem sent_of_replay {ready : σ} {trail : List V} {signal : Signal V σ α}
    (h : (r.replay ready trail).Answers signal) : Sent r signal := by
  obtain ⟨τ, c, h⟩ := h
  obtain ⟨first, hfirst, h⟩ := Run.exists_of_answer_bind_ok h
  refine sent_of_feed ?_ (Run.answers_of_answer h)
  rintro wanted paused rfl
  exact .first ready paused (Run.answers_of_asBody (Run.answers_of_answer hfirst))

include closed

variable (hstart : ∀ ready, P (Run.asBody (r.start ready)))
  (hresume : ∀ paused v, P (Run.asBody (r.resume paused v)))
  (hw : ∀ wanted, r.Wants wanted → P wanted)
  (hd : ∀ wanted, r.Wants wanted → ∀ d, wanted.Answers d → ∀ s, P (d.body s))
  (hrelease : ∀ paused {γ : Type} {x : Run V γ} (keep : γ → Bool), P x →
    P (Run.afterUnless keep (Run.asBody (r.release paused)) x))

include hresume

theorem feed (trail : List V) (signal : Signal V σ α) : P (r.feed trail signal) := by
  induction trail generalizing signal with
  | nil => exact closed.pure signal
  | cons v trail ih =>
    refine closed.bind ?_ fun next _ => ih next
    cases signal with
    | finished a => exact closed.pure _
    | awaiting wanted paused => exact hresume paused v

include hw hd hrelease

theorem follow (name : String) (fuel : Nat) (signal : Signal V σ α) (hs : Sent r signal)
    (path : Path V) : P (r.follow name fuel signal path) := by
  induction fuel generalizing signal path with
  | zero =>
    cases signal with
    | finished a => exact closed.pure _
    | awaiting wanted paused => exact closed.stop rfl
  | succ fuel ih =>
    cases signal with
    | finished a => exact closed.pure _
    | awaiting wanted paused =>
      have due : r.Wants wanted := hs wanted paused rfl
      have carried : P (r.carryOut wanted paused path.state) := hrelease paused _ <| closed.unlessOver <|
        closed.bind (hw wanted due) fun comp hcomp => closed.apply (hd wanted due comp hcomp path.state)
      refine closed.bind carried fun outcome _ => ?_
      match outcome with
      | .error details => exact closed.pure _
      | .ok [] => exact closed.pure _
      | .ok (first :: siblings) =>
        refine closed.bind (closed.guarding _ _ (hresume paused first.value)) fun next hnext => ?_
        cases next with
        | none => exact closed.pure _
        | some signal =>
          have sent := sent_of_resume (Run.answers_of_asBody (Run.answers_of_guarding hnext))
          exact closed.bind (ih signal sent _) fun _ _ => closed.pure _

include hstart

variable (hprepare : P r.prepare)

include hprepare

theorem pursue (name : String) (fuel : Nat) (path : Path V) : P (r.pursue name fuel path) := by
  refine closed.bind hprepare fun ready _ => ?_
  have replayed : P (r.replay ready path.trail) :=
    closed.bind (hstart ready) fun signal _ => closed.feed hresume path.trail signal
  refine closed.bind (closed.guarding _ _ replayed) fun signal hsignal => ?_
  cases signal with
  | none => exact closed.pure _
  | some signal =>
    have sent := sent_of_replay (Run.answers_of_guarding hsignal)
    exact closed.follow hresume hw hd hrelease name fuel signal sent path

theorem exhaust (name : String) (depth fuel : Nat) (waiting : List (Path V)) :
    P (r.exhaust name depth fuel waiting) := by
  induction fuel generalizing waiting with
  | zero =>
    cases waiting with
    | nil => exact closed.pure _
    | cons path waiting => exact closed.stop rfl
  | succ fuel ih =>
    cases waiting with
    | nil => exact closed.pure _
    | cons path waiting =>
      refine closed.bind (closed.pursue hstart hresume hw hd hrelease hprepare name depth path)
        fun result _ => ?_
      exact closed.bind (ih _) fun _ _ => closed.pure _

end Routine

end Run.Closure

end SymbolicPaths
