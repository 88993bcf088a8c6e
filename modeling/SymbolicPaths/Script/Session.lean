import SymbolicPaths.Script.Evaluation
/-!
# Sessions

A script is carried out step by step.  Between steps a session keeps the global variables, the
settings, the environment and the policy; each step starts at top level, guarded and with nobody to
receive dropped branches.  A step that fails leaves the others alone: it has a fault for an answer,
and what it changed on the way stays changed.
-/

namespace SymbolicPaths.Script

/-- What lasts from one step to the next. -/
structure Session where
  globals : Env := []
  context : Context Value := {}

/-- How far a step may go before it is out of steps. -/
structure Bounds where
  /-- How deeply evaluation may nest. -/
  levels : Nat
  /-- How long each loop or routine may be. -/
  steps : Nat

/-- What a step gave, and what happened on the way. -/
structure Reply where
  /-- The value of the step, or why there is none. -/
  answer : Except (Fault Value) Value
  events : List (Event Value)

/-- Whether a log record is kept. -/
def isKept (kept : Option Level) (e : Entry Value) : Bool :=
  match kept with
  | some level => level.rank ≤ e.level.rank
  | none => false

namespace Session

/-- The session with a global variable, which hides an earlier one of its name. -/
def define (s : Session) (name : String) (v : Value) : Session :=
  { s with globals := (name, v) :: s.globals }

/-- What the steps of a session run under, if log records of at least a given weight are kept: such a
record has to be put into words at once. -/
def scope (kept : Option Level) : Scope Value where
  records e :=
    if isKept kept e then
      match e.message? with
      | .ok _ => .ok ()
      | .error obstacle => .error (.ofUnwritable obstacle)
    else .ok ()

/-- Carries out one step; a value is kept under the name of the step. -/
def step (b : Bounds) (kept : Option Level) (s : Session) (t : Step) : Session × Reply :=
  let o := evalAt ⟨s.globals, b.steps⟩ b.levels [] t.expr (scope kept) s.context
  let after := { s with context := o.context }
  let after := match t.name, o.answer with
    | some name, .ok v => after.define name v
    | _, _ => after
  (after, ⟨o.answer, o.events⟩)

/-- Carries out steps one after the other. -/
def run (b : Bounds) (kept : Option Level) (s : Session) : List Step → List Reply
  | [] => []
  | t :: rest =>
    let (after, reply) := s.step b kept t
    reply :: run b kept after rest

end Session

namespace Reply

/-- What the step noted, in order. -/
def notes (r : Reply) : List Value :=
  r.events.filterMap fun
    | .noted v => some v
    | _ => none

/-- The dropped branches that labelled receivers got, in order. -/
def deliveries (r : Reply) : List (String × Dropped Value) :=
  r.events.filterMap fun
    | .delivered label d => some (label, d)
    | _ => none

/-- The log records that are kept, in order. -/
def records (r : Reply) (kept : Option Level) : List (Entry Value) :=
  r.events.filterMap fun
    | .entry e => if isKept kept e then some e else none
    | _ => none

/-! ## Telling a reply -/

/-- What is told of the answer.  A value that cannot be told is a fault of the step. -/
def answerReport (r : Reply) : List (String × Report) :=
  let told := match r.answer with
    | .ok v => v.report?.mapError Fault.defect
    | .error f => .error f
  match told with
  | .ok r => [("value", r)]
  | .error f => Value.faultFields f

/-- What is told of a log record. -/
def entryReport (e : Entry Value) : Report :=
  .list [.text e.level.name, .text e.source, .text (e.message?.toOption.getD "")]

/-- A list under a name, unless it is empty. -/
def unlessEmpty (name : String) (items : List Report) : List (String × Report) :=
  if items.isEmpty then [] else [(name, .list items)]

/-- What is told of a step. -/
def report (r : Reply) (kept : Option Level) : Report :=
  let notes := r.notes.filterMap fun v => v.report?.toOption
  let deliveries := r.deliveries.filterMap fun (label, d) =>
    (Value.droppedReport? d).toOption.map fun told => .list [.text label, told]
  .record (r.answerReport ++ unlessEmpty "trace" notes ++ unlessEmpty "sink" deliveries
    ++ unlessEmpty "log" ((r.records kept).map entryReport))

end Reply

end SymbolicPaths.Script
