import SymbolicPaths.Script.Signature
import SymbolicPaths.Routine
/-!
# Stepwise functions

The body of a stepwise function is carried out up to the next value that it gives; then it waits to
be sent one.  `advance` carries out statements, and `proceed` has an `Activity` go on.

A call of a stepwise function is either the body of a routine, which belongs to one path and is
handed from step to step, or a generator, whose activity is kept in a cell of the context because
any number of places may ask it for items.  `stepGenerator` lets it take one step.  While it does,
the cell says that it is running, so that a generator that asks itself is told so; when it has come
to its end, in whatever way, the cell is cleared, and from then on it ends at once with nothing.
-/

namespace SymbolicPaths.Script

/-- Carries out statements until the body ends or gives a value; an end without a statement that
says so gives nothing. -/
def advance (m : Machine) : (fuel : Nat) → Env → List Todo → Act (Progress Activity)
  | 0, _, _ => Run.exhausted
  | _ + 1, _, [] => pure (.ended .null)
  | fuel + 1, env, .statements [] :: todo => advance m fuel env todo
  | fuel + 1, env, .statements (s :: rest) :: todo =>
    let after := .statements rest :: todo
    match s with
    | .await slot e => do return .gave (← m.eval env e) (.paused slot env after)
    | .assign name e => do advance m fuel ((name, ← m.eval env e) :: env) after
    | .eval e => do
      let _ ← m.eval env e
      advance m fuel env after
    | .leave e => do return .ended (← m.eval env e)
    | .choice condition yes no => do
      let taken := if (← m.eval env condition).truthy then yes else no
      advance m fuel env (.statements taken :: after)
    | .forEach name items body => do
      advance m fuel env (.each name (← (← m.eval env items).iter) body :: after)
    | .loop condition body => advance m fuel env (.loop condition body :: after)
  | fuel + 1, env, .each name items body :: todo => do
    match ← m.next items with
    | none => advance m fuel env todo
    | some (i, rest) =>
      advance m fuel ((name, i) :: env) (.statements body :: .each name rest body :: todo)
  | fuel + 1, env, .loop condition body :: todo => do
    if (← m.eval env condition).truthy then
      advance m fuel env (.statements body :: .loop condition body :: todo)
    else advance m fuel env todo

/-- Has an activity go on with a value that it is sent.  The arguments of a call are looked at when
it first runs. -/
def proceed (m : Machine) (a : Activity) (v : Value) : Act (Progress Activity) :=
  match a with
  | .unstarted name params body env args => do
    let locals ← bindParams name params args
    advance m m.fuel (locals ++ env) [.statements body]
  | .paused slot env todo =>
    match slot with
    | some x => advance m m.fuel ((x, v) :: env) todo
    | none => advance m m.fuel env todo
  | .running => Misuse.alreadyRunning.stop

/-! ## Generators -/

/-- Where a generator stands; nothing once it has come to its end. -/
def activity? (id : Nat) : Act (Option Activity) := do
  return (← Run.cell? id).bind Value.activity?

/-- Has a generator stand somewhere else. -/
def setActivity (id : Nat) (a : Activity) : Act Unit := Run.setCell id (.ofActivity a)

/-- A new generator. -/
def newGenerator (name : String) (a : Activity) : Act Value := do
  let generator ← Run.freshId
  setActivity generator a
  let text := "<generator object " ++ name ++ ">"
  return .object { identity := .fresh generator, kind := "generator", name? := some name, text }
    (.generator generator)

/-- Lets a generator take one step. -/
def stepGenerator (m : Machine) (id : Nat) (v : Value) : Act (Progress Unit) := do
  match ← activity? id with
  | none => return .ended .null
  | some .running => Misuse.alreadyRunning.stop
  | some a =>
    setActivity id .running
    match ← Run.attempt (proceed m a v) with
    | .ok (.gave item rest) =>
      setActivity id rest
      return .gave item ()
    | .ok (.ended result) =>
      Run.clearCell id
      return .ended result
    | .error fault =>
      Run.clearCell id
      Run.stop fault

/-- Brings a generator to its end, wherever it stands. -/
def closeGenerator (id : Nat) : Act Unit := do
  match ← activity? id with
  | some .running => Misuse.alreadyRunning.stop
  | _ => Run.clearCell id

/-! ## Routines -/

/-- A step of a body as a step of a routine: what it gives has to be a computation, which is looked
at when it is to be carried out. -/
def Progress.signal {σ : Type} (m : Machine) : Progress σ → Signal Value σ Value
  | ended result => .finished result
  | gave item rest => .awaiting (m.expectComp "@do generator yield" item) rest

/-- The routine of a call of a stepwise function. -/
def stepwiseRoutine (m : Machine) (call : Activity) : Routine Value Activity Value where
  prepare := pure call
  start a := do return (← proceed m a .null).signal m
  resume a v := do return (← proceed m a v).signal m
  whenOver := (·.getD .null)

/-- Sends a value to a generator on behalf of a routine. -/
def askGenerator (m : Machine) (id : Nat) (v : Value) : Act (Signal Value Nat Value) := do
  match ← m.step id v with
  | .ended result => return .finished result
  | .gave item () => return (Progress.gave item id).signal m

/-- The routine of a function that makes generators: one for each path, unless it gives the same one
again, which then goes on from where it was left. -/
def factoryRoutine (m : Machine) (factory : Value) : Routine Value Nat Value where
  prepare := do
    match ← m.callWith factory [] with
    | .object _ (.generator id) => return id
    | v => v.lacks "close"
  start id := askGenerator m id .null
  resume := askGenerator m
  whenOver := (·.getD .null)
  release := closeGenerator

end SymbolicPaths.Script
