import SymbolicPaths.Script.Operation.Run
import SymbolicPaths.Script.Report
/-!
# Evaluation

What an expression does, given a machine for everything below it, and the tower of machines in which
every level uses the one below.  `evalAt` evaluates with a number of levels; at the bottom nothing is
evaluated any more and the run is out of steps.  Nesting uses up levels, and the length of a loop or
of a routine is bounded apart from that, so two numbers far beyond anything that occurs stand for no
bound at all.
-/

namespace SymbolicPaths.Script

/-- The value of a variable: a local one hides a global one. -/
def lookUp (globals env : Env) (name : String) : Act Value :=
  match env.lookup name <|> globals.lookup name with
  | some v => pure v
  | none => (Misuse.undefined name).stop

/-- The value that a literal stands for. -/
def Literal.value : Literal → Act Value
  | null => pure .null
  | bool b => pure (.bool b)
  | int n => pure (.int n)
  | text s => pure (.text s)
  | numeral digits =>
    match Text.parse? digits, Text.digits? digits with
    | some n, _ => pure (.int n)
    | none, some count => (Misuse.longNumeral count).stop
    | none, none => (Misuse.badNumeral digits).stop

/-- What became of a run, as a tuple: the value, or the family and the message of the error. -/
def Value.ofAttempt : Except (Fault Value) Value → Act Value
  | .ok v => pure (.tuple [.text "ok", v])
  | .error f => do
    return .tuple [.text "error", .text f.kind.name, .text (← Run.written f.message?)]

/-- Somebody who receives dropped branches to tell them. -/
def Value.receiver (label : String) : Receiver Value where
  label
  takes d := (Value.droppedReport? d).map fun _ => ()

/-- Notes a value that is to be told. -/
def Value.note (v : Value) : Act Unit := Run.emitIf (fun _ => v.report?.map fun _ => ()) (.noted v)

/-- Evaluates an expression under global and local variables. -/
def Expr.evaluate (m : Machine) (globals env : Env) : Expr → Act Value
  | literal l => l.value
  | reference name => lookUp globals env name
  | bindIn name value body => do
    let v ← m.eval env value
    m.eval ((name, v) :: env) body
  | choice condition yes no => do
    if (← m.eval env condition).truthy then m.eval env yes else m.eval env no
  | function (some name) params body =>
    Value.newFunction (some name) (.function name params body env)
  | function none params body =>
    Value.newFunction none (.function "<lambda>" params body env)
  | stepwise name params body =>
    Value.newFunction (some name) (.stepwise name params body env)
  | each name items body => do
    return .list (← m.gather (fun i => m.eval ((name, i) :: env) body) (← m.eval env items))
  | all name items body => do
    let it ← (← m.eval env items).iter
    let passes := fun i => do return (← m.eval ((name, i) :: env) body).truthy
    return .bool (← m.allItems passes m.fuel it)
  | note remark result => do
    (← m.eval env remark).note
    m.eval env result
  | attempt e => do Value.ofAttempt (← Run.attempt (m.eval env e))
  | fork e => Run.fork (m.eval env e)
  | collect label e => Run.deliverTo (Value.receiver label) (m.eval env e)
  | delimit label e => Run.delimit (label.map Value.receiver) (m.eval env e)
  | defer name e => Value.ofCode m (.defer name e env)
  | custom name input rows =>
    Value.ofCode m (.custom (name.getD "<anonymous>") input rows env)
  | form op operands => do op.act m (← Run.each operands (m.eval env))
  | malformed => Misuse.badOperands.stop

/-- What all levels of an evaluation share. -/
structure Setting where
  globals : Env
  /-- How many steps each loop or routine may take. -/
  steps : Nat

mutual

/-- Evaluates an expression with a number of levels. -/
def evalAt (w : Setting) : (levels : Nat) → Env → Expr → Act Value
  | 0, _, _ => Run.exhausted
  | n + 1, env, e => e.evaluate
    ⟨w.steps, evalAt w n, callAt w n, enterAt w n, invokeAt w n, stepAt w n⟩ w.globals env

/-- Calls a value with a number of levels. -/
def callAt (w : Setting) : (levels : Nat) → Value → Args Value → Act Value
  | 0, _, _ => Run.exhausted
  | n + 1, f, args =>
    callValue ⟨w.steps, evalAt w n, callAt w n, enterAt w n, invokeAt w n, stepAt w n⟩ f args

/-- Runs the body of a computation with a number of levels. -/
def enterAt (w : Setting) : (levels : Nat) → Code → Subject Value → Act (List (Branch Value Value))
  | 0, _, _ => Run.exhausted
  | n + 1, code, s => (code.meaning
    ⟨w.steps, evalAt w n, callAt w n, enterAt w n, invokeAt w n, stepAt w n⟩).body s

/-- Invokes the function behind an arrow with a number of levels. -/
def invokeAt (w : Setting) : (levels : Nat) → ArrowCode → Args Value → Act (Comp Value Value)
  | 0, _, _ => Run.exhausted
  | n + 1, code, args => (code.meaning
    ⟨w.steps, evalAt w n, callAt w n, enterAt w n, invokeAt w n, stepAt w n⟩).invoke args

/-- Lets a generator take a step with a number of levels. -/
def stepAt (w : Setting) : (levels : Nat) → Nat → Value → Act (Progress Unit)
  | 0, _, _ => Run.exhausted
  | n + 1, id, v => stepGenerator
    ⟨w.steps, evalAt w n, callAt w n, enterAt w n, invokeAt w n, stepAt w n⟩ id v

end

end SymbolicPaths.Script
