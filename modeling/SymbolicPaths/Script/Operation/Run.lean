import SymbolicPaths.Script.Operation.Model
/-!
# Operations that run and steer

Applying, running and exploring computations, and the settings and policies that they run under.
-/

namespace SymbolicPaths.Script

namespace Value

/-- A cap on branches, or none. -/
def toCap : Value → Option (Amount Value)
  | .null => none
  | v => some (.given v)

/-- What to explore from; nothing stands for the empty state. -/
def toInitial : Value → Subject Value
  | .null => .state State.empty
  | v => v.toSubject

/-- What a table has for a variable; a value that is no text lacks the `member` to be read with. -/
def variableIn (entries : List (Value × Value)) (name member : String) : Act Environment :=
  match (Store.mk entries).find? (.text name) with
  | none => pure []
  | some (.text s) => pure [(name, s)]
  | some v => v.lacks member

/-- The settings in a table of variables: first the cap, for which nothing stands for no cap, and
then the switch. -/
def toSettings (entries : List (Value × Value)) : Act Settings := do
  let cap ← match (Store.mk entries).find? (.text Settings.capVariable) with
    | some .null => pure []
    | _ => variableIn entries Settings.capVariable "strip"
  let capped ← Run.load cap
  let switch ← variableIn entries Settings.debugVariable "lower"
  return { capped with debug := (← Run.load switch).debug }

/-- Settings that were read, as a value. -/
def ofSettings (s : Settings) : Value := .ofInstalled (.loaded s)

/-- What was installed as settings, or nothing. -/
def ofInstalled? : Option (Installed Value) → Value
  | none => .null
  | some installed => .ofInstalled installed

/-- The text that a variable of the environment is called or set to. -/
def toVariableText : Value → Act String
  | .text s => pure s
  | v => (Misuse.notText v.kind).stop

/-- Sets a variable of the environment. -/
def setVariable (name value : String) : Act Unit := do
  let chars := name.toList
  if chars.contains '\x00' || value.toList.contains '\x00' then Misuse.nullByte.stop
  else if chars.contains '=' then Misuse.illegalVariable.stop
  else if chars.isEmpty then Misuse.unnamedVariable.stop
  else Run.updateContext fun c => { c with environment := c.environment.set name value }

/-- The name that a policy goes by: those of the library have names, and all others one name. -/
def policyName : Policy Value → Value
  | .maxTerm => .text "max_term"
  | .chosen (.object _ (.builtin b)) =>
    .text (if (Builtin.policies.lookup b.name).isSome then b.name else "fn")
  | .chosen _ => .text "fn"

/-- A computation that is to be explored, and the state to explore it from. -/
def toExplore (m : Machine) (c initial : Value) : Act (Comp Value Value × Subject Value) := do
  return (m.comp (← c.requireComputation "SymbolicInterpreter.run argument"), initial.toInitial)

end Value

/-- Runs something, or changes what runs are steered by. -/
def RunOp.act (m : Machine) : RunOp → List Value → Act Value
  | apply, [c, s] => m.callWith c [s]
  | runRaw, [c, s] => do
    let c ← c.computationWith "run_raw"
    return .ofBranches (← (m.comp c).runRaw s.toSubject)
  | interpret, [cap, c, s] => do
    let (c, s) ← Value.toExplore m c s
    Value.ofExploration (← c.explore cap.toCap s)
  | run, [c] => do
    let (c, s) ← Value.toExplore m c .null
    Value.ofExploration (← c.explore none s)
  | explore, [c, s] => do
    let (c, s) ← Value.toExplore m c s
    return .ofBranches (← c.feasible s)
  | propagating, [] => do return .bool ((← Run.mode) == .raw)
  | settings, [cap, debug] => pure (.settings cap debug)
  | defaultSettings, [] => pure (Value.ofSettings {})
  | settingsOf, [.null] => do return Value.ofSettings (← Run.load (← Run.context).environment)
  | settingsOf, [env] =>
    match env.entries? with
    | some entries => do return Value.ofSettings (← Value.toSettings entries)
    | none => env.lacks "get"
  | getSettings, [] => do return .ofInstalled (← Run.settings)
  | setSettings, [.null] => do return Value.ofInstalled? (← Run.install none)
  | setSettings, [v] => do return Value.ofInstalled? (← Run.install (some (.given v)))
  | setVariable, [name, .null] => do
    let name ← name.toVariableText
    Run.updateContext fun c => { c with environment := c.environment.unset name }
    return .null
  | setVariable, [name, v] => do
    let name ← name.toVariableText
    Value.setVariable name (← v.toVariableText)
    return .null
  | setPolicy, [p] => do
    p.requireCallable .badPolicy
    return Value.policyName (← Run.setPolicy (.chosen p))
  | getPolicy, [] => do return Value.policyName (← Run.context).policy
  | _, _ => Misuse.badOperands.stop

/-- Carries out an operation. -/
def Op.act (m : Machine) : Op → List Value → Act Value
  | data op => op.act m
  | operator op => op.act m
  | model op => op.act m
  | comp op => op.act m
  | arrow op => op.act m
  | run op => op.act m

end SymbolicPaths.Script
