import SymbolicPaths.Script.Stepwise
/-!
# What codes mean

Each code is a computation or an arrow of the library.  Nothing is decided here: a code names a
combinator, and its meaning is that combinator applied to what the code holds, with functions of the
script standing in as continuations, mappers and policies.

* `Code.meaning` and `ArrowCode.meaning` give the library's object.
* `Value.ofCode` and `Value.ofArrowCode` make it a new object of the script under its name.
-/

namespace SymbolicPaths.Script

/-! ## Computations -/

/-- The rows of a computation that is given by them, each evaluated in turn. -/
def rowBranches (m : Machine) (env : Env) : List (Expr × Expr) → Act (List (Branch Value Value))
  | [] => pure []
  | (stateExpr, valueExpr) :: rest => do
    let s ← m.eval env stateExpr
    let v ← m.eval env valueExpr
    return ⟨s.toSubject, v⟩ :: (← rowBranches m env rest)

namespace Code

/-- The computation of the library that a code stands for. -/
def meaning (m : Machine) : Code → Comp Value Value
  | pure v => Comp.pure v
  | zero => Comp.zero.relabel fun _ => .null
  | readVar name => Comp.readVar name
  | storeVar name v => (Comp.storeVar name v).relabel fun _ => .null
  | getLocals => Comp.getStore.relabel .ofStore
  | putLocals store => (Comp.putStore (m.toStore store)).relabel fun _ => .null
  | getHeap => Comp.getHeap.relabel fun heap => .tuple (heap.map .ofMember)
  | putHeap heap => (Comp.putHeap (heap.map Datum.toMember)).relabel fun _ => .null
  | addChunk c => (Comp.addChunk c.toMember).relabel fun _ => .null
  | writeHeap l v => (Comp.heapWrite l v).relabel fun _ => .null
  | compress policy => (Comp.compress (m.unifier policy)).relabel fun _ => .null
  | readHeap l policy attempt => Comp.heapRead (m.unifier policy) l (.given attempt)
  | choose => Comp.choose.relabel .bool
  | probe left right =>
    (Comp.probeWith (fun s => m.callWith left [.ofSubject s]) fun s =>
      m.callWith right [.ofSubject s]).relabel fun d => .delimited d.left d.right
  | bind c f => (m.comp c).bind (m.continuation "binder" f)
  | andThen c d => (m.comp c).andThen (m.comp d)
  | map c f => (m.comp c).map fun v => m.callWith f [v]
  | sequence steps => (Comp.sequence (steps.map m.liftComp)).relabel .list
  | traverse items f =>
    (Comp.traverse items fun v => do return m.liftComp (← m.callWith f [v])).relabel .list
  | forEach items body => (Comp.forEach items (m.continuation "delayed thunk" body)).relabel fun _ =>
    .null
  | defer name e env => Comp.defer name do m.expectComp "delayed thunk" (← m.eval env e)
  | custom name input rows env => ⟨name, fun s => rowBranches m ((input, .ofSubject s) :: env) rows⟩
  | routine factory name => (factoryRoutine m factory).comp (Term.shown name) m.fuel
  | called k args => (m.arrow k).deferred args

end Code

/-! ## Arrows -/

/-- What a call of a value starts, if it is a stepwise function or one with a receiver. -/
def Value.stepwise? : Value → Option (Args Value → Activity)
  | .object _ (.stepwise name params body env) => some (.unstarted name params body env)
  | .method f receiver => (stepwise? f).map fun start args =>
    start { args with positional := receiver :: args.positional }
  | _ => none

/-- The arrow of a routine if a value is a stepwise function, else the arrow that calls the value
and makes a computation of whatever it gives. -/
def routineArrow (m : Machine) (f : Value) : Arrow Value Value :=
  match f.stepwise? with
  | some start => Arrow.ofRoutine f.name? m.fuel fun args => stepwiseRoutine m (start args)
  | none => Arrow.ofWrapped f.name? fun args => do return m.liftComp (← m.call f args)

namespace ArrowCode

/-- The arrow of the library that a code stands for. -/
def meaning (m : Machine) : ArrowCode → Arrow Value Value
  | ofFunction f =>
    Arrow.ofFunction ⟨f.name?, none⟩ fun args => do
      m.expectComp (f.name?.getD "<kleisli>") (← m.call f args)
  | ofRoutine f => routineArrow m f
  | partialApply k given => (m.arrow k).partialApply given
  | andThen k f => (m.arrow k).andThen (m.continuation "binder" f)
  | fmap k f => (m.arrow k).fmap fun v => m.callWith f [v]

end ArrowCode

namespace Value

/-- A new computation. -/
def ofCode (m : Machine) (code : Code) : Act Value :=
  let name := (code.meaning m).name
  fresh "SymComp" none ("SymComp(" ++ name ++ ")") (.comp (.mk name code))

/-- A new arrow.  The arrow of a function is nothing but that function in a wrapping; every other
arrow has a function of its own inside, by which alone it can be told. -/
def ofArrowCode (m : Machine) (code : ArrowCode) : Act Value := do
  let arrow := code.meaning m
  let payload := .arrow (.mk arrow.name? arrow.inner? code)
  let kind := match code with
    | .ofRoutine _ => "DoSymFunction"
    | _ => "KleisliSymComp"
  let text := kind ++ "(func=<function " ++ arrow.inner?.getD "?" ++ ">)"
  let header := {
    identity := .fresh (← Run.freshId), kind, name? := arrow.name?, text, hashable := false }
  match code with
  | .ofFunction f => return .wrapper header f payload
  | _ => return .object header payload

end Value

end SymbolicPaths.Script
