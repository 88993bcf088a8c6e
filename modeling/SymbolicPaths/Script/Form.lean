/-!
# Forms

A script is written as nested lists.  Most lists are a *form*: the name of an operation and its
operands, which are evaluated from left to right before the operation acts.  The operations come in
families, one enumeration each, and every family has a table of the names that its operations are
written with.
-/

namespace SymbolicPaths.Script

/-- Operations that build data. -/
inductive DataOp where
  | tuple | list | dict | frozenDict | range | location | chunk | state | emptyState | branch
  | delimited | policy | primitive | error | raise | isA
deriving DecidableEq, Repr

/-- The names of the operations that build data. -/
def DataOp.names : List (String × DataOp) := [
  ("tuple", tuple), ("list", list), ("dict", dict), ("fdict", frozenDict), ("range", range),
  ("loc", location), ("chunk", chunk), ("state", state), ("new_state", state),
  ("empty", emptyState), ("mkbranch", branch), ("mkdelim", delimited), ("policy", policy),
  ("prim", primitive), ("error", error), ("raise", raise), ("isa", isA)]

/-- Operators on data. -/
inductive Operator where
  | add | subtract | multiply | negate | less | not | equal | length | written | concat | get
  | member | call | sameHash
deriving DecidableEq, Repr

/-- The names of the operators. -/
def Operator.names : List (String × Operator) := [
  ("+", add), ("-", subtract), ("*", multiply), ("neg", negate), ("<", less), ("not", not),
  ("eq", equal), ("len", length), ("repr", written), ("cat", concat), ("get", get),
  ("attr", member), ("call", call), ("hash_eq", sameHash)]

/-- Operations on states, heaps and branches. -/
inductive ModelOp where
  | bindLocal | withLocals | withHeap | chunksAt | withValue | multiset | fuse | maxTerm | heapEqual
  | equivalent | layoutState | layoutBranches | pairs
deriving DecidableEq, Repr

/-- The names of the operations on states, heaps and branches. -/
def ModelOp.names : List (String × ModelOp) := [
  ("bind_local", bindLocal), ("with_locals", withLocals), ("with_heap", withHeap),
  ("chunks_at", chunksAt), ("with_value", withValue), ("multiset", multiset), ("fuse", fuse),
  ("max_term", maxTerm), ("heap_equal", heapEqual), ("states_equivalent", equivalent),
  ("format_state", layoutState), ("format_branches", layoutBranches), ("pairs", pairs)]

/-- Operations that build computations. -/
inductive CompOp where
  | pure | lift | zero | readVar | storeVar | getLocals | putLocals | getHeap | putHeap | addChunk
  | writeHeap | compress | readHeap | choose | probe | bind | combine | forEach | flatMap
  | continueWith | shift | map | andThen | sequence | traverse
deriving DecidableEq, Repr

/-- The names of the operations that build computations; those of the builder object are written
with a mark of their own and mean the same. -/
def CompOp.names : List (String × CompOp) := [
  ("pure", pure), ("of", pure), ("b_return", pure), ("lift", lift), ("zero", zero),
  ("b_zero", zero), ("read_var", readVar), ("store_var", storeVar), ("get_locals", getLocals),
  ("put_locals", putLocals), ("get_heap", getHeap), ("put_heap", putHeap),
  ("add_chunk", addChunk), ("write_heap", writeHeap), ("compress", compress),
  ("read_heap", readHeap), ("nondet", choose), ("branch", probe), ("bind", bind),
  ("b_bind", bind), ("combine", combine), ("b_combine", combine), ("for_each", forEach),
  ("b_for", forEach), ("flat_map", flatMap), ("and_then_k", continueWith), (">>", shift),
  ("map", map), ("then", andThen), ("sequence", sequence), ("traverse", traverse)]

/-- Operations that build arrows, and what is built from routines. -/
inductive ArrowOp where
  | ofRoutine | ofFunction | routine | partialApply | fmap | method
deriving DecidableEq, Repr

/-- The names of the operations that build arrows. -/
def ArrowOp.names : List (String × ArrowOp) := [
  ("do", ofRoutine), ("kleisli", ofFunction), ("generator_symcomp", routine),
  ("partial", partialApply), ("fmap", fmap), ("method", method)]

/-- Operations that run computations, and those on settings and policies. -/
inductive RunOp where
  | apply | runRaw | interpret | run | explore | propagating | settings | defaultSettings
  | settingsOf | getSettings | setSettings | setVariable | setPolicy | getPolicy
deriving DecidableEq, Repr

/-- The names of the operations that run and steer. -/
def RunOp.names : List (String × RunOp) := [
  ("apply", apply), ("run_raw", runRaw), ("interp", interpret), ("run", run),
  ("explore", explore), ("propagating", propagating), ("config", settings),
  ("config0", defaultSettings), ("from_env", settingsOf), ("get_config", getSettings),
  ("set_config", setSettings), ("setenv", setVariable), ("set_policy", setPolicy),
  ("get_policy", getPolicy)]

/-- An operation that evaluates all its operands first. -/
inductive Op where
  | data (op : DataOp)
  | operator (op : Operator)
  | model (op : ModelOp)
  | comp (op : CompOp)
  | arrow (op : ArrowOp)
  | run (op : RunOp)
deriving DecidableEq, Repr

/-- The operation that a name is written for. -/
def Op.ofName? (name : String) : Option Op :=
  ((DataOp.names.lookup name).map data)
    <|> ((Operator.names.lookup name).map operator)
    <|> ((ModelOp.names.lookup name).map model)
    <|> ((CompOp.names.lookup name).map comp)
    <|> ((ArrowOp.names.lookup name).map arrow)
    <|> ((RunOp.names.lookup name).map run)

end SymbolicPaths.Script
