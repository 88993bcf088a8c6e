import SymbolicPaths.Script.Expr
/-!
# Reading scripts

A script is written as nested lists of literals (`Source`).  A list that starts with the name of a
special shape is read as that shape if its parts fit; a list that starts with the name of an
operation is a form.  What cannot be read is `Expr.malformed`, which only fails when it is
evaluated, so a script with an unreadable corner can still be run up to there.
-/

namespace SymbolicPaths.Script

/-- A script as it is written. -/
inductive Source where
  | literal (l : Literal)
  | list (items : List Source)

namespace Source

/-- A text literal. -/
def text? : Source → Option String
  | .literal (.text s) => some s
  | _ => none

/-- A list of names. -/
def names? : Source → Option (List String)
  | list items => items.mapM text?
  | _ => none

/-- An optional name: nothing stands for none. -/
def optionalName? : Source → Option (Option String)
  | .literal .null => some none
  | .literal (.text s) => some (some s)
  | _ => none

mutual

/-- The expression that a source is. -/
def expr : Source → Expr
  | .literal l => .literal l
  | .list (.literal (.text head) :: parts) =>
    match head, parts with
    | "v", [name] => ((text? name).map .reference).getD .malformed
    | "let", [name, value, body] =>
      ((text? name).map fun x => .bindIn x (expr value) (expr body)).getD .malformed
    | "if", [condition, yes, no] => .choice (expr condition) (expr yes) (expr no)
    | "fn", [params, body] =>
      ((names? params).map fun ps => .function (some "<lambda>") ps (expr body)).getD .malformed
    | "fn", [params, body, name] =>
      ((names? params).bind fun ps =>
        (optionalName? name).map fun n =>
          .function (some (n.getD "<lambda>")) ps (expr body)).getD .malformed
    | "fnobj", [params, body] =>
      ((names? params).map fun ps => .function none ps (expr body)).getD .malformed
    | "gen", [name, params, .list body] =>
      ((text? name).bind fun x =>
        (names? params).map fun ps => .stepwise x ps (statements body)).getD .malformed
    | "maplist", [name, items, body] =>
      ((text? name).map fun x => .each x (expr items) (expr body)).getD .malformed
    | "all", [name, items, body] =>
      ((text? name).map fun x => .all x (expr items) (expr body)).getD .malformed
    | "tick", [remark, result] => .note (expr remark) (expr result)
    | "try", [e] => .attempt (expr e)
    | "fork", [e] => .fork (expr e)
    | "with_collect", [label, e] =>
      ((text? label).map fun l => .collect l (expr e)).getD .malformed
    | "with_delimited", [label, e] =>
      ((optionalName? label).map fun l => .delimit l (expr e)).getD .malformed
    | "delay", [e] => .defer "delay" (expr e)
    | "b_delay", [e] => .defer "delay" (expr e)
    | "defer", [e, name] => ((text? name).map fun x => .defer x (expr e)).getD .malformed
    | "custom", [name, input, .list rows] =>
      ((optionalName? name).bind fun n =>
        (text? input).map fun x => .custom n x (pairs rows)).getD .malformed
    | _, parts =>
      match Op.ofName? head with
      | some op => .form op (exprs parts)
      | none => .malformed
  | .list _ => .malformed
termination_by structural s => s

/-- The expressions that sources are. -/
def exprs : List Source → List Expr
  | [] => []
  | s :: rest => expr s :: exprs rest
termination_by structural sources => sources

/-- Pairs of expressions. -/
def pairs : List Source → List (Expr × Expr)
  | [] => []
  | .list [a, b] :: rest => (expr a, expr b) :: pairs rest
  | _ :: rest => (.malformed, .malformed) :: pairs rest
termination_by structural sources => sources

/-- The statement that a source is. -/
def statement : Source → Stmt
  | .list (.literal (.text head) :: parts) =>
    match head, parts with
    | "yield", [name, e] =>
      ((optionalName? name).map fun n => .await n (expr e)).getD (.eval .malformed)
    | "let", [name, e] => ((text? name).map fun x => .assign x (expr e)).getD (.eval .malformed)
    | "expr", [e] => .eval (expr e)
    | "return", [e] => .leave (expr e)
    | "if", [condition, .list yes, .list no] =>
      .choice (expr condition) (statements yes) (statements no)
    | "for", [name, items, .list body] =>
      ((text? name).map fun x => .forEach x (expr items) (statements body)).getD (.eval .malformed)
    | "while", [condition, .list body] => .loop (expr condition) (statements body)
    | _, _ => .eval .malformed
  | _ => .eval .malformed
termination_by structural s => s

/-- The statements that sources are. -/
def statements : List Source → List Stmt
  | [] => []
  | s :: rest => statement s :: statements rest
termination_by structural sources => sources

end

/-- The step that a source is: a definition of a global name, or an expression. -/
def step : Source → Step
  | .list [.literal (.text "def"), .literal (.text name), e] => ⟨some name, e.expr⟩
  | s => ⟨none, s.expr⟩

end Source

end SymbolicPaths.Script
