import SymbolicPaths.Script.Form
/-!
# Expressions

The syntax of scripts.  An expression is a literal, a form (`SymbolicPaths.Script.Form`), or one of
the special shapes that decide for themselves when their parts are evaluated.  A routine has a body
of statements, the only place where a computation can be asked for from within.
-/

namespace SymbolicPaths.Script

/-- Data that stand for themselves. -/
inductive Literal where
  | null
  | bool (b : Bool)
  | int (n : Int)
  | text (s : String)
  /-- A number by its numeral, which is read when it is evaluated. -/
  | numeral (digits : String)
deriving DecidableEq, Repr

mutual

/-- An expression of a script. -/
inductive Expr where
  | literal (l : Literal)
  /-- A local variable, else a global one. -/
  | reference (name : String)
  /-- A local name for a value. -/
  | bindIn (name : String) (value body : Expr)
  | choice (condition yes no : Expr)
  /-- A function; without a name it is an object that can be called. -/
  | function (name : Option String) (params : List String) (body : Expr)
  /-- A function that runs in steps. -/
  | stepwise (name : String) (params : List String) (body : List Stmt)
  /-- The values of `body` for each item. -/
  | each (name : String) (items body : Expr)
  /-- Whether `body` is true for each item, up to the first for which it is not. -/
  | all (name : String) (items body : Expr)
  /-- Notes the first value and gives the second. -/
  | note (remark result : Expr)
  /-- What became of an expression, as data. -/
  | attempt (e : Expr)
  /-- Evaluates on a copy of the settings and the policy. -/
  | fork (e : Expr)
  /-- Evaluates while a receiver gets the dropped branches. -/
  | collect (label : String) (e : Expr)
  /-- Evaluates with failures kept away from the enclosing run. -/
  | delimit (label : Option String) (e : Expr)
  /-- The computation that an expression builds, put off until it runs. -/
  | defer (name : String) (e : Expr)
  /-- A computation given by rows of a state and a value, with the input state under a name. -/
  | custom (name : Option String) (input : String) (rows : List (Expr × Expr))
  | form (op : Op) (operands : List Expr)
  /-- What could not be read. -/
  | malformed

/-- A statement of a routine. -/
inductive Stmt where
  /-- Asks for a computation and keeps what is sent back under a name, if one is given. -/
  | await (name : Option String) (e : Expr)
  | assign (name : String) (e : Expr)
  | eval (e : Expr)
  | leave (e : Expr)
  | choice (condition : Expr) (yes no : List Stmt)
  | forEach (name : String) (items : Expr) (body : List Stmt)
  | loop (condition : Expr) (body : List Stmt)

end

instance : Inhabited Expr := ⟨.literal .null⟩

instance : Inhabited Stmt := ⟨.eval default⟩

/-- A step of a script: an expression, whose value may be kept under a global name. -/
structure Step where
  name : Option String
  expr : Expr

end SymbolicPaths.Script
