import SymbolicPaths.State
/-!
# Laying out states and branches

How states and branches are set out on several lines, for logs and reports.  Variables come sorted
by name, which is refused if the names have no order; the heap comes in its own order.  The value of
a branch is cut off after eighty characters.
-/

namespace SymbolicPaths

variable {V α : Type}

namespace State

/-- The lines of one part of a state: a heading, then the items, or a remark that there are none. -/
def sectionLines (indent heading : String) (items : List String) : List String :=
  (indent ++ heading ++ ":") ::
    (if items.isEmpty then [indent ++ "  (empty)"] else items.map fun item => indent ++ "  " ++ item)

/-- The line of a member of the heap. -/
def memberLine? [Term V] : Member V → Except Unwritable String
  | .chunk c => do
    let location ← Written.written? c.location
    return location ++ " -> " ++ (← Written.written? c.value)
  | .foreign v => .error (.lacking (Term.kind v) "location")

/-- A state over several lines, each behind `indent`. -/
def layout? [Term V] (indent : String) (s : State V) : Except Unwritable String := do
  let bindings ← (← s.store.sorted?.mapError .unordered).mapM fun (name, v) => do
    let name ← Term.shown? name
    return name ++ " = " ++ (← Written.written? v)
  let members ← s.heap.mapM memberLine?
  return String.intercalate "\n"
    (sectionLines indent "locals" bindings ++ sectionLines indent "heap" members)

end State

/-- A subject over several lines; only a state has the members to be set out. -/
def Subject.layout? [Term V] (indent : String) : Subject V → Except Unwritable String
  | .state s => s.layout? indent
  | .foreign v => .error (.lacking (Term.kind v) "locals")

/-- The most characters of a value that are set out. -/
def valueWidth : Nat := 80

/-- A text, or its beginning with three dots if it is too long. -/
def shortened (text : String) : String :=
  if text.length > valueWidth then String.ofList (text.toList.take (valueWidth - 3)) ++ "..."
  else text

namespace Branch

/-- A branch over several lines under its number. -/
def layout? [Term V] [Written α] (index : Nat) (b : Branch V α) : Except Unwritable String := do
  let value ← Written.written? b.value
  return "branch " ++ toString index ++ ": value=" ++ shortened value ++ "\n"
    ++ (← b.state.layout? "  ")

/-- The blocks of branches one below the other, or a remark that there are none. -/
def layoutBlocks (blocks : List String) : String :=
  if blocks.isEmpty then "no feasible branches" else String.intercalate "\n" blocks

/-- Branches one below the other. -/
def layoutAll? [Term V] [Written α] (branches : List (Branch V α)) : Except Unwritable String := do
  return layoutBlocks (← branches.zipIdx.mapM fun (b, i) => layout? i b)

end Branch

end SymbolicPaths
