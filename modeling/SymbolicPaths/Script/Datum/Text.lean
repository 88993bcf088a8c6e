import SymbolicPaths.Script.Datum.Order
/-!
# The text of data

How a datum reads on one line.  Brackets tell tuples, lists and tables apart; records name their
fields; a text is quoted.  In running text a text stands as it is and an error says its message; all
else is written.  `Datum.forms` gives both `Forms` of a datum at once, because each is made from both
forms of the parts.

A state lists its variables by name, and a record of the model shows members of its fields.  So
names without an order, and foreign things where these members are due, cannot be written; neither
can a number with too many digits.  What stands first in the text is refused first.
-/

namespace SymbolicPaths.Script

/-- The two ways in which a datum stands in a text. -/
structure Forms where
  /-- The datum as it is written. -/
  written : Except Unwritable String
  /-- The datum as it stands in running text. -/
  shown : Except Unwritable String

namespace Forms

/-- Both forms are the same. -/
def alike (text : Except Unwritable String) : Forms := ⟨text, text⟩

/-- An error is written as its family with its details in brackets.  It is shown as its details are:
one is shown, except for a key, which is written, and several are written as a tuple. -/
def ofError (kind : ErrorKind) (details : List Forms) : Forms where
  written := return kind.name ++ "("
    ++ String.intercalate ", " (← details.mapM (·.written)) ++ ")"
  shown := match kind, details with
    | .key, [d] => d.written
    | _, [] => .ok ""
    | _, [d] => d.shown
    | _, ds => return tupleText (← ds.mapM (·.written))

end Forms

namespace Datum

variable {P : Type}

/-- Pieces of text between brackets, separated by commas. -/
def enclosed (opening closing : String) (pieces : List String) : String :=
  opening ++ String.intercalate ", " pieces ++ closing

/-- The bindings of a store as they are listed, given each with its text: sorted by name. -/
def listedBindings (bindings : List (Datum P × Except Unwritable String)) :
    Except Unwritable (List String) := do
  let sorted ← (sortBy? (fun a b => do return (← order a.1 b.1) == .lt) bindings).mapError .unordered
  sorted.mapM (·.2)

mutual

/-- A datum in both forms. -/
def forms : Datum P → Forms
  | null => .alike (.ok "None")
  | bool b => .alike (.ok (if b then "True" else "False"))
  | int n => .alike (numeral n)
  | text s => ⟨.ok (Text.quoted s), .ok s⟩
  | tuple items =>
    let pieces := itemTexts? items
    .alike (do return tupleText (← pieces))
  | list items =>
    let pieces := itemTexts? items
    .alike (do return enclosed "[" "]" (← pieces))
  | dict entries =>
    let pieces := entryTexts? entries
    .alike (do return enclosed "\x7b" "\x7d" (← pieces))
  | frozenDict entries =>
    let pieces := entryTexts? entries
    .alike (do return "frozendict.frozendict(" ++ enclosed "\x7b" "\x7d" (← pieces) ++ ")")
  | location r f =>
    let reference := (forms r).written
    let field := (forms f).shown
    .alike (do return (← reference) ++ "." ++ (← field))
  | chunk l v =>
    let location := (forms l).written
    let value := (forms v).written
    .alike (do return "HeapChunk(location=" ++ (← location) ++ ", value=" ++ (← value) ++ ")")
  | state entries heap =>
    let bindings := bindingTexts entries
    let claims := claimTexts? heap
    .alike (do
      return "SymbolicState(locals=" ++ enclosed "\x7b" "\x7d" (← listedBindings bindings) ++ ", heap="
        ++ enclosed "[" "]" (← claims) ++ ")")
  | branch s v =>
    let state := (forms s).written
    let value := (forms v).written
    .alike (do return "Branch(state=" ++ (← state) ++ ", value=" ++ (← value) ++ ")")
  | delimited l r =>
    let left := (forms l).written
    let right := (forms r).written
    .alike (do return "DelimitedBranches(left=" ++ (← left) ++ ", right=" ++ (← right) ++ ")")
  | settings cap debug =>
    let cap := (forms cap).written
    let debug := (forms debug).written
    .alike (do return "Config(max_branches=" ++ (← cap) ++ ", debug=" ++ (← debug) ++ ")")
  | error tag details _ => .ofError tag.kind (formsOfItems details)
  | dropped s e =>
    let state := (forms s).written
    let error := (forms e).written
    .alike (do return "BranchFailure(state=" ++ (← state) ++ ", error=" ++ (← error) ++ ")")
  | exploration branches failures truncated =>
    let found := itemTexts? branches
    let failed := itemTexts? failures
    .alike (do
      return "ExplorationResult(branches=" ++ tupleText (← found) ++ ", failures="
        ++ tupleText (← failed) ++ ", truncated=" ++ (if truncated then "True" else "False") ++ ")")
  | object header _ => .alike (.ok header.text)
  | wrapper header inner _ =>
    let function := (forms inner).written
    .alike (do return header.kind ++ "(func=" ++ (← function) ++ ")")
  | method function receiver =>
    let receiver := (forms receiver).written
    .alike (do return "<bound method " ++ function.name?.getD "?" ++ " of " ++ (← receiver) ++ ">")
termination_by structural d => d

/-- Items in both forms. -/
def formsOfItems : List (Datum P) → List Forms
  | [] => []
  | d :: rest => forms d :: formsOfItems rest
termination_by structural items => items

/-- Items as they are written. -/
def itemTexts? : List (Datum P) → Except Unwritable (List String)
  | [] => .ok []
  | d :: rest => do return (← (forms d).written) :: (← itemTexts? rest)
termination_by structural items => items

/-- The entries of a table, each written as its key and its value. -/
def entryTexts? : List (Datum P × Datum P) → Except Unwritable (List String)
  | [] => .ok []
  | (k, v) :: rest => do
    return ((← (forms k).written) ++ ": " ++ (← (forms v).written)) :: (← entryTexts? rest)
termination_by structural entries => entries

/-- The bindings of a store, each beside its name: they are still to be sorted, so a binding that
cannot be written is not refused before its turn. -/
def bindingTexts : List (Datum P × Datum P) → List (Datum P × Except Unwritable String)
  | [] => []
  | (k, v) :: rest =>
    let name := (forms k).shown
    let value := (forms v).written
    (k, do return (← name) ++ "=" ++ (← value)) :: bindingTexts rest
termination_by structural entries => entries

/-- The members of a heap as claims. -/
def claimTexts? : List (Datum P) → Except Unwritable (List String)
  | [] => .ok []
  | chunk l v :: rest => do
    return ((← (forms l).written) ++ "->" ++ (← (forms v).written)) :: (← claimTexts? rest)
  | d :: _ => .error (.lacking d.kind "location")
termination_by structural heap => heap

end

/-- A datum as it is written. -/
def written? (d : Datum P) : Except Unwritable String := d.forms.written

/-- A datum in running text. -/
def shown? (d : Datum P) : Except Unwritable String := d.forms.shown

end Datum

end SymbolicPaths.Script
