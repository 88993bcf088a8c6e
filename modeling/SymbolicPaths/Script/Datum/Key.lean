import SymbolicPaths.Script.Datum
/-!
# Data as keys

A datum can key a table unless there is a list, a table that can change, or an arrow in it.  What
stands in the way is told by its kind, the first one met going through the parts in order: the
fields of a record as they are declared, the entries of a table each with its key before its value.
An error is a key whatever was said about it, and so is a receiver, which a method only points to.
-/

namespace SymbolicPaths.Script.Datum

variable {P : Type}

mutual

/-- The kind of the first part that keeps a datum from being a key. -/
def unhashable? : Datum P → Option String
  | list _ => some "list"
  | dict _ => some "dict"
  | tuple items => unhashableItem? items
  | frozenDict entries => unhashableEntry? entries
  | location r f => unhashable? r <|> unhashable? f
  | chunk l v => unhashable? l <|> unhashable? v
  | state store heap => unhashableEntry? store <|> unhashableItem? heap
  | branch s v => unhashable? s <|> unhashable? v
  | delimited l r => unhashable? l <|> unhashable? r
  | settings cap debug => unhashable? cap <|> unhashable? debug
  | dropped s e => unhashable? s <|> unhashable? e
  | exploration branches failures _ => unhashableItem? branches <|> unhashableItem? failures
  | object header _ => if header.hashable then none else some header.kind
  | wrapper header _ _ => some header.kind
  | method function _ => unhashable? function
  | _ => none
termination_by structural d => d

/-- The first obstacle in a list of items. -/
def unhashableItem? : List (Datum P) → Option String
  | [] => none
  | d :: rest => unhashable? d <|> unhashableItem? rest
termination_by structural items => items

/-- The first obstacle in the entries of a table. -/
def unhashableEntry? : List (Datum P × Datum P) → Option String
  | [] => none
  | (k, v) :: rest => unhashable? k <|> unhashable? v <|> unhashableEntry? rest
termination_by structural entries => entries

end

end SymbolicPaths.Script.Datum
