import SymbolicPaths.Script.Machine
/-!
# Reports

What a script is answered with.  A `Report` is a tree of literals, lists and records, with nothing in
it that can be run or called, and `Value.report?` makes one of a value.

The parts of the model are told by their members, so a value cannot be told if something foreign
stands where such a member is due; nor can one whose tables have keys without an order, because
tables are told sorted.  Large numbers are told by their numerals.
-/

namespace SymbolicPaths.Script

/-- What is told of a value. -/
inductive Report where
  | null
  | bool (b : Bool)
  | int (n : Int)
  | text (s : String)
  | list (items : List Report)
  | record (fields : List (String × Report))

namespace Report

/-- A record with a single field. -/
def tagged (tag : String) (r : Report) : Report := record [(tag, r)]

/-- The least number that is told by its numeral. -/
def firstLarge : Nat := Nat.pow 2 53

/-- What is told of a number. -/
def ofNumber (n : Int) : Except (Defect Value) Report :=
  if n.natAbs < firstLarge then .ok (int n)
  else
    match numeral n with
    | .ok digits => .ok (tagged "int" (text digits))
    | .error obstacle => .error (.ofUnwritable obstacle)

/-- What is told of text that may be impossible to write. -/
def ofText (s : Except Unwritable String) : Except (Defect Value) Report :=
  match s with
  | .ok s => .ok (text s)
  | .error obstacle => .error (.ofUnwritable obstacle)

/-- What is told of entries, given what is told of each: sorted by key. -/
def ofEntries (entries : List (Value × Except (Defect Value) Report)) :
    Except (Defect Value) Report :=
  match sortBy? (fun a b => do return (← Datum.order a.1 b.1) == .lt) entries with
  | .ok sorted => do return list (← sorted.mapM (·.2))
  | .error operands => .error (.incomparable "<" operands)

/-- What is told of a state, given what is told of its bindings and of its heap. -/
def ofState (bindings : List (Value × Except (Defect Value) Report))
    (claims : Except (Defect Value) (List Report)) : Except (Defect Value) Report := do
  return record [("locals", ← ofEntries bindings), ("heap", list (← claims))]

end Report

namespace Value

/-- What is told of an object by its header, unless it is a computation or an arrow. -/
def headerReport (header : Header) : Payload → Report
  | .comp _ => .tagged "comp" (.text header.text)
  | .arrow _ =>
    .record [("kleisli", .text (header.name?.getD "<kleisli>")), ("class", .text header.kind)]
  | _ => .tagged "function" (.text (header.name?.getD "?"))

mutual

/-- What is told of a value. -/
def report? : Value → Except (Defect Value) Report
  | .null => .ok .null
  | .bool b => .ok (.bool b)
  | .int n => Report.ofNumber n
  | .text s => .ok (.text s)
  | .tuple items => do return .tagged "tuple" (.list (← itemReports? items))
  | .list items => do return .tagged "list" (.list (← itemReports? items))
  | .dict entries =>
    let told := entryReports entries
    do return .tagged "dict" (← Report.ofEntries told)
  | .frozenDict entries =>
    let told := entryReports entries
    do return .tagged "fdict" (← Report.ofEntries told)
  | .location r f => do return .tagged "loc" (.list [← report? r, ← report? f])
  | .chunk l v => do return .tagged "chunk" (.list ((← locationReports? l) ++ [← report? v]))
  | .state entries heap =>
    let bindings := entryReports entries
    let claims := claimReports? heap
    do return .tagged "state" (← Report.ofState bindings claims)
  | .branch s v => do return .tagged "branch" (.list [← stateReport? s, ← report? v])
  | .delimited l r => do return .tagged "delim" (.list [← sideReport? l, ← sideReport? r])
  | .settings cap debug => do return .tagged "config" (.list [← report? cap, ← report? debug])
  | .error tag details members => do
    let message ← Report.ofText (Term.shown? (.error tag details members : Value))
    return .record (("error", .text tag.kind.name) :: ("message", message)
      :: (← memberReports? members))
  | .dropped s e => do return .record [("state", ← stateReport? s), ("error", ← report? e)]
  | .exploration branches failures truncated => do
    let found ← branchReports? branches
    let failed ← itemReports? failures
    return .tagged "result" (.record [
      ("branches", .list found), ("failures", .list failed), ("truncated", .bool truncated)])
  | .object header payload => .ok (headerReport header payload)
  | .wrapper header _ payload => .ok (headerReport header payload)
  | .method function _ => .ok (.tagged "function" (.text (function.name?.getD "?")))
termination_by structural v => v

/-- What is told of items. -/
def itemReports? : List Value → Except (Defect Value) (List Report)
  | [] => .ok []
  | v :: rest => do return (← report? v) :: (← itemReports? rest)
termination_by structural items => items

/-- What is told of each entry, beside its key: the entries are still to be sorted. -/
def entryReports : List (Value × Value) → List (Value × Except (Defect Value) Report)
  | [] => []
  | (k, v) :: rest =>
    let key := report? k
    let value := report? v
    (k, do return .list [← key, ← value]) :: entryReports rest
termination_by structural entries => entries

/-- What is told of the members of an error, each under its name. -/
def memberReports? : List (String × Value) → Except (Defect Value) (List (String × Report))
  | [] => .ok []
  | (name, v) :: rest => do return (name, ← report? v) :: (← memberReports? rest)
termination_by structural members => members

/-- What is told of a location inside a chunk: its reference and its field. -/
def locationReports? : Value → Except (Defect Value) (List Report)
  | .location r f => do return [← report? r, ← report? f]
  | v => .error (.lacking v.kind "reference")
termination_by structural v => v

/-- What is told of the members of a heap. -/
def claimReports? : List Value → Except (Defect Value) (List Report)
  | [] => .ok []
  | .chunk l v :: rest => do
    return .list ((← locationReports? l) ++ [← report? v]) :: (← claimReports? rest)
  | v :: _ => .error (.lacking v.kind "location")
termination_by structural heap => heap

/-- What is told of a state inside something else. -/
def stateReport? : Value → Except (Defect Value) Report
  | .state entries heap =>
    let bindings := entryReports entries
    let claims := claimReports? heap
    Report.ofState bindings claims
  | v => .error (.lacking v.kind "locals")
termination_by structural v => v

/-- What is told of branches. -/
def branchReports? : List Value → Except (Defect Value) (List Report)
  | [] => .ok []
  | .branch s v :: rest => do
    return .list [← stateReport? s, ← report? v] :: (← branchReports? rest)
  | v :: _ => .error (.lacking v.kind "state")
termination_by structural branches => branches

/-- What is told of one side of a pair of branch lists. -/
def sideReport? : Value → Except (Defect Value) Report
  | .list branches => do return .list (← branchReports? branches)
  | .tuple branches => do return .list (← branchReports? branches)
  | v =>
    match v.items? with
    | some [] => .ok (.list [])
    | some (item :: _) => .error (.lacking item.kind "state")
    | none => .error (Misuse.notIterable v.kind).defect
termination_by structural v => v

end

/-- A fault as an error that is only told. -/
def ofFault (f : Fault Value) : Value :=
  let (details, members) := faultParts f
  .error ⟨0, f.kind⟩ details members

/-- What is told of a fault.  A fault that cannot be put into words gives way to the defect that the
attempt is. -/
def faultFields (f : Fault Value) : List (String × Report) :=
  match report? (ofFault f) with
  | .ok (.record fields) => fields
  | .ok _ => []
  | .error d =>
    match report? (ofFault (.defect d)) with
    | .ok (.record fields) => fields
    | _ => []

/-- What is told of a dropped branch. -/
def droppedReport? (d : Dropped Value) : Except (Defect Value) Report :=
  report? (.dropped (.ofSubject d.state) (ofFault (.failure d.error)))

end Value

end SymbolicPaths.Script
