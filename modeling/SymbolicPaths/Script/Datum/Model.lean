import SymbolicPaths.Script.Datum.Term
/-!
# Data as pieces of the model

The library computes with states, chunks and branches, scripts with data that have the same parts.
Every datum can be read where such a piece is due: as that piece if it is one, and as something
foreign otherwise.  Nothing is lost on the way, so reading a datum and giving it back is the same
datum (`ofMember_toMember`, `ofSubject_toSubject`).
-/

namespace SymbolicPaths.Script.Datum

variable {P : Type}

/-- A chunk as a datum. -/
def ofChunk (c : Chunk (Datum P)) : Datum P := chunk c.location c.value

/-- A member of a heap as a datum. -/
def ofMember : Member (Datum P) → Datum P
  | .chunk c => ofChunk c
  | .foreign v => v

/-- A datum as a member of a heap. -/
def toMember : Datum P → Member (Datum P)
  | chunk l v => .chunk ⟨l, v⟩
  | d => .foreign d

@[simp] theorem ofMember_toMember (d : Datum P) : ofMember d.toMember = d := by
  cases d <;> rfl

/-- A store as a table. -/
def ofStore (s : Store (Datum P)) : Datum P := frozenDict s.entries

/-- A state as a datum. -/
def ofState (s : State (Datum P)) : Datum P := state s.store.entries (s.heap.map ofMember)

/-- The state that a datum is. -/
def toState? : Datum P → Option (State (Datum P))
  | state entries heap => some ⟨⟨entries⟩, heap.map toMember⟩
  | _ => none

/-- A subject as a datum. -/
def ofSubject : Subject (Datum P) → Datum P
  | .state s => ofState s
  | .foreign v => v

/-- A datum as a subject. -/
def toSubject (d : Datum P) : Subject (Datum P) :=
  match d.toState? with
  | some s => .state s
  | none => .foreign d

@[simp] theorem ofSubject_toSubject (d : Datum P) : ofSubject d.toSubject = d := by
  cases d <;> simp [toSubject, toState?, ofSubject, ofState, Function.comp_def]

/-- A branch as a datum. -/
def ofBranch (b : Branch (Datum P) (Datum P)) : Datum P := branch (ofSubject b.state) b.value

/-- Branches as a list. -/
def ofBranches (branches : List (Branch (Datum P) (Datum P))) : Datum P :=
  list (branches.map ofBranch)

/-- A number or nothing. -/
def ofNumber? : Option Int → Datum P
  | some n => int n
  | none => null

/-- What is installed as settings, as a datum. -/
def ofInstalled : Installed (Datum P) → Datum P
  | .loaded s => settings (ofNumber? s.maxBranches) (bool s.debug)
  | .given v => v

/-- An amount as a datum. -/
def ofAmount : Amount (Datum P) → Datum P
  | .number n => int n
  | .given v => v

end SymbolicPaths.Script.Datum
