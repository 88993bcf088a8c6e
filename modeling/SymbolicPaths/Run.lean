import SymbolicPaths.Journal
/-!
# Runs

`Run V α` is what every operation of the library does when it is carried out: it is told in which
`Scope` it runs and in which `Context`, and it ends with an `Outcome`: an answer or a fault, the
context as it was left, and the events on the way.  A fault loses neither the context nor the
events.

## Scopes

Failures are governed by things that other designs keep in variables and restore by hand.

* The scope is an argument.  It says how failures are treated (`Mode`), and what those who receive
  dropped branches and log records may refuse.  `inMode` gives another mode to the run inside and to
  nothing else.
* Dropped branches are output.  A run says which branches it dropped and never to whom; the scope
  around it decides.  `collect` takes the pending ones as a value, `deliverTo` addresses them, and
  `delimit` addresses or forgets them and guards what runs inside.  What a scope has taken, no outer
  scope can see.

So when an operation ends, by an answer or by a fault, the mode and the receiver around it are what
they were, because neither was ever touched.
-/

namespace SymbolicPaths

/-- How failures are treated. -/
inductive Mode where
  /-- A failure ends its branch: the guarded computation around it gives no branches. -/
  | guarded
  /-- A failure goes through every guard to whoever asked for the run. -/
  | raw
deriving DecidableEq, Repr

/-- What a run is carried out under.  Whoever keeps log records or receives dropped branches may be
unable to take one, which is then a defect of the run; unless something else is said they take
everything. -/
structure Scope (V : Type) where
  mode : Mode := .guarded
  /-- Whether a log record can be kept. -/
  records : Entry V → Except (Defect V) Unit := fun _ => .ok ()
  /-- Whether a dropped branch can be received. -/
  receives : Dropped V → Except (Defect V) Unit := fun _ => .ok ()

namespace Scope

/-- The scope of a mode in which everything is taken. -/
def of {V : Type} (m : Mode) : Scope V := { mode := m }

/-- The same scope in another mode. -/
def withMode {V : Type} (σ : Scope V) (m : Mode) : Scope V := { σ with mode := m }

/-- The same scope with somebody else receiving dropped branches. -/
def receivedBy {V : Type} (σ : Scope V) (receives : Dropped V → Except (Defect V) Unit) : Scope V :=
  { σ with receives }

/-- The same scope with dropped branches taken by somebody who takes them all. -/
def receptive {V : Type} (σ : Scope V) : Scope V := σ.receivedBy fun _ => .ok ()

end Scope

/-- How chunks at one location are unified when nobody says. -/
inductive Policy (V : Type) where
  /-- By the largest term. -/
  | maxTerm
  /-- By a policy of the program's own, which is a term; whoever runs the program knows its
  meaning. -/
  | chosen (policy : V)

/-- What a run may consult and change. -/
structure Context (V : Type) where
  /-- The settings installed, or read from the environment since the last reset. -/
  settings : Option (Installed V) := none
  environment : Environment := []
  /-- The policy in force where none is given. -/
  policy : Policy V := .maxTerm
  /-- The next unused identity for an object of the program. -/
  nextId : Nat := 0
  /-- What objects that change are at present, by their identities. -/
  cells : List (Nat × V) := []

/-- How a run ended. -/
structure Outcome (V α : Type) where
  answer : Except (Fault V) α
  context : Context V
  events : List (Event V)

/-- Something to be carried out. -/
def Run (V α : Type) : Type := Scope V → Context V → Outcome V α

/-- Somebody who receives dropped branches, known by a label. -/
structure Receiver (V : Type) where
  label : String
  /-- Whether a dropped branch can be received. -/
  takes : Dropped V → Except (Defect V) Unit := fun _ => .ok ()

namespace Run

variable {V α β : Type}

/-- Answers at once. -/
protected def pure (a : α) : Run V α := fun _ c => ⟨.ok a, c, []⟩

/-- Carries out `x` and then, if it answered, what `f` makes of the answer. -/
protected def bind (x : Run V α) (f : α → Run V β) : Run V β := fun σ c =>
  match x σ c with
  | ⟨.error e, c', events⟩ => ⟨.error e, c', events⟩
  | ⟨.ok a, c', events⟩ =>
    let o := f a σ c'
    { o with events := events ++ o.events }

instance : Monad (Run V) where
  pure := Run.pure
  bind := Run.bind

/-- Runs obey the monad laws: events are joined in order, and joining is associative. -/
instance : LawfulMonad (Run V) := LawfulMonad.mk' (Run V)
  (fun x => by
    change Run.bind x Run.pure = x
    funext σ c
    simp only [Run.bind]
    split <;> simp_all [Run.pure])
  (fun a f => by
    change Run.bind (Run.pure a) f = f a
    funext σ c
    simp [Run.bind, Run.pure])
  (fun x f g => by
    change Run.bind (Run.bind x f) g = Run.bind x fun a => Run.bind (f a) g
    funext σ c
    simp only [Run.bind]
    rcases x σ c with ⟨_ | a, c', events⟩
    · rfl
    · rcases h : f a σ c' with ⟨_ | b, c'', events'⟩ <;> simp [h])

@[simp] theorem pure_apply (a : α) (σ : Scope V) (c : Context V) :
    (pure a : Run V α) σ c = ⟨.ok a, c, []⟩ := rfl

/-- A run that answers is gone on with from the context that it left. -/
theorem bind_apply_of_ok {x : Run V α} {σ : Scope V} {c c' : Context V} {a : α}
    {events : List (Event V)} (h : x σ c = ⟨.ok a, c', events⟩) (f : α → Run V β) :
    (x >>= f) σ c = ⟨(f a σ c').answer, (f a σ c').context, events ++ (f a σ c').events⟩ := by
  change Run.bind x f σ c = _
  simp only [Run.bind, h]

/-- A run that ends with a fault is not gone on with. -/
theorem bind_apply_of_error {x : Run V α} {σ : Scope V} {c c' : Context V} {e : Fault V}
    {events : List (Event V)} (h : x σ c = ⟨.error e, c', events⟩) (f : α → Run V β) :
    (x >>= f) σ c = ⟨.error e, c', events⟩ := by
  change Run.bind x f σ c = _
  simp only [Run.bind, h]

/-- Ends the run with a fault. -/
def stop (e : Fault V) : Run V α := fun _ c => ⟨.error e, c, []⟩

@[simp] theorem stop_apply (e : Fault V) (σ : Scope V) (c : Context V) :
    (stop e : Run V α) σ c = ⟨.error e, c, []⟩ := rfl

@[simp] theorem stop_bind (e : Fault V) (f : α → Run V β) : (stop e >>= f) = stop e := rfl

/-- Ends the whole run. -/
def reject (d : Defect V) : Run V α := stop (.defect d)

/-- A run out of steps. -/
def exhausted : Run V α := stop .exhausted

/-- An answer that may have been refused beforehand. -/
def ofExcept (x : Except (Fault V) α) : Run V α := fun _ c => ⟨x, c, []⟩

/-- The answer of a comparison; terms without an order are a defect of the program. -/
def ordered (operator : String) (x : Except Incomparable α) : Run V α :=
  match x with
  | .ok a => pure a
  | .error operands => reject (.incomparable operator operands)

/-- The answer of writing something down; what cannot be written is a defect of the program. -/
def written (x : Except Unwritable α) : Run V α :=
  match x with
  | .ok a => pure a
  | .error obstacle => reject (.ofUnwritable obstacle)

/-- The answer of asking for a member; something foreign that lacks it is a defect of the
program. -/
def having (member : String) (x : Except String α) : Run V α :=
  match x with
  | .ok a => pure a
  | .error kind => reject (.lacking kind member)

/-- Goes on only if nothing keeps a term from being a key. -/
def requireKey (obstacle : Option String) : Run V Unit :=
  match obstacle with
  | some kind => reject (.unhashable kind)
  | none => pure ()

/-- Ends the branch.  A failure says what it is about from the start, so one that cannot be put into
words is a defect instead; only what was said about a branch that was given up is left for later. -/
def fail [Term V] (f : Failure V) : Run V α :=
  match f with
  | .abandoned _ => stop (.failure f)
  | _ => do
    let _ ← written f.message?
    stop (.failure f)

/-- Ends the whole run with a defect that says what it is about from the start. -/
def complain [Term V] (d : Defect V) : Run V α := do
  let _ ← written d.message?
  reject d

/-- The state that a subject is, for the sake of a member of it. -/
def stateWith [Term V] (member : String) : Subject V → Run V (State V)
  | .state s => pure s
  | .foreign v => reject (.lacking (Term.kind v) member)

@[simp] theorem stateWith_state [Term V] (member : String) (s : State V) :
    stateWith member (.state s) = pure s := rfl

/-- The chunks of a heap, for the sake of their locations. -/
def claims [Term V] (heap : List (Member V)) : Run V (List (Chunk V)) :=
  having "location" (Heap.claims? heap)

@[simp] theorem claims_map_chunk [Term V] (chunks : List (Chunk V)) :
    claims (chunks.map Member.chunk) = pure chunks := by
  rw [claims, Heap.claims?_map_chunk]
  rfl

/-! ## Events -/

/-- Adds an event to the journal. -/
def emit (e : Event V) : Run V Unit := fun _ c => ⟨.ok (), c, [e]⟩

@[simp] theorem emit_apply (e : Event V) (σ : Scope V) (c : Context V) :
    emit e σ c = ⟨.ok (), c, [e]⟩ := rfl

/-- Adds an event to the journal if whoever has to take it can. -/
def emitIf (taken : Scope V → Except (Defect V) Unit) (e : Event V) : Run V Unit := fun σ c =>
  match taken σ with
  | .ok () => ⟨.ok (), c, [e]⟩
  | .error d => ⟨.error (.defect d), c, []⟩

/-- Adds a log record to the journal. -/
def log (e : Entry V) : Run V Unit := emitIf (·.records e) (.entry e)

@[simp] theorem log_apply_of (e : Entry V) (m : Mode) (c : Context V) :
    log e (.of m) c = ⟨.ok (), c, [.entry e]⟩ := rfl

/-- Gives up a branch: one log record and one dropped branch. -/
def report (computation : String) (state : Subject V) (error : Failure V) : Run V Unit := do
  log (.dropping computation error)
  emitIf (·.receives ⟨state, error⟩) (.dropped ⟨state, error⟩)

@[simp] theorem report_apply_of (computation : String) (state : Subject V) (error : Failure V)
    (m : Mode) (c : Context V) : report computation state error (.of m) c =
      ⟨.ok (), c, [.entry (.dropping computation error), .dropped ⟨state, error⟩]⟩ := rfl

/-! ## Context -/

/-- The mode in which the run is carried out. -/
def mode : Run V Mode := fun σ c => ⟨.ok σ.mode, c, []⟩

@[simp] theorem mode_bind (f : Mode → Run V α) (σ : Scope V) (c : Context V) :
    (mode >>= f) σ c = f σ.mode σ c := rfl

/-- The context at this point of the run. -/
def context : Run V (Context V) := fun _ c => ⟨.ok c, c, []⟩

@[simp] theorem context_bind (f : Context V → Run V α) (σ : Scope V) (c : Context V) :
    (context >>= f) σ c = f c σ c := rfl

/-- Changes the context. -/
def updateContext (f : Context V → Context V) : Run V Unit := fun _ c => ⟨.ok (), f c, []⟩

/-- An identity that no object of the program has. -/
def freshId : Run V Nat := fun _ c => ⟨.ok c.nextId, { c with nextId := c.nextId + 1 }, []⟩

/-- What an object that changes is at present; nothing if it has come to its end. -/
def cell? (id : Nat) : Run V (Option V) := do return (← context).cells.lookup id

/-- Changes an object. -/
def setCell (id : Nat) (v : V) : Run V Unit :=
  updateContext fun c => { c with cells := (id, v) :: c.cells.filter fun e => e.1 != id }

/-- Brings an object to its end. -/
def clearCell (id : Nat) : Run V Unit :=
  updateContext fun c => { c with cells := c.cells.filter fun e => e.1 != id }

@[simp] theorem cell?_bind (id : Nat) (f : Option V → Run V α) (σ : Scope V) (c : Context V) :
    (cell? id >>= f) σ c = f (c.cells.lookup id) σ c := rfl

/-! ## Scopes -/

/-- Carries out a run in a given mode. -/
def inMode (m : Mode) (x : Run V α) : Run V α := fun σ c => x (σ.withMode m) c

@[simp] theorem inMode_apply (k : Mode) (x : Run V α) (σ : Scope V) (c : Context V) :
    inMode k x σ c = x (σ.withMode k) c := rfl

/-- Carries out a run and answers with the failure that ended it, if one did.  Defects go on. -/
def confine (x : Run V α) : Run V (Except (Failure V) α) := fun σ c =>
  match x σ c with
  | ⟨.error (.failure f), c', events⟩ => ⟨.ok (.error f), c', events⟩
  | ⟨.error e, c', events⟩ => ⟨.error e, c', events⟩
  | ⟨.ok a, c', events⟩ => ⟨.ok (.ok a), c', events⟩

/-- Carries out a run and answers with the fault that ended it, if one did.  Only running out of
steps goes on, because it says nothing about the program. -/
def attempt (x : Run V α) : Run V (Except (Fault V) α) := fun σ c =>
  match x σ c with
  | ⟨.error .exhausted, c', events⟩ => ⟨.error .exhausted, c', events⟩
  | ⟨.error e, c', events⟩ => ⟨.ok (.error e), c', events⟩
  | ⟨.ok a, c', events⟩ => ⟨.ok (.ok a), c', events⟩

/-- Carries out a run and reads its answer as another. -/
def reading (g : Except (Fault V) α → Except (Fault V) β) (x : Run V α) : Run V β := fun σ c =>
  let o := x σ c
  { o with answer := g o.answer }

/-- An answer as it is for whoever takes the error that says there is nothing more to come for an
end. -/
def withOver : Except (Fault V) α → Except (Fault V) (Except (List V) α)
  | .ok a => .ok (.ok a)
  | .error e =>
    match e.over? with
    | some details => .ok (.error details)
    | none => .error e

/-- Carries out a run and answers with the details of the error that says there is nothing more to
come, if that ended it. -/
def unlessOver (x : Run V α) : Run V (Except (List V) α) := reading withOver x

/-- Carries out a part of a body: what goes wrong there leaves a body. -/
def asBody (x : Run V α) : Run V α := reading (Except.mapError Fault.ofBody) x

@[simp] theorem asBody_pure (a : α) : asBody (pure a : Run V α) = pure a := rfl

@[simp] theorem asBody_stop (e : Fault V) : asBody (stop e : Run V α) = stop e.ofBody := rfl

/-- What is done after a run that ended like this: nothing if there is something to keep. -/
def parting (keep : α → Bool) (last : Run V Unit) : Except (Fault V) α → Run V α
  | .ok a => if keep a then pure a else last >>= fun _ => pure a
  | .error e => last >>= fun _ => stop e

/-- Carries out `last` after `x`, however `x` ended, unless it answered with something to keep.  A fault
of `last` is the one that shows. -/
def afterUnless (keep : α → Bool) (last : Run V Unit) (x : Run V α) : Run V α := do
  parting keep last (← attempt x)

/-- Carries out a run and takes the branches that it dropped, in order. -/
def collect (x : Run V α) : Run V (α × List (Dropped V)) := fun σ c =>
  let o := x σ.receptive c
  { answer := o.answer.map fun a => (a, o.events.filterMap Event.pending?)
    context := o.context
    events := o.events.filter fun e => e.pending?.isNone }

/-- What a collecting scope has taken, no outer scope sees. -/
@[simp] theorem pending_collect (x : Run V α) (σ : Scope V) (c : Context V) :
    (collect x σ c).events.filterMap Event.pending? = [] := by
  simp [collect, List.filterMap_eq_nil_iff]

/-- Carries out a run whose dropped branches go to a receiver. -/
def deliverTo (r : Receiver V) (x : Run V α) : Run V α := fun σ c =>
  let o := x (σ.receivedBy r.takes) c
  { o with events := o.events.map (Event.receivedBy r.label) }

/-- What was delivered is pending no longer. -/
@[simp] theorem pending_deliverTo (r : Receiver V) (x : Run V α) (σ : Scope V) (c : Context V) :
    (deliverTo r x σ c).events.filterMap Event.pending? = [] := by
  simp only [deliverTo, List.filterMap_eq_nil_iff, List.mem_map]
  rintro _ ⟨e, _, rfl⟩
  cases e <;> rfl

/-- Carries out a run whose dropped branches nobody receives. -/
def discard (x : Run V α) : Run V α := fun σ c =>
  let o := x σ.receptive c
  { o with events := o.events.filter fun e => e.pending?.isNone }

/-- What was discarded is pending no longer. -/
@[simp] theorem pending_discard (x : Run V α) (σ : Scope V) (c : Context V) :
    (discard x σ c).events.filterMap Event.pending? = [] := by
  simp [discard, List.filterMap_eq_nil_iff]

/-- Keeps failures away from the enclosing run: what runs inside is guarded whatever the mode
outside, and its dropped branches go to the receiver, or to nobody. -/
def delimit (receiver : Option (Receiver V)) (x : Run V α) : Run V α :=
  match receiver with
  | some r => deliverTo r (inMode .guarded x)
  | none => discard (inMode .guarded x)

/-- Nothing that is dropped inside is pending outside. -/
@[simp] theorem pending_delimit (receiver : Option (Receiver V)) (x : Run V α) (σ : Scope V)
    (c : Context V) : (delimit receiver x σ c).events.filterMap Event.pending? = [] := by
  cases receiver <;> simp only [delimit, pending_deliverTo, pending_discard]

/-- Neither the mode outside nor who receives dropped branches there makes a difference inside. -/
theorem delimit_apply (receiver : Option (Receiver V)) (x : Run V α) {σ τ : Scope V}
    (h : σ.records = τ.records) (c : Context V) : delimit receiver x σ c = delimit receiver x τ c := by
  rcases σ with ⟨m, records, receives⟩
  rcases τ with ⟨k, records', receives'⟩
  obtain rfl : records = records' := h
  cases receiver <;> rfl

/-- Carries out a run on a copy of the settings and the policy: changes to them are not seen
outside.  The environment and the objects that change are shared. -/
def fork (x : Run V α) : Run V α := fun σ c =>
  let o := x σ c
  { o with context := { o.context with settings := c.settings, policy := c.policy } }

/-- Carries out a part of a computation that was applied to `state`.  When guarded, a failure is
reported and there is no answer; in raw mode it goes on to the caller. -/
def guarding (computation : String) (state : Subject V) (x : Run V α) : Run V (Option α) := do
  match ← mode with
  | .raw => return some (← x)
  | .guarded =>
    match ← confine x with
    | .ok a => return some a
    | .error f =>
      report computation state f
      return none

/-! ## Lists -/

/-- Carries out `f` on every item, from left to right, and joins the lists. -/
def flatMap {ι : Type} (items : List ι) (f : ι → Run V (List α)) : Run V (List α) :=
  match items with
  | [] => pure []
  | i :: rest => do
    let here ← f i
    let others ← flatMap rest f
    return here ++ others

@[simp] theorem flatMap_nil {ι : Type} (f : ι → Run V (List α)) : flatMap [] f = pure [] := rfl

theorem flatMap_cons {ι : Type} (i : ι) (rest : List ι) (f : ι → Run V (List α)) :
    flatMap (i :: rest) f = do
      let here ← f i
      let others ← flatMap rest f
      return here ++ others := rfl

/-- Carries out `f` on every item, from left to right. -/
def each {ι : Type} (items : List ι) (f : ι → Run V α) : Run V (List α) :=
  match items with
  | [] => pure []
  | i :: rest => do
    let here ← f i
    let others ← each rest f
    return here :: others

@[simp] theorem each_nil {ι : Type} (f : ι → Run V α) : each [] f = pure [] := rfl

theorem each_cons {ι : Type} (i : ι) (rest : List ι) (f : ι → Run V α) :
    each (i :: rest) f = do
      let here ← f i
      let others ← each rest f
      return here :: others := rfl

/-! ## Settings -/

/-- The settings that an environment holds; an environment without usable settings is a defect. -/
def load (env : Environment) : Run V Settings :=
  match Settings.ofEnvironment env with
  | .error p => reject (.settings p)
  | .ok s => pure s

/-- What is installed as settings, else the settings of the environment, which are kept from then
on.  An environment without usable settings leaves nothing behind. -/
def settings : Run V (Installed V) := do
  match (← context).settings with
  | some s => return s
  | none =>
    let s := .loaded (← load (← context).environment)
    updateContext fun c => { c with settings := some s }
    return s

/-- Settings that are installed stay in force whatever the environment says. -/
theorem settings_apply_of_installed {c : Context V} {s : Installed V} (h : c.settings = some s)
    (σ : Scope V) : settings σ c = ⟨.ok s, c, []⟩ := by
  rw [settings, context_bind, h]
  rfl

/-- Installs settings, or with `none` has them read again; answers with those before. -/
def install (s : Option (Installed V)) : Run V (Option (Installed V)) := do
  let previous := (← context).settings
  updateContext fun c => { c with settings := s }
  return previous

/-- Installs the policy for everything that names none; answers with the one before. -/
def setPolicy (p : Policy V) : Run V (Policy V) := do
  let previous := (← context).policy
  updateContext fun c => { c with policy := p }
  return previous

/-- Whether steps are logged. -/
def debugging [Term V] : Run V Bool := do having "debug" (← settings).debug?

/-- Logs how many branches a guarded computation gave, if steps are logged. -/
def announce [Term V] (computation : String) (branches : Nat) : Run V Unit := do
  if ← debugging then log (.produced computation branches)

end Run

end SymbolicPaths
