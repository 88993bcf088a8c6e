import SymbolicPaths.Proofs.Closure
import SymbolicPaths.Proofs.Conclusion
/-!
# Failures by registers

A run is told its scope, and says which branches it dropped without knowing who receives them.  So there
is nothing that could be restored wrongly when a scope ends, and nothing to prove about it.  A machine
that treats failures as programs usually do is another matter.  It keeps the current sink and the mode in
two registers.  An operation that needs other ones sets them, and sets them back when it ends, however it
ends; a guard that gives a branch up writes its record, looks the sink up and hands the branch over.

This file builds the operations of that machine that have to do with failures, and shows of each that it
does what the operation of the library does that it stands for (`Wired.Agrees`).  What computations and
routines make of these operations is `SymbolicPaths.Proofs.Routing`.

* `Routed` is the grammar of what the machine notes down: each branch that is dropped has one record and
  one delivery, to the sink of the innermost scope that is open there.  A guard whose record or delivery is
  refused drops no branch.
* `Ending.Agrees` is the invariant.  It says of the registers that they are what they were, up to the
  branches that the current sink has received.
-/

namespace SymbolicPaths

variable {V α β : Type}

/-! ## Registers -/

/-- Where dropped branches go. -/
inductive Sink (V : Type) where
  | receiver (r : Receiver V)
  /-- The box with a given number, which takes every branch. -/
  | box (k : Nat)

namespace Sink

/-- Whether a dropped branch can be received; where there is no sink, nobody objects. -/
def takes : Option (Sink V) → Dropped V → Except (Defect V) Unit
  | some (.receiver r), d => r.takes d
  | _, _ => .ok ()

/-- Events as they are once a sink has received what is pending: a receiver is named, and what is in a
box or is received by nobody is an event no more. -/
def addressed : Option (Sink V) → List (Event V) → List (Event V)
  | some (.receiver r), events => events.map (Event.receivedBy r.label)
  | _, events => events.filter fun e => e.pending?.isNone

@[simp] theorem addressed_nil (k : Option (Sink V)) : addressed k [] = [] := by
  rcases k with _ | _ | _ <;> rfl

theorem addressed_append (k : Option (Sink V)) (front back : List (Event V)) :
    addressed k (front ++ back) = addressed k front ++ addressed k back := by
  rcases k with _ | _ | _
  · exact List.filter_append ..
  · exact List.map_append
  · exact List.filter_append ..

/-- What has been received is pending no longer. -/
@[simp] theorem filterMap_pending?_addressed (k : Option (Sink V)) (events : List (Event V)) :
    (addressed k events).filterMap Event.pending? = [] := by
  have forgotten : (events.filter fun e => e.pending?.isNone).filterMap Event.pending? = [] := by
    simp [List.filterMap_eq_nil_iff]
  rcases k with _ | r | _
  · exact forgotten
  · simp only [addressed, List.filterMap_eq_nil_iff, List.mem_map]
    rintro _ ⟨e, _, rfl⟩
    cases e <;> rfl
  · exact forgotten

/-- Where nothing is pending, there is nothing to receive. -/
theorem addressed_of_settled (k : Option (Sink V)) {events : List (Event V)}
    (h : events.filterMap Event.pending? = []) : addressed k events = events := by
  have settled : ∀ e ∈ events, e.pending? = none := List.filterMap_eq_nil_iff.1 h
  have kept : (events.filter fun e => e.pending?.isNone) = events :=
    List.filter_eq_self.2 fun e he => by rw [settled e he]; rfl
  rcases k with _ | r | _
  · exact kept
  · refine (List.map_congr_left fun e he => ?_).trans (List.map_id events)
    cases e with
    | dropped d => cases settled _ he
    | _ => rfl
  · exact kept

end Sink

/-- What the machine has to set and to set back. -/
structure Registers (V : Type) where
  /-- The current sink, if there is one. -/
  sink : Option (Sink V) := none
  mode : Mode := .guarded
  /-- The branches that collections under way have received so far. -/
  boxes : List (List (Dropped V)) := []

namespace Registers

variable (r : Registers V)

/-- The scope that registers stand for. -/
def scope (kept : Entry V → Except (Defect V) Unit) : Scope V :=
  { mode := r.mode, records := kept, receives := Sink.takes r.sink }

/-- The registers after the current sink has received branches. -/
def receive (ds : List (Dropped V)) : Registers V :=
  match r.sink with
  | some (.box k) => { r with boxes := r.boxes.modify k (· ++ ds) }
  | _ => r

/-- The registers with a new box for a sink. -/
def boxed : Registers V := { r with sink := some (.box r.boxes.length), boxes := r.boxes ++ [[]] }

/-- The registers without what was put up after the boxes of `r`, and with the sink of `r`. -/
def unboxed (after : Registers V) : Registers V :=
  { after with sink := r.sink, boxes := after.boxes.take r.boxes.length }

@[simp] theorem sink_receive (ds : List (Dropped V)) : (r.receive ds).sink = r.sink := by
  rcases r with ⟨_ | _ | _, m, boxes⟩ <;> rfl

@[simp] theorem mode_receive (ds : List (Dropped V)) : (r.receive ds).mode = r.mode := by
  rcases r with ⟨_ | _ | _, m, boxes⟩ <;> rfl

@[simp] theorem receive_nil : r.receive [] = r := by
  rcases r with ⟨_ | _ | k, m, boxes⟩
  · rfl
  · rfl
  · have unchanged : boxes.modify k (· ++ []) = boxes := by
      simp only [List.append_nil]
      exact List.modify_id k boxes
    exact congrArg (Registers.mk _ m) unchanged

@[simp] theorem receive_receive (ds more : List (Dropped V)) :
    (r.receive ds).receive more = r.receive (ds ++ more) := by
  rcases r with ⟨_ | _ | k, m, boxes⟩
  · rfl
  · rfl
  · have joined : (boxes.modify k (· ++ ds)).modify k (· ++ more) = boxes.modify k (· ++ (ds ++ more)) := by
      rw [List.modify_modify_eq]
      exact congrArg (boxes.modify k) (funext fun box => List.append_assoc box ds more)
    exact congrArg (Registers.mk _ m) joined

/-- The new box holds what has been received, -/
theorem boxes_receive_boxed (ds : List (Dropped V)) :
    (r.boxed.receive ds).boxes[r.boxes.length]?.getD [] = ds := by
  show ((r.boxes ++ [[]]).modify r.boxes.length (· ++ ds))[r.boxes.length]?.getD [] = ds
  rw [List.getElem?_modify]
  simp

/-- and the other boxes are as they were. -/
theorem unboxed_receive_boxed (ds : List (Dropped V)) : r.unboxed (r.boxed.receive ds) = r := by
  have before : ((r.boxes ++ [[]]).modify r.boxes.length (· ++ ds)).take r.boxes.length = r.boxes := by
    rw [List.take_modify, List.take_left, List.modify_eq_self (Nat.le_refl _)]
  exact congrArg (Registers.mk r.sink r.mode) before

/-- What the current sink has received changes nothing for what comes next. -/
@[simp] theorem scope_receive (kept : Entry V → Except (Defect V) Unit) (ds : List (Dropped V)) :
    (r.receive ds).scope kept = r.scope kept := by
  rw [scope, scope, sink_receive, mode_receive]

end Registers

/-! ## The machine -/

/-- What the machine notes down. -/
inductive Notice (V : Type) where
  /-- Another sink, or none, was made the current one. -/
  | opened (k : Option (Sink V))
  /-- The sink before was made the current one again. -/
  | closed
  | event (e : Event V)
  /-- A guard caught the failure of a branch. -/
  | caught (d : Dropped V)
  /-- A branch was handed over to the current sink; where there is none, to nobody. -/
  | handed (k : Option (Sink V)) (d : Dropped V)
  /-- The record of a branch, or the branch itself, was refused. -/
  | refused (x : Defect V)
  /-- A branch was given up. -/
  | dropped (d : Dropped V)

/-- What is seen of a notice outside: a branch that was handed over to a receiver is delivered if the
receiver can take it. -/
def Notice.event? : Notice V → Option (Event V)
  | event e => some e
  | handed (some (.receiver r)) d =>
    match r.takes d with
    | .ok () => some (.delivered r.label d)
    | .error _ => none
  | _ => none

/-- How the machine came to an end. -/
structure Ending (V α : Type) where
  answer : Except (Fault V) α
  context : Context V
  registers : Registers V
  notices : List (Notice V)

/-- Something for the machine to carry out, told who keeps log records. -/
def Wired (V α : Type) : Type :=
  (Entry V → Except (Defect V) Unit) → Registers V → Context V → Ending V α

namespace Wired

/-- Answers at once. -/
protected def pure (a : α) : Wired V α := fun _ r c => ⟨.ok a, c, r, []⟩

/-- Carries out `x` and then, if it answered, what `f` makes of the answer. -/
protected def bind (x : Wired V α) (f : α → Wired V β) : Wired V β := fun kept r c =>
  match x kept r c with
  | ⟨.error e, c', r', notices⟩ => ⟨.error e, c', r', notices⟩
  | ⟨.ok a, c', r', notices⟩ =>
    let ending := f a kept r' c'
    { ending with notices := notices ++ ending.notices }

instance : Monad (Wired V) where
  pure := Wired.pure
  bind := Wired.bind

/-- The registers as they are. -/
def registers : Wired V (Registers V) := fun _ r c => ⟨.ok r, c, r, []⟩

/-- Makes another sink the current one. -/
def setSink (k : Option (Sink V)) : Wired V Unit := fun _ r c => ⟨.ok (), c, { r with sink := k }, []⟩

/-- Sets the mode. -/
def setMode (m : Mode) : Wired V Unit := fun _ r c => ⟨.ok (), c, { r with mode := m }, []⟩

/-- Notes something down. -/
def note (n : Notice V) : Wired V Unit := fun _ r c => ⟨.ok (), c, r, [n]⟩

/-- Carries out `last` after `x`, however `x` ended. -/
def ensuring (x : Wired V α) (last : Wired V Unit) : Wired V α := fun kept r c =>
  let ending := x kept r c
  let done := last kept ending.registers ending.context
  ⟨done.answer >>= fun _ => ending.answer, done.context, done.registers, ending.notices ++ done.notices⟩

/-- Carries out a part with another sink: it is set, and set back. -/
def withSink (k : Option (Sink V)) (x : Wired V α) : Wired V α := do
  let before := (← registers).sink
  setSink k
  note (.opened k)
  ensuring x do
    setSink before
    note .closed

/-- Carries out a part in another mode: it is set, and set back. -/
def withMode (m : Mode) (x : Wired V α) : Wired V α := do
  let before := (← registers).mode
  setMode m
  ensuring x (setMode before)

/-- Carries out a part that has nothing to do with failures. -/
def host (x : Run V α) : Wired V α := fun kept r c =>
  let o := x (r.scope kept) c
  ⟨o.answer, o.context, r, o.events.map .event⟩

/-- Puts a branch into the box with a given number. -/
def putInto (k : Nat) (d : Dropped V) : Wired V Unit := fun _ r c =>
  ⟨.ok (), c, { r with boxes := r.boxes.modify k (· ++ [d]) }, []⟩

/-- What a sink does with a branch. -/
def offer (d : Dropped V) : Option (Sink V) → Wired V Unit
  | none => pure ()
  | some (.box k) => putInto k d
  | some (.receiver rc) => fun _ r c => ⟨(rc.takes d).mapError .defect, c, r, []⟩

/-- Looks the current sink up and hands a branch over to it. -/
def handOver (d : Dropped V) : Wired V Unit := do
  let k := (← registers).sink
  note (.handed k d)
  offer d k

/-- Notes down when a part is refused. -/
def noting (x : Wired V Unit) : Wired V Unit := fun kept r c =>
  let ending := x kept r c
  match ending.answer with
  | .error (.defect x) => { ending with notices := ending.notices ++ [.refused x] }
  | _ => ending

/-- Gives up a branch whose failure was caught: one log record, and the branch is handed over. -/
def drop (computation : String) (d : Dropped V) : Wired V Unit := do
  note (.caught d)
  noting (host (Run.log (.dropping computation d.error)))
  noting (handOver d)
  note (.dropped d)

/-- Carries out a part and reads its answer as another. -/
def reading (g : Except (Fault V) α → Except (Fault V) β) (x : Wired V α) : Wired V β := fun kept r c =>
  let ending := x kept r c
  { ending with answer := g ending.answer }

/-- Carries out a part and answers with the failure that ended it, if one did. -/
def confine (x : Wired V α) : Wired V (Except (Failure V) α) := reading Run.confined x

/-- Carries out a part and answers with the fault that ended it, if one did. -/
def attempt (x : Wired V α) : Wired V (Except (Fault V) α) := reading Run.attempted x

/-- What a guard does with a part that answered or failed. -/
def rescue (computation : String) (state : Subject V) : Except (Failure V) α → Wired V (Option α)
  | .ok a => pure (some a)
  | .error f => do
    drop computation ⟨state, f⟩
    return none

/-- Carries out a part under a guard, which looks the mode up. -/
def guarding (computation : String) (state : Subject V) (x : Wired V α) : Wired V (Option α) := do
  match (← registers).mode with
  | .raw => return some (← x)
  | .guarded => rescue computation state (← confine x)

/-- Carries out a part with a new box for a sink.  The box is given away with the answer, and if there
is none it is thrown away. -/
def collect (x : Wired V α) : Wired V (α × List (Dropped V)) := fun kept r c =>
  let k := r.boxes.length
  let ending := withSink (some (.box k)) x kept { r with boxes := r.boxes ++ [[]] } c
  { answer := ending.answer.map fun a => (a, ending.registers.boxes[k]?.getD [])
    context := ending.context
    registers := { ending.registers with boxes := ending.registers.boxes.take k }
    notices := ending.notices }

section Equations

variable {kept : Entry V → Except (Defect V) Unit} {r : Registers V} {c : Context V}

theorem bind_apply_of_ok {x : Wired V α} {a : α} (h : (x kept r c).answer = .ok a)
    (f : α → Wired V β) :
    (x >>= f) kept r c
      = ⟨(f a kept (x kept r c).registers (x kept r c).context).answer,
        (f a kept (x kept r c).registers (x kept r c).context).context,
        (f a kept (x kept r c).registers (x kept r c).context).registers,
        (x kept r c).notices ++ (f a kept (x kept r c).registers (x kept r c).context).notices⟩ := by
  have hx : x kept r c = ⟨.ok a, (x kept r c).context, (x kept r c).registers, (x kept r c).notices⟩ := by
    rw [← h]
  show Wired.bind x f kept r c = _
  rw [Wired.bind, hx]

theorem bind_apply_of_error {x : Wired V α} {e : Fault V} (h : (x kept r c).answer = .error e)
    (f : α → Wired V β) :
    (x >>= f) kept r c
      = ⟨.error e, (x kept r c).context, (x kept r c).registers, (x kept r c).notices⟩ := by
  have hx : x kept r c = ⟨.error e, (x kept r c).context, (x kept r c).registers, (x kept r c).notices⟩ := by
    rw [← h]
  show Wired.bind x f kept r c = _
  rw [Wired.bind, hx]

variable (kept r c)

theorem note_bind_apply (n : Notice V) (f : Unit → Wired V α) :
    (note n >>= f) kept r c = { f () kept r c with notices := n :: (f () kept r c).notices } := rfl

theorem withSink_apply (k : Option (Sink V)) (x : Wired V α) :
    withSink k x kept r c
      = ⟨(x kept { r with sink := k } c).answer, (x kept { r with sink := k } c).context,
        { (x kept { r with sink := k } c).registers with sink := r.sink },
        .opened k :: ((x kept { r with sink := k } c).notices ++ [.closed])⟩ := rfl

theorem withMode_apply (m : Mode) (x : Wired V α) :
    withMode m x kept r c
      = ⟨(x kept { r with mode := m } c).answer, (x kept { r with mode := m } c).context,
        { (x kept { r with mode := m } c).registers with mode := r.mode },
        (x kept { r with mode := m } c).notices⟩ := by
  show (⟨_, _, _, [] ++ ([] ++ ((x kept { r with mode := m } c).notices ++ []))⟩ : Ending V α) = _
  simp only [List.nil_append, List.append_nil]
  rfl

theorem collect_apply (x : Wired V α) :
    collect x kept r c
      = ⟨(x kept r.boxed c).answer.map fun a =>
          (a, (x kept r.boxed c).registers.boxes[r.boxes.length]?.getD []),
        (x kept r.boxed c).context, r.unboxed (x kept r.boxed c).registers,
        .opened r.boxed.sink :: ((x kept r.boxed c).notices ++ [.closed])⟩ := rfl

/-- A branch is handed over to the current sink, and to nobody else. -/
theorem handOver_apply (d : Dropped V) :
    handOver d kept r c
      = ⟨(Sink.takes r.sink d).mapError .defect, c, r.receive [d], [.handed r.sink d]⟩ := by
  rcases r with ⟨_ | _ | _, m, boxes⟩ <;> rfl

theorem guarding_apply_of_raw (n : String) (s : Subject V) (x : Wired V α) (hm : r.mode = .raw) :
    guarding n s x kept r c = (x >>= fun a => pure (some a)) kept r c := by
  cases r
  cases hm
  rfl

theorem guarding_apply_of_guarded (n : String) (s : Subject V) (x : Wired V α)
    (hm : r.mode = .guarded) :
    guarding n s x kept r c = (confine x >>= rescue n s) kept r c := by
  cases r
  cases hm
  rfl

end Equations

end Wired

/-! ## Parts that leave failures alone -/

/-- Whether an event has nothing to do with a branch that was given up. -/
def Event.isPlain : Event V → Bool
  | entry e => !e.isDropping
  | noted _ => true
  | _ => false

/-- A run that leaves failures alone: it looks neither at the mode nor at who receives dropped branches,
gives no branch up, and says of none that it was given up. -/
structure Run.Apart (x : Run V α) : Prop where
  same : ∀ {σ τ : Scope V}, σ.records = τ.records → ∀ c, x σ c = x τ c
  plain : ∀ σ c, ∀ e ∈ (x σ c).events, e.isPlain

namespace Run

namespace Apart

protected theorem pure (a : α) : (pure a : Run V α).Apart :=
  ⟨fun _ _ => rfl, fun _ _ _ he => absurd he (by simp)⟩

protected theorem stop (e : Fault V) : (stop e : Run V α).Apart :=
  ⟨fun _ _ => rfl, fun _ _ _ he => absurd he (by simp)⟩

/-- A log record that does not say of a branch that it was given up. -/
theorem remark {e : Entry V} (h : e.isDropping = false) : (log e).Apart := by
  refine ⟨fun {σ τ} hστ c => ?_, fun σ c e' he' => ?_⟩
  · rw [log, emitIf, emitIf, hστ]
  · cases ht : σ.records e with
    | ok u =>
      rw [log_apply_of_ok c ht, List.mem_singleton] at he'
      rw [he', Event.isPlain, h]
      rfl
    | error x =>
      rw [log_apply_of_error c ht] at he'
      cases he'

protected theorem bind {x : Run V α} {f : α → Run V β} (h : x.Apart)
    (hf : ∀ a, x.Answers a → (f a).Apart) : (x >>= f).Apart := by
  refine ⟨fun {σ τ} hστ c => ?_, fun σ c e he => ?_⟩
  · have first := h.same hστ c
    cases hx : (x τ c).answer with
    | ok a =>
      rw [bind_apply_of_answer_ok (first ▸ hx), bind_apply_of_answer_ok hx, first,
        (hf a (answers_of_answer hx)).same hστ]
    | error e =>
      rw [bind_apply_of_answer_error (first ▸ hx), bind_apply_of_answer_error hx, first]
  · cases hx : (x σ c).answer with
    | ok a =>
      rw [bind_apply_of_answer_ok hx, List.mem_append] at he
      exact he.elim (h.plain σ c e) ((hf a (answers_of_answer hx)).plain σ _ e)
    | error d =>
      rw [bind_apply_of_answer_error hx] at he
      exact h.plain σ c e he

theorem household : Household (V := V) Apart where
  pure := .pure
  bind := .bind
  stop _ := .stop _
  remark := .remark

theorem settings : (settings : Run V (Installed V)).Apart :=
  ⟨fun {σ τ} _ c => by rw [settings_apply σ, settings_apply τ],
    fun σ c e he => by rw [settings_apply] at he; cases he⟩

theorem announce [Term V] (n : String) (k : Nat) : (announce n k : Run V Unit).Apart := by
  refine household.bind (household.debugging settings) fun on _ => ?_
  cases on with
  | true => exact .remark rfl
  | false => exact .pure ()

end Apart

end Run

/-! ## The grammar of notices -/

/-- What is noted down while `k` is the current sink.  Whatever is dropped has its record, and is handed
over once, to `k`; if the record or the branch is refused, it is not dropped.  In between there may be
scopes with sinks of their own, which are closed before anything else is handed over to `k`. -/
inductive Routed (kept : Entry V → Except (Defect V) Unit) :
    Option (Sink V) → List (Notice V) → Prop where
  | nil {k : Option (Sink V)} : Routed kept k []
  | event {k : Option (Sink V)} {e : Event V} {rest : List (Notice V)} (h : e.isPlain)
      (hr : Routed kept k rest) : Routed kept k (.event e :: rest)
  | dropped {k : Option (Sink V)} {d : Dropped V} {rest : List (Notice V)} (computation : String)
      (h : Sink.takes k d = .ok ()) (hr : Routed kept k rest) :
      Routed kept k (.caught d :: .event (.entry (.dropping computation d.error)) :: .handed k d ::
        .dropped d :: rest)
  | unrecorded {k : Option (Sink V)} {d : Dropped V} {rest : List (Notice V)} {computation : String}
      {x : Defect V} (h : kept (.dropping computation d.error) = .error x) (hr : Routed kept k rest) :
      Routed kept k (.caught d :: .refused x :: rest)
  | undelivered {k : Option (Sink V)} {d : Dropped V} {rest : List (Notice V)} (computation : String)
      {x : Defect V} (h : Sink.takes k d = .error x) (hr : Routed kept k rest) :
      Routed kept k (.caught d :: .event (.entry (.dropping computation d.error)) :: .handed k d ::
        .refused x :: rest)
  | scope {k j : Option (Sink V)} {inside rest : List (Notice V)} (hi : Routed kept j inside)
      (hr : Routed kept k rest) : Routed kept k (.opened j :: (inside ++ .closed :: rest))

namespace Routed

variable {kept : Entry V → Except (Defect V) Unit} {k : Option (Sink V)}

theorem append {front back : List (Notice V)} (hf : Routed kept k front) (hb : Routed kept k back) :
    Routed kept k (front ++ back) := by
  induction hf with
  | nil => exact hb
  | event h _ ih => exact .event h (ih hb)
  | dropped computation h _ ih => exact .dropped computation h (ih hb)
  | unrecorded h _ ih => exact .unrecorded h (ih hb)
  | undelivered computation h _ ih => exact .undelivered computation h (ih hb)
  | scope hi _ _ ih =>
    rw [List.cons_append, List.append_assoc]
    exact .scope hi (ih hb)

/-- A scope of its own. -/
theorem bracket {j : Option (Sink V)} {inside : List (Notice V)} (h : Routed kept j inside) :
    Routed kept k (.opened j :: (inside ++ [.closed])) := .scope h .nil

end Routed

/-! ## The invariant -/

/-- How the machine that starts with registers `r` ends where the library has the outcome `o`. -/
structure Ending.Agrees (kept : Entry V → Except (Defect V) Unit) (r : Registers V) (w : Ending V α)
    (o : Outcome V α) : Prop where
  answer : w.answer = o.answer
  context : w.context = o.context
  registers : w.registers = r.receive o.dropped
  events : w.notices.filterMap Notice.event? = Sink.addressed r.sink o.events
  routed : Routed kept r.sink w.notices

/-- What the machine does agrees with a run of the library, whatever the registers. -/
def Wired.Agrees (x : Wired V α) (y : Run V α) : Prop :=
  ∀ (kept : Entry V → Except (Defect V) Unit) (r : Registers V) (c : Context V),
    (x kept r c).Agrees kept r (y (r.scope kept) c)

theorem Notice.filterMap_event?_bracket (k : Option (Sink V)) (inside : List (Notice V)) :
    (.opened k :: (inside ++ [.closed])).filterMap Notice.event? = inside.filterMap Notice.event? := by
  rw [List.filterMap_cons_none rfl, List.filterMap_append]
  exact List.append_nil _

namespace Ending.Agrees

variable {kept : Entry V → Except (Defect V) Unit} {r : Registers V} {c : Context V}

/-- Sequences agree if their first parts do and whatever follows does. -/
theorem bind {x : Wired V α} {y : Run V α} {f : α → Wired V β} {g : α → Run V β}
    (h : (x kept r c).Agrees kept r (y (r.scope kept) c)) (hf : ∀ a, y.Answers a → (f a).Agrees (g a)) :
    ((x >>= f) kept r c).Agrees kept r ((y >>= g) (r.scope kept) c) := by
  cases hy : (y (r.scope kept) c).answer with
  | error e =>
    rw [Wired.bind_apply_of_error (h.answer.trans hy), Run.bind_apply_of_answer_error hy]
    exact ⟨rfl, h.context, h.registers, h.events, h.routed⟩
  | ok a =>
    -- the second part starts with the registers that the first part left, in the same scope
    have next := hf a (Run.answers_of_answer hy) kept (x kept r c).registers (x kept r c).context
    rw [h.registers, Registers.scope_receive, h.context] at next
    rw [Wired.bind_apply_of_ok (h.answer.trans hy), Run.bind_apply_of_answer_ok hy, h.registers,
      h.context]
    refine ⟨next.answer, next.context, ?_, ?_, ?_⟩
    · refine next.registers.trans ?_
      rw [Registers.receive_receive]
      exact congrArg r.receive (List.filterMap_append ..).symm
    · have after := next.events
      rw [Registers.sink_receive] at after
      rw [List.filterMap_append, Sink.addressed_append]
      exact congrArg₂ (· ++ ·) h.events after
    · have after := next.routed
      rw [Registers.sink_receive] at after
      exact h.routed.append after

end Ending.Agrees

namespace Wired

variable {x : Wired V α} {y : Run V α}

theorem Agrees.bind {f : α → Wired V β} {g : α → Run V β} (h : x.Agrees y)
    (hf : ∀ a, y.Answers a → (f a).Agrees (g a)) : (x >>= f).Agrees (y >>= g) := fun kept r c => (h kept r c).bind hf

/-- A part that only has an answer. -/
theorem agrees_pure (a : α) : (pure a : Wired V α).Agrees (pure a) := fun _ r _ =>
  ⟨rfl, rfl, r.receive_nil.symm, (Sink.addressed_nil _).symm, .nil⟩

/-- To read an answer as another changes nothing else. -/
theorem Agrees.reading (h : x.Agrees y) (g : Except (Fault V) α → Except (Fault V) β) :
    (x.reading g).Agrees (Run.reading g y) := fun kept r c =>
  have same := h kept r c
  ⟨congrArg g same.answer, same.context, same.registers, same.events, same.routed⟩

theorem Agrees.attempt (h : x.Agrees y) : x.attempt.Agrees (Run.attempt y) := by
  intro kept r c
  rw [Run.attempt_apply]
  exact h.reading Run.attempted kept r c

theorem Agrees.confine (h : x.Agrees y) : x.confine.Agrees (Run.confine y) := by
  intro kept r c
  rw [Run.confine_apply]
  exact h.reading Run.confined kept r c

/-! ### Guards -/

section Drop

variable {n : String} {d : Dropped V} {kept : Entry V → Except (Defect V) Unit} (r : Registers V)
  (c : Context V)

/-- What is written down of a branch before it is handed over. -/
theorem record_apply_of_kept (h : kept (.dropping n d.error) = .ok ()) :
    noting (host (Run.log (.dropping n d.error))) kept r c
      = ⟨.ok (), c, r, [.event (.entry (.dropping n d.error))]⟩ := by
  rw [noting, host, Run.log_apply_of_ok (σ := r.scope kept) c h]
  rfl

/-- A failure that was caught has its record, and is handed over and dropped. -/
theorem drop_apply_of_taken (h : kept (.dropping n d.error) = .ok ()) (ht : Sink.takes r.sink d = .ok ()) :
    drop n d kept r c = ⟨.ok (), c, r.receive [d],
      [.caught d, .event (.entry (.dropping n d.error)), .handed r.sink d, .dropped d]⟩ := by
  have written := record_apply_of_kept r c h
  have handed : noting (handOver d) kept r c = ⟨.ok (), c, r.receive [d], [.handed r.sink d]⟩ := by
    rw [noting, handOver_apply, ht]
    rfl
  rw [drop, note_bind_apply, bind_apply_of_ok (congrArg Ending.answer written), written,
    bind_apply_of_ok (congrArg Ending.answer handed), handed]
  rfl

/-- Where the sink refuses it, it is not dropped. -/
theorem drop_apply_of_refused {x : Defect V} (h : kept (.dropping n d.error) = .ok ())
    (ht : Sink.takes r.sink d = .error x) :
    drop n d kept r c = ⟨.error (.defect x), c, r.receive [d],
      [.caught d, .event (.entry (.dropping n d.error)), .handed r.sink d, .refused x]⟩ := by
  have written := record_apply_of_kept r c h
  have handed : noting (handOver d) kept r c
      = ⟨.error (.defect x), c, r.receive [d], [.handed r.sink d, .refused x]⟩ := by
    rw [noting, handOver_apply, ht]
    rfl
  rw [drop, note_bind_apply, bind_apply_of_ok (congrArg Ending.answer written), written,
    bind_apply_of_error (congrArg Ending.answer handed), handed]
  rfl

/-- Where its record is refused, it is not handed over. -/
theorem drop_apply_of_unrecorded {x : Defect V} (h : kept (.dropping n d.error) = .error x) :
    drop n d kept r c = ⟨.error (.defect x), c, r, [.caught d, .refused x]⟩ := by
  have written : noting (host (Run.log (.dropping n d.error))) kept r c
      = ⟨.error (.defect x), c, r, [.refused x]⟩ := by
    rw [noting, host, Run.log_apply_of_error (σ := r.scope kept) c h]
    rfl
  rw [drop, note_bind_apply, bind_apply_of_error (congrArg Ending.answer written), written]

end Drop

/-- **A branch that is given up is handed over as it is reported.** -/
theorem agrees_drop (n : String) (s : Subject V) (f : Failure V) :
    (drop n ⟨s, f⟩).Agrees (Run.report n s f) := by
  intro kept r c
  cases hk : kept (.dropping n f) with
  | error x =>
    rw [drop_apply_of_unrecorded r c hk, Run.report, Run.bind_apply_of_error
      (Run.log_apply_of_error (σ := r.scope kept) c hk)]
    exact ⟨rfl, rfl, r.receive_nil.symm, (Sink.addressed_nil _).symm, .unrecorded hk .nil⟩
  | ok u =>
    rw [Run.report, Run.bind_apply_of_ok (Run.log_apply_of_ok (σ := r.scope kept) c hk)]
    cases ht : Sink.takes r.sink ⟨s, f⟩ with
    | ok u =>
      rw [drop_apply_of_taken r c hk ht, Run.emitIf_apply_of_ok (σ := r.scope kept) c ht]
      refine ⟨rfl, rfl, rfl, ?_, .dropped n ht .nil⟩
      rcases r with ⟨_ | rc | k, m, boxes⟩
      · rfl
      · have taken : rc.takes ⟨s, f⟩ = .ok () := ht
        simp [List.filterMap, Notice.event?, taken, Sink.addressed, Event.receivedBy]
      · rfl
    | error x =>
      rw [drop_apply_of_refused r c hk ht, Run.emitIf_apply_of_error (σ := r.scope kept) c ht]
      rcases r with ⟨_ | rc | k, m, boxes⟩
      · cases ht
      · have refused : rc.takes ⟨s, f⟩ = .error x := ht
        refine ⟨rfl, rfl, rfl, ?_, .undelivered n ht .nil⟩
        simp [List.filterMap, Notice.event?, refused, Sink.addressed, Event.receivedBy]
      · cases ht

theorem Agrees.guarding (h : x.Agrees y) (n : String) (s : Subject V) :
    (x.guarding n s).Agrees (Run.guarding n s y) := by
  intro kept r c
  cases hm : r.mode with
  | raw =>
    rw [guarding_apply_of_raw kept r c n s x hm, Run.guarding_apply_of_raw n s y hm]
    exact (h kept r c).bind fun a _ => agrees_pure (some a)
  | guarded =>
    rw [guarding_apply_of_guarded kept r c n s x hm, Run.guarding_apply_of_guarded n s y hm]
    refine (h.confine kept r c).bind fun answer _ => ?_
    cases answer with
    | ok a => exact agrees_pure (some a)
    | error f => exact (agrees_drop n s f).bind fun _ _ => agrees_pure none

/-! ### Scopes -/

/-- The mode is what it was, and dropped branches have gone where they would have gone without. -/
theorem Agrees.withMode (h : x.Agrees y) (m : Mode) : (x.withMode m).Agrees (Run.inMode m y) := by
  intro kept r c
  have inside := h kept { r with mode := m } c
  rw [withMode_apply]
  refine ⟨inside.answer, inside.context, ?_, inside.events, inside.routed⟩
  rw [inside.registers]
  rcases r with ⟨_ | _ | _, k, boxes⟩ <;> rfl

/-- A part that has its own sink is seen as what that sink made of its events. -/
theorem Agrees.withSink (h : x.Agrees y) {k : Option (Sink V)} (kept : Entry V → Except (Defect V) Unit)
    (r : Registers V) (c : Context V) (hk : ∀ ds, ({ r with sink := k } : Registers V).receive ds
      = { r with sink := k }) :
    (x.withSink k kept r c).Agrees kept r
      { y (({ r with sink := k } : Registers V).scope kept) c with
        events := Sink.addressed k (y (({ r with sink := k } : Registers V).scope kept) c).events } := by
  have inside := h kept { r with sink := k } c
  rw [withSink_apply]
  refine ⟨inside.answer, inside.context, ?_, ?_, inside.routed.bracket⟩
  · rw [inside.registers, hk, Outcome.dropped, Sink.filterMap_pending?_addressed, Registers.receive_nil]
  · rw [Notice.filterMap_event?_bracket, inside.events,
      Sink.addressed_of_settled _ (Sink.filterMap_pending?_addressed ..)]

theorem Agrees.deliverTo (h : x.Agrees y) (rc : Receiver V) :
    (x.withSink (some (.receiver rc))).Agrees (Run.deliverTo rc y) := fun kept r c =>
  h.withSink kept r c fun _ => rfl

theorem Agrees.delimit (h : x.Agrees y) (rc : Option (Receiver V)) :
    ((x.withMode .guarded).withSink (rc.map .receiver)).Agrees (Run.delimit rc y) := fun kept r c => by
  cases rc with
  | none => exact (h.withMode .guarded).withSink kept r c fun _ => rfl
  | some rc => exact (h.withMode .guarded).withSink kept r c fun _ => rfl

/-- What was collected is given away with the answer, and the other boxes are as they were. -/
theorem Agrees.collect (h : x.Agrees y) : x.collect.Agrees (Run.collect y) := by
  intro kept r c
  have inside := h kept r.boxed c
  have settled : (Run.collect y (r.scope kept) c).dropped = [] := Run.pending_collect ..
  rw [collect_apply]
  refine ⟨?_, inside.context, ?_, ?_, inside.routed.bracket⟩
  · rw [inside.answer, inside.registers, Registers.boxes_receive_boxed]
    rfl
  · rw [settled, Registers.receive_nil, inside.registers, Registers.unboxed_receive_boxed]
  · rw [Notice.filterMap_event?_bracket, inside.events]
    exact (Sink.addressed_of_settled _ settled).symm

end Wired

end SymbolicPaths
