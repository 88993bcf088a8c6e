import SymbolicPaths.Arrow
import SymbolicPaths.Script.Datum.Term
import SymbolicPaths.Proofs.Closure
/-!
# Computations and the two modes

`Comp.Assembled` lists the ways in which a program gets computations from the library: primitives, and
combinators with functions of the host.  A host function may do anything that is put together of plain
runs and applied computations (`Run.Composed`): it may note things and change objects, end in any
fault, and carry computations out, but it does not ask for the mode, catches nothing and drops nothing
itself.  A routine moreover lets go of its bodies without a fault when a path has failed.

Every assembled computation is put together as `SymbolicPaths.Proofs.RawMode` asks
(`Comp.Assembled.composed`, one case for each way), and so its two modes agree
(`Comp.Assembled.runRaw_of_apply`).
-/

namespace SymbolicPaths

variable {V α β σ ι : Type} [Term V]

theorem Run.Composed.family : Run.Family (V := V) Run.Composed where
  pure a := .plain (.pure a)
  bind := .bind
  stop e := .plain (.stop e)
  log e := .plain (.log e)

theorem Run.Composed.closure : Run.Closure (V := V) Run.Composed where
  toHousehold := Run.Composed.family.household
  guarding := .guarding
  apply h := .apply h
  unlessOver h := h.reading fun _ => rfl
  asBody h := h.reading fun _ => rfl

/-- A routine whose parts are put together by what the library does, and which lets go of a body that
waits without a fault. -/
structure Routine.Composed (r : Routine V σ α) : Prop where
  prepare : r.prepare.Composed
  start : ∀ ready, (r.start ready).Composed
  resume : ∀ paused v, (r.resume paused v).Composed
  release : ∀ paused, (r.release paused).Plain
  releases : ∀ paused c, (r.release paused (.of .raw) c).answer = .ok ()

namespace Comp

/-- The computations that programs get from the library. -/
inductive Assembled : {α : Type} → Comp V α → Prop where
  | pure {α : Type} (a : α) : Assembled (pure a)
  | zero : Assembled zero
  | stop {α : Type} (e : Fault V) : Assembled (stop e : Comp V α)
  | choose : Assembled choose
  | readVar (name : V) : Assembled (readVar name)
  | storeVar (name value : V) : Assembled (storeVar name value)
  | getStore : Assembled getStore
  | putStore {store : Run V (Store V)} (h : store.Composed) : Assembled (putStore store)
  | getHeap : Assembled getHeap
  | putHeap (heap : List (Member V)) : Assembled (putHeap heap)
  | addChunk (c : Member V) : Assembled (addChunk c)
  | writeHeap (l v : V) : Assembled (heapWrite l v)
  | compress {unifier : Run V (Unifier V)} (h : unifier.Composed)
      (hu : ∀ u, unifier.Answers u → ∀ vs, (u vs).Composed) : Assembled (compress unifier)
  | readHeap {unifier : Run V (Unifier V)} (h : unifier.Composed)
      (hu : ∀ u, unifier.Answers u → ∀ vs, (u vs).Composed) (l : V) (attempt : Amount V) :
      Assembled (heapRead unifier l attempt)
  | probe {α β : Type} {left : Comp V α} {right : Comp V β} (hl : Assembled left)
      (hr : Assembled right) : Assembled (probe left right)
  | bind {α β : Type} {c : Comp V α} {f : α → Run V (Comp V β)} (h : Assembled c)
      (hf : ∀ a, (f a).Composed) (hd : ∀ a d, (f a).Answers d → Assembled d) : Assembled (c.bind f)
  | map {α β : Type} {f : α → Run V β} {c : Comp V α} (hf : ∀ a, (f a).Composed)
      (h : Assembled c) : Assembled (map f c)
  | relabel {α β : Type} (f : α → β) {c : Comp V α} (h : Assembled c) : Assembled (c.relabel f)
  | defer {α : Type} (name : String) {thunk : Run V (Comp V α)} (h : thunk.Composed)
      (hd : ∀ d, thunk.Answers d → Assembled d) : Assembled (defer name thunk)
  | sequence {α : Type} {steps : List (Comp V α)} (h : ∀ c ∈ steps, Assembled c) :
      Assembled (sequence steps)
  | traverse {ι α : Type} (items : List ι) {f : ι → Run V (Comp V α)} (hf : ∀ i, (f i).Composed)
      (hd : ∀ i d, (f i).Answers d → Assembled d) : Assembled (traverse items f)
  | forEach {ι α : Type} (items : List ι) {body : ι → Run V (Comp V α)} (hf : ∀ i, (body i).Composed)
      (hd : ∀ i d, (body i).Answers d → Assembled d) : Assembled (forEach items body)
  | routine {σ α : Type} {r : Routine V σ α} (name : String) (fuel : Nat) (h : r.Composed)
      (hw : ∀ wanted, r.Wants wanted → wanted.Composed)
      (hd : ∀ wanted, r.Wants wanted → ∀ d, wanted.Answers d → Assembled d) :
      Assembled (r.comp name fuel)

/-- A computation whose bodies are put together by what the library does. -/
def Composed (c : Comp V α) : Prop := ∀ s, (c.body s).Composed

/-! ## Assembled computations -/

/-- **Whatever programs get from the library is put together as the library does it.** -/
theorem Assembled.composed {c : Comp V α} (h : c.Assembled) : c.Composed := by
  have closed := Run.Composed.closure (V := V)
  induction h with
  | pure a => exact fun _ => closed.pure _
  | zero => exact fun _ => closed.pure _
  | stop e => exact fun _ => .plain (.stop e)
  | choose => exact fun _ => closed.pure _
  | readVar name => exact closed.readVar name
  | storeVar name value => exact closed.storeVar name value
  | getStore => exact closed.getStore
  | putStore h => exact closed.putStore h
  | getHeap => exact closed.getHeap
  | putHeap heap => exact closed.putHeap heap
  | addChunk c => exact closed.addChunk c
  | writeHeap l v => exact closed.writeHeap l v
  | compress h hu => exact closed.compress h hu
  | readHeap h hu l attempt => exact closed.heapReadWithin h hu l _ attempt
  | probe _ _ ihl ihr =>
    exact fun s => (Run.Composed.aside (closed.bind (closed.apply (ihl s)) fun _ _ =>
      closed.bind (closed.apply (ihr s)) fun _ _ => closed.pure _)).bind fun _ _ => closed.pure _
  | bind _ hf _ ih ihd => exact closed.bindComp ih hf ihd
  | map hf _ ih => exact closed.map hf ih
  | relabel f _ ih => exact fun s => closed.bind (ih s) fun _ _ => closed.pure _
  | defer name h _ ih => exact closed.defer name h ih
  | sequence _ ih => exact closed.sequence ih
  | traverse items hf _ ih => exact closed.traverse items hf ih
  | forEach items hf _ ih => exact closed.forEach items hf ih
  | routine name fuel h hw _ ih =>
    exact fun _ => closed.exhaust (fun ready => closed.asBody (h.start ready))
      (fun paused v => closed.asBody (h.resume paused v)) hw ih
      (fun paused _ _ keep hx => .afterUnless hx (h.release paused).asBody
        (fun _ _ _ => by rw [Run.asBody, Run.reading, h.releases]; rfl) keep)
      h.prepare name fuel fuel _

/-! ## The two modes of a computation -/

/-- The two modes of an assembled computation, applied. -/
theorem Assembled.mirrored {m : Comp V α} (hm : m.Assembled) (s : Subject V) {c : Context V}
    (hc : c.Loadable) :
    Outcome.Mirrored (m.apply s (.of .guarded) c) (m.runRaw s (.of .guarded) c) := by
  rw [runRaw_apply]
  exact (Run.Composed.apply (hm.composed s)).mirrored hc rfl

/-- **The raw mode tells the truth about the guarded one.**  Let `m` be any computation that a program
gets from the library, applied to any subject where there are settings to read, by somebody who
receives every dropped branch.

* If nothing is dropped, then run raw it gives the same branches, in the same order, or ends in the
  same defect.
* If branches are dropped, whether or not the application gives an answer, then run raw it ends in the
  failure of the first of them.
* A guarded application never ends in a failure; and of two computations run on the side nothing is
  dropped, and no failure ends them run raw. -/
theorem Assembled.runRaw_of_apply {m : Comp V α} (hm : m.Assembled) (s : Subject V) {c : Context V}
    (hc : c.Loadable) :
    (∀ branches, (m.apply s (.of .guarded) c).answer = .ok branches →
      (m.apply s (.of .guarded) c).dropped = [] →
      (m.runRaw s (.of .guarded) c).answer = .ok branches) ∧
    (∀ e, (m.apply s (.of .guarded) c).answer = .error e →
      (m.apply s (.of .guarded) c).dropped = [] →
      (m.runRaw s (.of .guarded) c).answer = .error e) ∧
    (∀ first rest, (m.apply s (.of .guarded) c).dropped = first :: rest →
      (m.runRaw s (.of .guarded) c).answer = .error (.failure first.error)) ∧
    (∀ f, (m.apply s (.of .guarded) c).answer ≠ .error (.failure f)) ∧
    ∀ {β γ : Type} (left : Comp V β) (right : Comp V γ), left.Assembled → right.Assembled →
      ((Comp.probe left right).apply s (.of .guarded) c).dropped = [] ∧
      ∀ f, ((Comp.probe left right).runRaw s (.of .guarded) c).answer ≠ .error (.failure f) := by
  have inStep : (m.apply s (.of .guarded) c).dropped = [] →
      (m.runRaw s (.of .guarded) c).answer = (m.apply s (.of .guarded) c).answer := by
    intro clean
    cases hm.mirrored s hc with
    | inStep _ answer _ _ => exact answer
    | ended first rest dropped _ =>
      rw [clean] at dropped
      cases dropped
  refine ⟨fun branches ha clean => (inStep clean).trans ha, fun e ha clean => (inStep clean).trans ha,
    fun first rest hd => ?_, fun f => m.contained_apply s rfl c f, fun left right hl hr => ?_⟩
  · cases hm.mirrored s hc with
    | inStep dropped _ _ _ =>
      rw [hd] at dropped
      cases dropped
    | ended first' rest' dropped answer =>
      rw [hd] at dropped
      obtain ⟨rfl, rfl⟩ := List.cons.inj dropped
      exact answer
  · have unfailing := probe_body_unfailing left right s (.of .raw) c
    refine ⟨?_, unfailing⟩
    cases (hl.probe hr).mirrored s hc with
    | inStep dropped _ _ _ => exact dropped
    | ended first rest _ answer => exact absurd answer (unfailing first.error)

section Instances

open Script

/-- A fork on one side of which a variable is read. -/
def forkAndRead : Comp (Datum Empty) (Datum Empty) :=
  choose.bind fun
    | true => Pure.pure (Comp.pure (.int 1))
    | false => Pure.pure (Comp.readVar (.text "x"))

theorem assembled_forkAndRead : forkAndRead.Assembled := by
  refine .bind .choose (fun b => ?_) fun b d hd => ?_
  · cases b <;> exact Run.Composed.family.pure _
  · obtain ⟨τ, c, hd⟩ := hd
    cases b with
    | true =>
      obtain rfl : Comp.pure (.int 1) = d := Except.ok.inj hd
      exact .pure _
    | false =>
      obtain rfl : Comp.readVar (.text "x") = d := Except.ok.inj hd
      exact .readVar _

/-- The side that reads a variable without a binding is dropped, and run raw it ends the run. -/
theorem runRaw_of_apply_forkAndRead :
    forkAndRead.Assembled ∧ ({} : Context (Datum Empty)).Loadable ∧
      (forkAndRead.apply (.state .empty) (.of .guarded) {}).answer = .ok [⟨.state .empty, .int 1⟩] ∧
      (forkAndRead.runRaw (.state .empty) (.of .guarded) {}).answer
        = .error (.failure (.unbound (.text "x"))) ∧
      ((Comp.probe forkAndRead forkAndRead).apply (.state .empty) (.of .guarded) {}).dropped = [] := by
  have law := assembled_forkAndRead.runRaw_of_apply (.state .empty)
    (Context.loadable_default (V := Datum Empty))
  exact ⟨assembled_forkAndRead, Context.loadable_default, rfl,
    law.2.2.1 ⟨.state .empty, .unbound (.text "x")⟩ [] rfl,
    (law.2.2.2.2 forkAndRead forkAndRead assembled_forkAndRead assembled_forkAndRead).1⟩

/-- A host function that gives on whether the raw mode is in force. -/
def askingMode : Comp (Datum Empty) (Datum Empty) :=
  (Comp.pure (.null : Datum Empty)).bind fun _ => do
    match ← Run.mode with
    | .raw => return Comp.pure (.bool true)
    | .guarded => return Comp.pure (.bool false)

/-- A body that reads a variable, and raises an error of its own if it is let go of there. -/
def failingRelease : Routine (Datum Empty) Unit (Datum Empty) where
  prepare := Pure.pure ()
  start _ := Pure.pure (.awaiting (Pure.pure (Comp.readVar (.text "x"))) ())
  resume _ v := Pure.pure (.finished v)
  whenOver _ := .null
  release _ := Run.stop (.defect (.raised .key []))

/-- **What host code can tell the modes apart by.**  It can ask for the mode, and then the modes have
different branches although nothing is dropped.  And a body that raises an error when it is let go of
hides the failure that the raw mode would end in. -/
theorem runRaw_unlike_apply :
    ((askingMode.apply (.state .empty) (.of .guarded) {}).answer = .ok [⟨.state .empty, .bool false⟩] ∧
      (askingMode.apply (.state .empty) (.of .guarded) {}).dropped = [] ∧
      (askingMode.runRaw (.state .empty) (.of .guarded) {}).answer
        = .ok [⟨.state .empty, .bool true⟩]) ∧
    (((failingRelease.comp "routine" 2).apply (.state .empty) (.of .guarded) {}).dropped.map (·.error)
        = [.unbound (.text "x")] ∧
      ((failingRelease.comp "routine" 2).runRaw (.state .empty) (.of .guarded) {}).answer
        = .error (.defect (.raised .key []))) :=
  ⟨⟨rfl, rfl, rfl⟩, rfl, rfl⟩

end Instances

end Comp

end SymbolicPaths
