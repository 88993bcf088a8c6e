import Mathlib.Data.Multiset.Bind
import SymbolicPaths.Proofs.Isolation
import SymbolicPaths.Proofs.Pairing
/-!
# Variables and heap are independent

A program that works on variables only and one that works on the heap only do not disturb each other.
Run one after the other, in either order, they give every branch of the one with every branch of the
other: the store is the one that the first half left, the heap the one that the second half left.

The argument has two halves.

* A *frame property* (`Program.Over.frame`).  A program that works on one component of a state takes the
  same steps whatever the other component is (`Program.Over.paired`), so its branches are found once and
  for all, and the other component stands in each of them unchanged.
* A *product* (`Comp.gives_product`).  A sequence of two computations, of which the second one gives the
  same wherever the first one left off, gives all pairs.

Both are stated for a component and the rest, `put i k`, and are used twice: once with the store for the
component, once with the heap.  That the two orders give the same pairs up to order is then a fact about
lists.
-/

namespace SymbolicPaths

variable {V α β γ ι κ : Type}

/-! ## The two halves -/

/-- The primitives that work on variables only, and those that work on nothing. -/
inductive Primitive.OnVariables : {α : Type} → Primitive V α → Prop
  | pure {α : Type} (a : α) : OnVariables (.pure a)
  | zero : OnVariables .zero
  | choose : OnVariables .choose
  | readVar (name : V) : OnVariables (.readVar name)
  | storeVar (name value : V) : OnVariables (.storeVar name value)
  | getStore : OnVariables .getStore
  | putStore (store : Except (Fault V) (Store V)) : OnVariables (.putStore store)

/-- The primitives that work on the heap only, and those that work on nothing. -/
inductive Primitive.OnHeap : {α : Type} → Primitive V α → Prop
  | pure {α : Type} (a : α) : OnHeap (.pure a)
  | zero : OnHeap .zero
  | choose : OnHeap .choose
  | getHeap : OnHeap .getHeap
  | putHeap (heap : List (Member V)) : OnHeap (.putHeap heap)
  | addChunk (c : Member V) : OnHeap (.addChunk c)
  | writeHeap (l v : V) : OnHeap (.writeHeap l v)
  | compress (u : Unifying V) : OnHeap (.compress u)

/-- Programs that work on variables only. -/
abbrev Program.OnVariables (p : Program V α) : Prop := p.Over (@Primitive.OnVariables V) False

/-- Programs that work on the heap only; they may read it, and so compress it. -/
abbrev Program.OnHeap (p : Program V α) : Prop := p.Over (@Primitive.OnHeap V) True

/-- Two subjects that are made of the same component, with `k` beside it in one of them and `k'` in the
other. -/
def Subject.Shares (put : ι → κ → Subject V) (k k' : κ) (s t : Subject V) : Prop :=
  ∃ i, s = put i k ∧ t = put i k'

namespace Subject

theorem injective_store (heap : List (Member V)) :
    Function.Injective fun store : Store V => (.state ⟨store, heap⟩ : Subject V) := fun _ _ h =>
  (State.mk.inj (Subject.state.inj h)).1

theorem injective_heap (store : Store V) :
    Function.Injective fun heap : List (Member V) => (.state ⟨store, heap⟩ : Subject V) := fun _ _ h =>
  (State.mk.inj (Subject.state.inj h)).2

end Subject

/-- A branch in a subject whose component can be recovered. -/
theorem Branch.injective_found {put : ι → Subject V} (hput : Function.Injective put) :
    Function.Injective fun f : ι × α => (⟨put f.1, f.2⟩ : Branch V α) := by
  rintro ⟨i, a⟩ ⟨j, b⟩ h
  obtain ⟨hij, rfl⟩ := Branch.mk.inj h
  exact congrArg (·, a) (hput hij)

/-- Branches that go together in such subjects are the same branches, with one thing or another beside
them. -/
theorem Branch.AllBeside.exists_found {put : ι → κ → Subject V} {k k' : κ} {bs bs' : List (Branch V α)}
    (h : Branch.AllBeside (Subject.Shares put k k') bs bs') :
    ∃ found : List (ι × α), bs = found.map (fun f => ⟨put f.1 k, f.2⟩) ∧
      bs' = found.map fun f => ⟨put f.1 k', f.2⟩ := by
  induction h with
  | nil => exact ⟨[], rfl, rfl⟩
  | @cons b b' rest rest' hb _ ih =>
    obtain ⟨found, rfl, rfl⟩ := ih
    obtain ⟨i, hs, ht⟩ := hb.state
    refine ⟨(i, b.value) :: found, ?_, ?_⟩
    · rw [List.map_cons, ← hs]
    · rw [List.map_cons, ← ht, hb.value]

variable [Term V]

section Pairings

open Run (Paired Pairing Looks)

variable (host : Host V) (c : Context V)

/-- **Work on variables does not look into the heap.** -/
theorem Primitive.pairing_onVariables (h h' : List (Member V)) :
    Pairing host c (Subject.Shares (fun store heap => .state ⟨store, heap⟩) h h')
      (@Primitive.OnVariables V) False where
  primitive hp s t hst := by
    obtain ⟨store, rfl, rfl⟩ := hst
    have family := (Looks.family (V := V)).household
    cases hp with
    | pure a => exact .pure (.cons ⟨⟨store, rfl, rfl⟩, rfl⟩ .nil)
    | zero => exact .pure (.cons ⟨⟨store, rfl, rfl⟩, rfl⟩ .nil)
    | choose =>
      exact .pure (.cons ⟨⟨store, rfl, rfl⟩, rfl⟩ (.cons ⟨⟨store, rfl, rfl⟩, rfl⟩ .nil))
    | readVar name =>
      refine .looking (family.requireKey (Term.unhashable? name)) fun _ _ => ?_
      dsimp only
      cases store.find? name with
      | some v => exact .pure (.cons ⟨⟨store, rfl, rfl⟩, rfl⟩ .nil)
      | none => exact .fail _
    | storeVar name value =>
      refine .looking (family.requireKey (Term.unhashable? name)) fun _ _ => ?_
      exact .pure (.cons ⟨⟨store.bind name value, rfl, rfl⟩, rfl⟩ .nil)
    | getStore => exact .pure (.cons ⟨⟨store, rfl, rfl⟩, rfl⟩ .nil)
    | putStore other =>
      refine .looking (Looks.family.ofExcept other) fun store' _ => ?_
      exact .pure (.cons ⟨⟨store', rfl, rfl⟩, rfl⟩ .nil)
  compress reads := reads.elim
  chunksAt reads := reads.elim

/-- **Work on the heap does not look at variables**, and neither does a compression. -/
theorem Primitive.pairing_onHeap (store store' : Store V) :
    Pairing host c (Subject.Shares (fun heap store => .state ⟨store, heap⟩) store store')
      (@Primitive.OnHeap V) True := by
  have family := (Looks.family (V := V)).household
  have compress : ∀ (u : Unifying V) {s t : Subject V},
      Subject.Shares (fun heap store => .state ⟨store, heap⟩) store store' s t →
      Paired c (Branch.AllBeside (Subject.Shares (fun heap store => .state ⟨store, heap⟩) store store'))
        ((Comp.compress (u.run host)).body s) ((Comp.compress (u.run host)).body t) := by
    rintro u s t ⟨heap, rfl, rfl⟩
    refine .looking (family.fuse (u.looks_run host) (fun _ hu => Unifying.looks_of_answers host hu) heap)
      fun chunks _ => ?_
    exact .pure (.cons ⟨⟨chunks.map .chunk, rfl, rfl⟩, rfl⟩ .nil)
  refine ⟨fun hp s t hst => ?_, fun _ => compress, fun _ l s t hst => ?_⟩
  · obtain ⟨heap, rfl, rfl⟩ := hst
    cases hp with
    | pure a => exact .pure (.cons ⟨⟨heap, rfl, rfl⟩, rfl⟩ .nil)
    | zero => exact .pure (.cons ⟨⟨heap, rfl, rfl⟩, rfl⟩ .nil)
    | choose => exact .pure (.cons ⟨⟨heap, rfl, rfl⟩, rfl⟩ (.cons ⟨⟨heap, rfl, rfl⟩, rfl⟩ .nil))
    | getHeap => exact .pure (.cons ⟨⟨heap, rfl, rfl⟩, rfl⟩ .nil)
    | putHeap other => exact .pure (.cons ⟨⟨other, rfl, rfl⟩, rfl⟩ .nil)
    | addChunk d => exact .pure (.cons ⟨⟨d :: heap, rfl, rfl⟩, rfl⟩ .nil)
    | writeHeap l v =>
      refine .looking (family.claims heap) fun chunks _ => ?_
      exact .pure (.cons ⟨⟨(Heap.overwrite l v chunks).map .chunk, rfl, rfl⟩, rfl⟩ .nil)
    | compress u => exact compress u ⟨heap, rfl, rfl⟩
  · obtain ⟨heap, rfl, rfl⟩ := hst
    rfl

end Pairings

/-! ## What a run gives -/

namespace Run

/-- A guarded run that answers with `a` in contexts like `c`, and leaves a context like `c`. -/
def Gives (c : Context V) (x : Run V α) (a : α) : Prop :=
  ∀ ⦃d : Context V⦄, d.primed = c.primed → (x (.of .guarded) d).answer = .ok a ∧
    (x (.of .guarded) d).context.primed = c.primed

namespace Gives

variable {c : Context V} {x : Run V α} {a : α}

omit [Term V] in
protected theorem pure (a : α) : Gives c (pure a) a := fun _ hd => ⟨rfl, hd⟩

omit [Term V] in
protected theorem bind {f : α → Run V β} {b : β} (h : Gives c x a) (hf : Gives c (f a) b) :
    Gives c (x >>= f) b := by
  intro d hd
  obtain ⟨hx, hd'⟩ := h hd
  rw [answer_bind_of_ok hx, context_bind_of_ok hx]
  exact hf hd'

omit [Term V] in
theorem flatMap {items : List ι} {place : ι → κ} {f : κ → Run V (List β)} {g : ι → List β}
    (hf : ∀ i, Gives c (f (place i)) (g i)) :
    Gives c (Run.flatMap (items.map place) f) (items.flatMap g) := by
  induction items with
  | nil => exact .pure []
  | cons i rest ih => exact (hf i).bind (ih.bind (.pure _))

omit [Term V] in
theorem each {items : List ι} {f : ι → Run V β} {g : ι → β} (hf : ∀ i, Gives c (f i) (g i)) :
    Gives c (Run.each items f) (items.map g) := by
  induction items with
  | nil => exact .pure []
  | cons i rest ih => exact (hf i).bind (ih.bind (.pure _))

/-- Where there are settings to read, an application gives what its body does. -/
theorem apply {m : Comp V α} {s : Subject V} {bs : List (Branch V α)} (hc : c.Loadable)
    (h : Gives c (m.body s) bs) : Gives c (m.apply s) bs := by
  intro d hd
  obtain ⟨hm, hd'⟩ := h hd
  have unfailing : ∀ f, (m.body s (.of .guarded) d).answer ≠ .error (.failure f) := fun f hf => by
    rw [hm] at hf
    cases hf
  rw [Comp.apply_apply_of_unfailing unfailing, answer_bind_of_ok hm, context_bind_of_ok hm]
  have settled := settle_alike m.name (some bs) (.of_loadable .guarded (hc.of_primed_eq hd'.symm)) hd'
  exact ⟨settled.answer, settled.context⟩

end Gives

end Run

/-- **The frame of a program.**  What a program finds that works on one component of a state, it finds
whatever is beside that component, and leaves that as it is. -/
theorem Program.Over.frame {host : Host V} {c : Context V} (hc : c.Loadable) {put : ι → κ → Subject V}
    (hput : ∀ k, Function.Injective fun i => put i k) {kind : ∀ α : Type, Primitive V α → Prop}
    {reads : Prop} (pairing : ∀ k k', Run.Pairing host c (Subject.Shares put k k') kind reads)
    {p : Program V α} (hp : p.Over kind reads) {i : ι} {k : κ} {bs : List (Branch V α)}
    (h : ((p.comp host).apply (put i k) (.of .guarded) c).answer = .ok bs) :
    ∃ found : List (ι × α), ∀ k',
      ((p.comp host).apply (put i k')).Gives c (found.map fun f => ⟨put f.1 k', f.2⟩) := by
  have beside : ∀ k' d, d.primed = c.primed → ∃ found : List (ι × α),
      bs = found.map (fun f => ⟨put f.1 k, f.2⟩) ∧
      ((p.comp host).apply (put i k') (.of .guarded) d).answer
        = .ok (found.map fun f => ⟨put f.1 k', f.2⟩) ∧
      ((p.comp host).apply (put i k') (.of .guarded) d).context.primed = c.primed := by
    intro k' d hd
    obtain ⟨answered, -, kept⟩ := hp.paired hc (pairing k k') ⟨i, rfl, rfl⟩ rfl hd
    obtain ⟨bs', hbs', together⟩ := (h ▸ answered).exists_ok
    obtain ⟨found, hbs, rfl⟩ := Branch.AllBeside.exists_found together
    exact ⟨found, hbs, hbs', kept⟩
  obtain ⟨found, hbs, -⟩ := beside k c rfl
  refine ⟨found, fun k' d hd => ?_⟩
  obtain ⟨found', hbs', answer, kept⟩ := beside k' d hd
  -- both lists are the branches of the one run that is known
  have same : found' = found :=
    List.map_injective_iff.2 (Branch.injective_found (hput k)) (hbs'.symm.trans hbs)
  exact ⟨same ▸ answer, kept⟩

namespace Comp

open Run (Gives)

variable {c : Context V} (hc : c.Loadable)

include hc

/-- A computation with its results mapped gives the same branches with the results mapped. -/
theorem gives_map {m : Comp V α} {s : Subject V} {bs : List (Branch V α)} (h : Gives c (m.apply s) bs)
    (g : α → β) :
    Gives c ((m.map fun a => Pure.pure (g a)).apply s) (bs.map fun b => ⟨b.state, g b.value⟩) := by
  exact .apply hc (h.bind (.each fun b => .bind (.pure (g b.value)) (.pure _)))

/-- **A product.**  If `n` gives the same branches after every branch of `m`, both give all pairs. -/
theorem gives_product (put : ι → κ → Subject V) {m : Comp V α} {n : Comp V β} {s : Subject V} {k : κ}
    {vs : List (ι × α)} {ws : List (κ × β)} (hm : Gives c (m.apply s) (vs.map fun v => ⟨put v.1 k, v.2⟩))
    (hn : ∀ i, Gives c (n.apply (put i k)) (ws.map fun w => ⟨put i w.1, w.2⟩)) (g : α → β → γ) :
    Gives c ((m.bind fun a => Pure.pure (n.map fun b => Pure.pure (g a b))).apply s)
      (vs.flatMap fun v => ws.map fun w => ⟨put v.1 w.1, g v.2 w.2⟩) := by
  refine .apply hc (hm.bind (.flatMap fun v => .apply hc ?_))
  have mapped := gives_map hc (hn v.1) (g v.2)
  rw [List.map_map] at mapped
  exact mapped

end Comp

/-! ## Independence -/

omit [Term V] in
/-- All pairs, listed by the one component or by the other. -/
theorem pairs_perm (vs : List α) (ws : List β) (g : α → β → γ) :
    (vs.flatMap fun v => ws.map (g v)).Perm (ws.flatMap fun w => vs.map fun v => g v w) := by
  have comm := Multiset.bind_map_comm (vs : Multiset α) (ws : Multiset β) (f := g)
  simpa only [Multiset.map_coe, Multiset.coe_bind, Multiset.coe_eq_coe] using comm

namespace Program

/-- **Variable work and heap work are independent.**  Let `p` work on variables only and `q` on the heap
only, and let both, run alone on a state, end in nothing but failures.  Then `p` gives stores and results
and `q` gives heaps and results, and one after the other, in either order, they give one branch for each
of the former and each of the latter, with that store, that heap and both results. -/
theorem independent (host : Host V) {c : Context V} (hc : c.Loadable) {p : Program V α}
    {q : Program V β} (hp : p.OnVariables) (hq : q.OnHeap) (s : State V)
    (innocent : ∀ e, ((p.comp host).apply (.state s) (.of .guarded) c).answer = .error e →
      ∃ f, e = .failure f)
    (innocent' : ∀ e, ((q.comp host).apply (.state s) (.of .guarded) c).answer = .error e →
      ∃ f, e = .failure f) :
    ∃ (vs : List (Store V × α)) (ws : List (List (Member V) × β)),
      ((p.comp host).apply (.state s) (.of .guarded) c).answer
        = .ok (vs.map fun v => ⟨.state ⟨v.1, s.heap⟩, v.2⟩) ∧
      ((q.comp host).apply (.state s) (.of .guarded) c).answer
        = .ok (ws.map fun w => ⟨.state ⟨s.store, w.1⟩, w.2⟩) ∧
      (((p.comp host).bind fun a => pure ((q.comp host).map fun b => pure (a, b))).apply (.state s)
        (.of .guarded) c).answer
        = .ok (vs.flatMap fun v => ws.map fun w => ⟨.state ⟨v.1, w.1⟩, (v.2, w.2)⟩) ∧
      (((q.comp host).bind fun b => pure ((p.comp host).map fun a => pure (a, b))).apply (.state s)
        (.of .guarded) c).answer
        = .ok (ws.flatMap fun w => vs.map fun v => ⟨.state ⟨v.1, w.1⟩, (v.2, w.2)⟩) ∧
      (vs.flatMap fun v => ws.map fun w => (⟨.state ⟨v.1, w.1⟩, (v.2, w.2)⟩ : Branch V (α × β))).Perm
        (ws.flatMap fun w => vs.map fun v => ⟨.state ⟨v.1, w.1⟩, (v.2, w.2)⟩) := by
  obtain ⟨_, hbs⟩ := Comp.exists_answer_of_innocent rfl innocent
  obtain ⟨_, hbs'⟩ := Comp.exists_answer_of_innocent rfl innocent'
  obtain ⟨vs, onVariables⟩ := hp.frame hc Subject.injective_store (Primitive.pairing_onVariables host c) hbs
  obtain ⟨ws, onHeap⟩ := hq.frame hc Subject.injective_heap (Primitive.pairing_onHeap host c) hbs'
  refine ⟨vs, ws, (onVariables s.heap rfl).1, (onHeap s.store rfl).1, ?_, ?_, pairs_perm vs ws _⟩
  · exact (Comp.gives_product hc (fun store heap => .state ⟨store, heap⟩) (onVariables s.heap) onHeap
      Prod.mk rfl).1
  · exact (Comp.gives_product hc (fun heap store => .state ⟨store, heap⟩) (onHeap s.store) onVariables
      (fun b a => (a, b)) rfl).1

section Instances

open Script

/-- Of three paths one binds a variable, one does nothing, and one reads the variable and so fails. -/
def onThreePaths : Program (Datum Empty) Unit :=
  .bind (.primitive .choose) fun
    | true => .build (.primitive (.storeVar (.text "x") (.int 1)))
    | false => .build (.bind (.primitive .choose) fun
      | true => .build (.primitive .zero)
      | false => .build (.bind (.primitive (.readVar (.text "x"))) fun _ => .build (.primitive .zero)))

/-- Of two paths one reads the location with two chunks, and the other one drops both of them. -/
def readOrDrop : Program (Datum Empty) (Datum Empty) :=
  .bind (.primitive .choose) fun
    | true => .build (.readHeap .inForce (.location (.int 1) (.text "f")) (.number 0))
    | false => .build (.bind (.primitive (.putHeap [])) fun _ => .build (.primitive (.pure .null)))

theorem onVariables_onThreePaths : onThreePaths.OnVariables := by
  refine .bind (.primitive .choose) fun on => ?_
  cases on with
  | true => exact .build (.primitive (.storeVar _ _))
  | false =>
    refine .build (.bind (.primitive .choose) fun on => ?_)
    cases on with
    | true => exact .build (.primitive .zero)
    | false => exact .build (.bind (.primitive (.readVar _)) fun _ => .build (.primitive .zero))

theorem onHeap_readOrDrop : readOrDrop.OnHeap := by
  refine .bind (.primitive .choose) fun on => ?_
  cases on with
  | true => exact .build (.readHeap trivial _ _ _)
  | false => exact .build (.bind (.primitive (.putHeap _)) fun _ => .build (.primitive (.pure _)))

/-- The store that binds one variable. -/
def bound : Store (Datum Empty) := ⟨[(.text "x", .int 1)]⟩

/-- The heap that a read leaves of two chunks at one location. -/
def single : List (Member (Datum Empty)) := [.chunk ⟨.location (.int 1) (.text "f"), .int 2⟩]

/-- Two stores and two heaps are four branches, in either order. -/
theorem independent_onThreePaths_readOrDrop :
    (onThreePaths.OnVariables ∧ readOrDrop.OnHeap ∧ ({} : Context (Datum Empty)).Loadable) ∧
    (((onThreePaths.comp ⟨fun _ _ => .error .exhausted, 0⟩).bind fun a =>
        pure ((readOrDrop.comp ⟨fun _ _ => .error .exhausted, 0⟩).map fun b => pure (a, b))).apply
      (.state Comp.twofold) (.of .guarded) {}).answer
      = .ok [⟨.state ⟨bound, single⟩, ((), .int 2)⟩, ⟨.state ⟨bound, []⟩, ((), .null)⟩,
        ⟨.state ⟨{}, single⟩, ((), .int 2)⟩, ⟨.state ⟨{}, []⟩, ((), .null)⟩] ∧
    (((readOrDrop.comp ⟨fun _ _ => .error .exhausted, 0⟩).bind fun b =>
        pure ((onThreePaths.comp ⟨fun _ _ => .error .exhausted, 0⟩).map fun a => pure (a, b))).apply
      (.state Comp.twofold) (.of .guarded) {}).answer
      = .ok [⟨.state ⟨bound, single⟩, ((), .int 2)⟩, ⟨.state ⟨{}, single⟩, ((), .int 2)⟩,
        ⟨.state ⟨bound, []⟩, ((), .null)⟩, ⟨.state ⟨{}, []⟩, ((), .null)⟩] := by
  have alone : ((onThreePaths.comp ⟨fun _ _ => .error .exhausted, 0⟩).apply (.state Comp.twofold)
      (.of .guarded) {}).answer
      = .ok ([(bound, ()), ({}, ())].map fun v => ⟨.state ⟨v.1, Comp.twofold.heap⟩, v.2⟩) := rfl
  have alone' : ((readOrDrop.comp ⟨fun _ _ => .error .exhausted, 0⟩).apply (.state Comp.twofold)
      (.of .guarded) {}).answer
      = .ok ([(single, .int 2), ([], .null)].map fun w => ⟨.state ⟨Comp.twofold.store, w.1⟩, w.2⟩) := rfl
  obtain ⟨vs, ws, hvs, hws, there, back, -⟩ := independent ⟨fun _ _ => .error .exhausted, 0⟩
    Context.loadable_default onVariables_onThreePaths onHeap_readOrDrop Comp.twofold
    (fun e h => by rw [alone] at h; cases h) (fun e h => by rw [alone'] at h; cases h)
  obtain rfl : vs = [(bound, ()), ({}, ())] :=
    List.map_injective_iff.2 (Branch.injective_found (Subject.injective_store Comp.twofold.heap))
      (Except.ok.inj (hvs.symm.trans alone))
  obtain rfl : ws = [(single, .int 2), ([], .null)] :=
    List.map_injective_iff.2 (Branch.injective_found (Subject.injective_heap Comp.twofold.store))
      (Except.ok.inj (hws.symm.trans alone'))
  exact ⟨⟨onVariables_onThreePaths, onHeap_readOrDrop, Context.loadable_default⟩, there, back⟩

/-- A read of a location that has no chunks in the empty state. -/
def missing : Comp (Datum Empty) (Datum Empty) :=
  (Program.readHeap .inForce (.location (.text "p") (.text "f")) (.number 0)).comp
    ⟨fun _ _ => .error .exhausted, 0⟩

/-- Work on variables by a host function that also puts a policy in force. -/
def meddling : Comp (Datum Empty) Unit := Comp.zero.bind fun _ => do
  let _ ← Run.setPolicy (.chosen .null)
  return Comp.zero

/-- **What is assumed is needed.**  Where no settings can be read, a read of a variable without a binding and
a read of a location without chunks give no branches, but in either order they end in a defect: the second
one is not even reached.  And where a host function puts a policy in force, a read of the heap after it finds
something else than before. -/
theorem not_independent :
    (((Comp.readVar (.text "x") : Comp (Datum Empty) _).apply (.state .empty) (.of .guarded)
        .misconfigured).answer = .ok [] ∧
      (missing.apply (.state .empty) (.of .guarded) .misconfigured).answer = .ok [] ∧
      (((Comp.readVar (.text "x") : Comp (Datum Empty) _).bind fun a =>
          pure (missing.map fun b => pure (a, b))).apply (.state .empty) (.of .guarded)
        .misconfigured).answer = .error (.defect (.settings (.malformedCap "abc")))) ∧
    ((meddling.apply (.state Comp.twofold) (.of .guarded) {}).answer = .ok [⟨.state Comp.twofold, ()⟩] ∧
      ((Comp.readInForce.apply (.state Comp.twofold) (.of .guarded) {}).answer.map fun bs =>
        bs.map (·.value)) = .ok [.int 2] ∧
      (((meddling.bind fun a => pure (Comp.readInForce.map fun b => pure (a, b))).apply
        (.state Comp.twofold) (.of .guarded) {}).answer.map fun bs => bs.map (·.value))
        = .ok [((), .int 1)] ∧
      (((Comp.readInForce.bind fun b => pure (meddling.map fun a => pure (a, b))).apply
        (.state Comp.twofold) (.of .guarded) {}).answer.map fun bs => bs.map (·.value))
        = .ok [((), .int 2)]) :=
  ⟨⟨rfl, rfl, rfl⟩, rfl, rfl, rfl, rfl⟩

end Instances

end Program

end SymbolicPaths
