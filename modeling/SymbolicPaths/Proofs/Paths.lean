import SymbolicPaths.Proofs.Halting
import SymbolicPaths.Proofs.Summary
/-!
# No path is lost

An exploration of a program ends with one outcome for each leaf of the program's execution tree
(`Program.explore_leaves`): the branches are the leaves that did not fail, in order, and the failures
are the others, each once and with the state in which it failed.  If the tree is finite and free of
defects the exploration does end, with enough steps for its routines.

The proof goes through the program as it is written down.  Each construction takes the trees of its
parts to the tree of the whole as the combinator takes their runs to the run of the whole, which is what
`SymbolicPaths.Proofs.Totality` and `SymbolicPaths.Proofs.Halting` say of combinators and routines.

The program has to be tidy (`Program.Tidy`): what goes wrong when a body is let go of is no leaf of the tree,
and a computation that says there is nothing more to come is taken for the end of a body.
`Program.explore_unlike_leaves` has an example of the first, and one of a host function that carries out a
computation itself, of which a tree of constructions knows nothing.
-/

namespace SymbolicPaths

variable {V α : Type} [Term V] (host : Host V) (c : Context V)

open Run (Looks Realizes Supports)

/-! ## Primitives -/

namespace Unifying

/-- Which unifier is in force can be seen from the policy alone. -/
theorem inForce_apply (meaning : V → Unifier V) (τ : Scope V) (d : Context V) :
    Unifier.inForce meaning τ d = ⟨.ok (match d.policy with
      | .maxTerm => Unifier.maxTerm
      | .chosen p => meaning p), d, []⟩ := by
  rw [Unifier.inForce, Run.context_bind]
  cases d.policy <;> rfl

theorem looks_run (u : Unifying V) : (u.run host).Looks := by
  cases u with
  | given policy => exact Looks.family.pure _
  | inForce =>
    refine ⟨⟨fun τ d k hs hdk => ?_, fun d => ?_, fun d => ?_⟩, fun τ d => ?_⟩
    · have policies : d.policy = k.policy := by
        rw [← Context.policy_primed d, hdk, Context.policy_primed]
      rw [run, inForce_apply, inForce_apply, policies]
      exact ⟨rfl, rfl, hdk, hs⟩
    · rw [run, inForce_apply, inForce_apply]
    · rw [run, inForce_apply]
      rfl
    · rw [run, inForce_apply]

/-- Whatever unifies values here does not do anything else. -/
theorem looks_of_answers {u : Unifying V} {unify : Unifier V} (h : (u.run host).Answers unify)
    (vs : List V) : (unify vs).Looks := by
  obtain ⟨τ, d, h⟩ := h
  cases u with
  | given policy =>
    obtain rfl : (fun vs => Run.ofExcept (policy vs)) = unify := Except.ok.inj h
    exact Looks.family.ofExcept _
  | inForce =>
    rw [run, inForce_apply] at h
    cases hp : d.policy with
    | maxTerm =>
      rw [hp] at h
      obtain rfl : Unifier.maxTerm = unify := Except.ok.inj h
      exact Looks.family.household.maxTerm vs
    | chosen p =>
      rw [hp] at h
      obtain rfl : (fun vs => Run.ofExcept (host.meaning p vs)) = unify := Except.ok.inj h
      exact Looks.family.ofExcept _

theorem looks_compress (u : Unifying V) (s : Subject V) :
    ((Comp.compress (u.run host)).body s).Looks :=
  Looks.family.household.compress (u.looks_run host) (fun _ h => looks_of_answers host h) s

end Unifying

/-- Primitives only look. -/
theorem Primitive.looks (p : Primitive V α) (s : Subject V) : ((p.comp host).body s).Looks := by
  have family := (Looks.family (V := V)).household
  cases p with
  | pure a => exact family.pure _
  | zero => exact family.pure _
  | readVar name => exact family.readVar name s
  | storeVar name value => exact family.storeVar name value s
  | getStore => exact family.getStore s
  | putStore store => exact family.putStore (Looks.family.ofExcept store) s
  | getHeap => exact family.getHeap s
  | putHeap heap => exact family.putHeap heap s
  | addChunk c => exact family.addChunk c s
  | writeHeap l v => exact family.writeHeap l v s
  | compress u => exact u.looks_compress host s
  | choose => exact family.pure _

/-! ## Reads of the heap -/

namespace Unifying

variable (u : Unifying V) (l : V)

/-- Whether a read compresses the heap: there are several chunks, and the retries that were made can be
counted. -/
def Compresses (d : Context V) (attempt : Amount V) (s : Subject V) : Prop :=
  ∃ x y rest n, (Comp.chunksAt l s (.of .guarded) d).answer = .ok (x :: y :: rest) ∧
    attempt.counted = .ok n

/-- What a read does where there are several chunks and another retry. -/
def readAgain (retries : Nat) (n : Int) : Comp V V :=
  (Comp.compress (u.run host)).andThen (Comp.heapReadWithin (u.run host) l retries (.number (n + 1)))

theorem looks_chunksAt (s : Subject V) : (Comp.chunksAt l s : Run V (List (Chunk V))).Looks :=
  Looks.family.household.chunksAt l s

variable {u l}

/-- Whether the heap is compressed is the same in contexts that cannot be told apart. -/
theorem Compresses.of_primed_eq {c d : Context V} {attempt : Amount V} {s : Subject V}
    (h : Compresses l c attempt s) (hcd : c.primed = d.primed) : Compresses l d attempt s := by
  obtain ⟨x, y, rest, n, hchunks, hn⟩ := h
  exact ⟨x, y, rest, n, ((looks_chunksAt l s).answer_eq hcd).symm.trans hchunks, hn⟩

/-- Where there are several chunks, a read compresses the heap and is tried again. -/
theorem heapReadWithin_body_of_several {retries : Nat} {attempt : Amount V} {s : Subject V}
    {d : Context V} {x y : Chunk V} {rest : List (Chunk V)} {n : Int}
    (hchunks : (Comp.chunksAt l s (.of .guarded) d).answer = .ok (x :: y :: rest))
    (hn : attempt.counted = .ok n) :
    (Comp.heapReadWithin (u.run host) l (retries + 1) attempt).body s (.of .guarded) d
      = (Comp.chunksAt l s >>= fun _ => Run.log (.compressing (rest.length + 2) l) >>= fun _ =>
          (u.readAgain host l retries n).apply s) (.of .guarded) d := by
  refine Run.bind_apply_congr fun chunks h => ?_
  obtain rfl : x :: y :: rest = chunks := Except.ok.inj (hchunks.symm.trans h)
  show (Run.ordered ">=" (attempt.counted.map (· + 1)) >>= _) _ _ = _
  rw [hn]
  rfl

/-- A read that does not compress the heap is one that may not. -/
theorem heapReadWithin_body_of_not_compresses {retries : Nat} {attempt : Amount V} {s : Subject V}
    {d : Context V} (h : ¬ Compresses l d attempt s) :
    (Comp.heapReadWithin (u.run host) l (retries + 1) attempt).body s (.of .guarded) d
      = (Comp.heapReadWithin (u.run host) l 0 attempt).body s (.of .guarded) d := by
  refine Run.bind_apply_congr fun chunks hchunks => ?_
  match chunks with
  | [] => rfl
  | [c] => rfl
  | x :: y :: rest =>
    cases hn : attempt.counted with
    | ok n => exact absurd ⟨x, y, rest, n, hchunks, hn⟩ h
    | error operands => rfl

theorem read_of_several {retries : Nat} {attempt : Amount V} {s : Subject V} {x y : Chunk V}
    {rest : List (Chunk V)} {n : Int}
    (hchunks : (Comp.chunksAt l s (.of .guarded) c).answer = .ok (x :: y :: rest))
    (hn : attempt.counted = .ok n) :
    u.read host c l (retries + 1) attempt s
      = (Leaf.ofBody c (Comp.compress (u.run host)) s >>= Leaf.grow fun b =>
          u.read host c l retries (.number (n + 1)) b.state) := by
  rw [read, hchunks, hn]

theorem read_of_not_compresses {retries : Nat} {attempt : Amount V} {s : Subject V}
    (h : ¬ Compresses l c attempt s) :
    u.read host c l (retries + 1) attempt s
      = Leaf.ofBody c (Comp.heapReadWithin (u.run host) l 0 attempt) s := by
  rw [read]
  split
  · rename_i x y rest n hchunks hn
    exact absurd ⟨x, y, rest, n, hchunks, hn⟩ h
  · rfl

/-- A read that may not compress the heap is accounted for by what it says. -/
theorem read_zero_supports (attempt : Amount V) (s : Subject V) :
    Supports c s (fun _ => (Comp.heapReadWithin (u.run host) l 0 attempt).body s)
      (Leaf.ofBody c (Comp.heapReadWithin (u.run host) l 0 attempt) s) :=
  .ofLooks (Looks.family.household.readHeap l attempt s)

/-- A read that compresses the heap is accounted for if the reads after the compression are. -/
theorem read_supports_of_compresses {retries : Nat} {attempt : Amount V} {s : Subject V}
    (h : Compresses l c attempt s)
    (ih : ∀ (attempt : Amount V) (s : Subject V),
      Supports c s (fun _ => (Comp.heapReadWithin (u.run host) l retries attempt).body s)
        (u.read host c l retries attempt s)) :
    Supports c s (fun _ => (Comp.heapReadWithin (u.run host) l (retries + 1) attempt).body s)
      (u.read host c l (retries + 1) attempt s) := by
  obtain ⟨x, y, rest, n, hchunks, hn⟩ := h
  have again : Realizes c (fun _ => (u.readAgain host l retries n).apply s)
      (u.read host c l (retries + 1) attempt s) := by
    rw [read_of_several host c hchunks hn]
    exact Comp.andThen_apply_realizes (Comp.apply_realizes_ofBody (u.looks_compress host s))
      fun t => (ih (.number (n + 1)) t).apply
  have guarded : Supports c s (fun _ => (u.readAgain host l retries n).apply s) _ :=
    .ofContained again fun _ => Comp.contained_apply _ _
  refine ((guarded.skip (Looks.family.log (.compressing (rest.length + 2) l)) rfl).skip
    (looks_chunksAt l s) hchunks).congr fun _ d hd => ?_
  exact heapReadWithin_body_of_several host (((looks_chunksAt l s).answer_eq hd).trans hchunks) hn

/-- A read that does not compress the heap. -/
theorem read_supports_of_not_compresses {retries : Nat} {attempt : Amount V} {s : Subject V}
    (h : ¬ Compresses l c attempt s) :
    Supports c s (fun _ => (Comp.heapReadWithin (u.run host) l (retries + 1) attempt).body s)
      (u.read host c l (retries + 1) attempt s) := by
  rw [read_of_not_compresses host c h]
  refine (read_zero_supports host c attempt s).congr fun _ d hd => ?_
  exact heapReadWithin_body_of_not_compresses host fun compresses => h (compresses.of_primed_eq hd)

/-- **A read is accounted for by the reads after its compressions.** -/
theorem read_supports (retries : Nat) (attempt : Amount V) (s : Subject V) :
    Supports c s (fun _ => (Comp.heapReadWithin (u.run host) l retries attempt).body s)
      (u.read host c l retries attempt s) := by
  induction retries generalizing attempt s with
  | zero => exact read_zero_supports host c attempt s
  | succ retries ih =>
    by_cases h : Compresses l c attempt s
    · exact read_supports_of_compresses host c h ih
    · exact read_supports_of_not_compresses host c h

end Unifying

/-! ## Programs that last -/

section Lasting

open Run (Lasting)

variable {host}

theorem Unifying.lasting_run (u : Unifying V) : (u.run host).Lasting := by
  cases u with
  | given policy => exact Lasting.household.pure _
  | inForce =>
    refine Lasting.household.bind (fun _ _ _ h => by cases h) fun k _ => ?_
    cases k.policy <;> exact Lasting.household.pure _

theorem Unifying.lasting_of_answers {u : Unifying V} (hu : u.Tidy host.meaning) {unify : Unifier V}
    (h : (u.run host).Answers unify) (vs : List V) : (unify vs).Lasting := by
  have lasts : ∀ {x : Except (Fault V) V}, (∀ e, x = .error e → e.over? = none) →
      (Run.ofExcept x).Lasting := fun hx _ _ e he => hx e he
  obtain ⟨τ, d, h⟩ := h
  cases u with
  | given policy =>
    obtain rfl : (fun vs => Run.ofExcept (policy vs)) = unify := Except.ok.inj h
    exact lasts (hu vs)
  | inForce =>
    rw [run, inForce_apply] at h
    cases hp : d.policy with
    | maxTerm =>
      rw [hp] at h
      obtain rfl : Unifier.maxTerm = unify := Except.ok.inj h
      exact Lasting.household.maxTerm vs
    | chosen p =>
      rw [hp] at h
      obtain rfl : (fun vs => Run.ofExcept (host.meaning p vs)) = unify := Except.ok.inj h
      exact lasts (hu p vs)

theorem Primitive.lasting {p : Primitive V α} (hp : p.Tidy host.meaning) (s : Subject V) :
    ((p.comp host).body s).Lasting := by
  have household := Lasting.household (V := V)
  cases p with
  | pure a => exact household.pure _
  | zero => exact household.pure _
  | readVar name => exact household.readVar name s
  | storeVar name value => exact household.storeVar name value s
  | getStore => exact household.getStore s
  | putStore store => exact household.putStore (fun _ _ e he => hp e he) s
  | getHeap => exact household.getHeap s
  | putHeap heap => exact household.putHeap heap s
  | addChunk c => exact household.addChunk c s
  | writeHeap l v => exact household.writeHeap l v s
  | compress u => exact household.compress u.lasting_run (fun _ h => u.lasting_of_answers hp h) s
  | choose => exact household.pure _

theorem Builder.lasting_run {b : Builder V α} (h : b.Tidy host.meaning) : (b.run host).Lasting := by
  cases b with
  | build p => exact Lasting.household.pure _
  | raise e => exact Lasting.household.stop h

omit [Term V] in
/-- A tidy body is let go of by doing nothing. -/
theorem Turn.release_of_tidy {meaning : V → List V → Except (Fault V) V} {t : Turn V α}
    (h : t.Tidy meaning) : t.release = pure () := by
  cases t with
  | yields p closing =>
    rw [Turn.Tidy] at h
    rw [release, h.2]
    rfl
  | returns a => rfl
  | raises e => rfl

/-- A tidy routine is let go of by doing nothing, however many steps it may take. -/
theorem Program.comp_routine (name : String) (whenOver : Option V → α) {body : List V → Turn V α}
    {meaning : V → List V → Except (Fault V) V} (h : ∀ trail, (body trail).Tidy meaning) (other : Host V) :
    (Program.routine name whenOver body).comp other
      = (Routine.unclosed whenOver fun trail => (body trail).signal other trail).comp name other.fuel := by
  have quiet : (fun trail => (body trail).release) = fun _ => (pure () : Run V Unit) :=
    funext fun trail => Turn.release_of_tidy (h trail)
  rw [Program.comp, quiet]

/-- What such a routine waits for is what its body yields. -/
theorem Routine.exists_of_wants {whenOver : Option V → α} {body : List V → Turn V α}
    {wanted : Run V (Comp V V)}
    (h : (unclosed whenOver fun trail => (body trail).signal host trail).Wants wanted) :
    ∃ trail p closing, body trail = .yields p closing ∧ wanted = pure (p.comp host) := by
  have signalled : ∀ trail paused, ((body trail).signal host trail).Answers (.awaiting wanted paused) →
      ∃ p closing, body trail = .yields p closing ∧ wanted = pure (p.comp host) := by
    rintro trail paused ⟨τ, d, h⟩
    cases hb : body trail with
    | yields p closing =>
      rw [hb] at h
      obtain ⟨rfl, -⟩ := Signal.awaiting.inj (Except.ok.inj h)
      exact ⟨p, closing, rfl, rfl⟩
    | returns a =>
      rw [hb] at h
      cases Except.ok.inj h
    | raises e =>
      rw [hb] at h
      cases h
  cases h with
  | first ready paused h => exact ⟨ready, signalled ready paused h⟩
  | next waiting paused v h => exact ⟨_, signalled _ paused h⟩

variable (host)

mutual

/-- **A tidy program does not say that there is nothing more to come.** -/
theorem Program.lasting {α : Type} :
    ∀ (p : Program V α), p.Tidy host.meaning → ∀ s, ((p.comp host).body s).Lasting
  | .primitive _, h, s => Primitive.lasting h s
  | .readHeap u _ _, h, s => Lasting.closure.heapReadWithin u.lasting_run
      (fun _ hu => u.lasting_of_answers h hu) _ _ _ s
  | .probe left right, h, s =>
    have sides : (Comp.sides (left.comp host) (right.comp host) s).Lasting :=
      Lasting.household.bind (Lasting.closure.apply (left.lasting h.1 s)) fun _ _ =>
        Lasting.household.bind (Lasting.closure.apply (right.lasting h.2 s)) fun _ _ =>
          Lasting.household.pure _
    Lasting.household.bind (fun _ k e he => sides .guarded k e he) fun _ _ => Lasting.household.pure _
  | .bind p f, h, s => Lasting.closure.bindComp (p.lasting h.1) (fun a => (f a).lasting_run (h.2 a))
      (fun a _ hd => (f a).lasting_of_answers (h.2 a) hd) s
  | .defer name thunk, h, s => Lasting.closure.defer name (thunk.lasting_run h)
      (fun _ hd => thunk.lasting_of_answers h hd) s
  | .sequence items step, h, s => by
    refine Lasting.closure.sequence (fun m hm => ?_) s
    obtain ⟨i, -, rfl⟩ := List.mem_map.1 hm
    exact (step i).lasting (h i)
  | .forEach items body, h, s => Lasting.closure.forEach items (fun i => (body i).lasting_run (h i))
      (fun i _ hd => (body i).lasting_of_answers (h i) hd) s
  | .routine name whenOver body, h, s => by
    have tidy : ∀ trail, (body trail).Tidy host.meaning := h
    rw [Program.comp_routine name whenOver tidy host]
    refine Lasting.closure.exhaust (fun _ _ => .asBody _) (fun _ _ _ => .asBody _) (fun wanted hw => ?_)
      (fun wanted hw d hd => ?_) (fun paused γ x keep hx => ?_) (Lasting.household.pure _) name _ _ _
    · obtain ⟨_, _, _, -, rfl⟩ := Routine.exists_of_wants hw
      exact Lasting.household.pure _
    · obtain ⟨trail, p, closing, hb, rfl⟩ := Routine.exists_of_wants hw
      obtain ⟨_, _, hd⟩ := hd
      obtain rfl : p.comp host = d := Except.ok.inj hd
      exact (body trail).lasting_of_yields (tidy trail) hb
    · show (Run.afterUnless keep (Run.asBody (pure ())) x).Lasting
      rw [Run.asBody_pure, Run.afterUnless_pure]
      exact hx

/-- What a host function gives does not say so either, -/
theorem Builder.lasting_of_answers {α : Type} :
    ∀ (b : Builder V α), b.Tidy host.meaning → ∀ {d : Comp V α}, (b.run host).Answers d →
      ∀ s, (d.body s).Lasting
  | .build p, h, d, hd, s => by
    obtain ⟨_, _, hd⟩ := hd
    obtain rfl : p.comp host = d := Except.ok.inj hd
    exact p.lasting h s
  | .raise e, _, _, hd, _ => by
    obtain ⟨_, _, hd⟩ := hd
    cases hd

/-- nor what a body yields. -/
theorem Turn.lasting_of_yields {α : Type} :
    ∀ (t : Turn V α), t.Tidy host.meaning → ∀ {p : Program V V} {closing : Except (Fault V) Unit},
      t = .yields p closing → ∀ s, ((p.comp host).body s).Lasting
  | .yields p _, h, _, _, hb, s => by
    cases hb
    exact p.lasting h.1 s

end

end Lasting

/-! ## Programs -/

mutual

/-- **A program is accounted for by its execution tree, and ends if that is finite.** -/
theorem Program.realizes {α : Type} : ∀ (p : Program V α), p.Tidy host.meaning → ∀ s,
    Realizes c (fun n => (p.comp (host.within n)).apply s) (p.leaves host c s)
  | .primitive p, _, s => by
    simp only [Program.comp, Primitive.comp_within]
    exact Comp.apply_realizes_ofBody (p.looks host s)
  | .readHeap u l attempt, _, s => by
    simp only [Program.comp, Unifying.run_within]
    exact (u.read_supports host c _ attempt s).apply
  | .probe left right, h, s =>
    Comp.probe_apply_realizes (left.realizes h.1 s) (right.realizes h.2 s)
  | .bind p f, h, s =>
    Comp.bind_apply_realizes (p.realizes h.1 s) fun b => (f b.value).supports (h.2 b.value) b.state
  | .defer name thunk, h, s =>
    (thunk.supports h s).apply (m := fun n => Comp.defer name (thunk.run (host.within n)))
  | .sequence items step, h, s =>
    Comp.sequence_apply_realizes items (fun i s => (step i).realizes (h i) s) s
  | .forEach items body, h, s =>
    Comp.forEach_apply_realizes items (fun i s => (body i).supports (h i) s) s
  | .routine name whenOver body, h, s => by
    have tidy : ∀ trail, (body trail).Tidy host.meaning := h
    simp only [Program.comp_routine name whenOver tidy]
    exact Routine.comp_apply_realizes (fun trail => (body trail).realizes (tidy trail) trail) name s

/-- So is what a host function gives. -/
theorem Builder.supports {α : Type} : ∀ (b : Builder V α), b.Tidy host.meaning → ∀ s,
    Supports c s (fun n => b.run (host.within n) >>= fun d => d.apply s) (b.leaves host c s)
  | .build p, h, s => .ofContained (p.realizes h s) fun n => (p.comp (host.within n)).contained_apply s
  | .raise e, _, _ => .stop e

/-- What a body does next is what its stage says. -/
theorem Turn.realizes {α : Type} : ∀ (t : Turn V α), t.Tidy host.meaning → ∀ trail,
    (t.stage host c).Realizes c trail fun n => t.signal (host.within n) trail
  | .yields p _, h, _ => ⟨fun n => p.comp (host.within n), fun _ => rfl, fun s =>
      ⟨p.realizes h.1 s, fun n =>
        have lasts : ((p.comp (host.within n)).body s).Lasting := p.lasting (host.within n) h.1 s
        Run.Lasting.closure.apply lasts .guarded⟩⟩
  | .returns _, _, _ => fun _ => rfl
  | .raises _, _, _ => fun _ => rfl

end

/-! ## Explorations -/

/-- What was found is a tree: its endings from left to right, and its failures in some order. -/
structure Exploration.Covers (found : Exploration V α) (leaves : List (Leaf V (Branch V α))) : Prop where
  branches : found.branches = Leaf.endings leaves
  failures : found.failures.Perm (Leaf.failures leaves)
  length : found.branches.length + found.failures.length = leaves.length
  whole : found.truncated = false

/-- Where no cap is set, there is no limit. -/
theorem Comp.limits_none {c : Context V} {i : Installed V} (hi : c.primed.settings = some i)
    (hcap : i.cap? = .ok none) : Limits none c none := by
  refine ⟨none, ?_, .none⟩
  rw [effectiveCap, Run.answer_bind_of_ok (a := i) (by rw [Run.settings_apply_of_primed hi]), hcap]
  rfl

namespace Program

variable {host c} {p : Program V α} [Written α]

/-- What an exploration finds is the tree of the program. -/
theorem covers_of_explore (hp : p.Tidy host.meaning) {s : Subject V}
    (hcap : ∀ i, c.primed.settings = some i → i.cap? = .ok none) {n : Nat} {found : Exploration V α}
    (h : ((p.comp (host.within n)).explore none s (.of .guarded) c).answer = .ok found) :
    ∃ leaves, p.leaves host c s = some leaves ∧ found.Covers leaves := by
  rw [Comp.explore_eq] at h
  obtain ⟨⟨branches, failures⟩, hcollect, hconclude⟩ := Run.exists_of_answer_bind_ok h
  -- at top level, to collect changes nothing for what is collected
  have collected : ((p.comp (host.within n)).apply s (.of .guarded) c).answer.map
      (·, ((p.comp (host.within n)).apply s (.of .guarded) c).dropped) = .ok (branches, failures) := hcollect
  cases happly : ((p.comp (host.within n)).apply s (.of .guarded) c).answer with
  | error e =>
    rw [happly] at collected
    cases collected
  | ok bs =>
    rw [happly] at collected
    obtain ⟨rfl, rfl⟩ := Prod.mk.inj (Except.ok.inj collected)
    obtain ⟨⟨leaves, hleaves, hendings, hfailures⟩, context⟩ := (p.realizes host c hp s).grows n rfl happly
    have same : (Run.collect ((p.comp (host.within n)).apply s) (.of .guarded) c).context.primed = c.primed :=
      context
    obtain ⟨limit, hlimit, rfl⟩ := Comp.exists_limit_of_conclude hconclude
    obtain ⟨i, hi⟩ : ∃ i, c.primed.settings = some i := by
      obtain ⟨amount, inForce, -⟩ := hlimit
      obtain ⟨i, hi, -⟩ := Run.exists_of_answer_bind_ok inForce
      exact ⟨i, same ▸ Run.installed_of_settings hi⟩
    obtain rfl := hlimit.unique (Comp.limits_none (same.symm ▸ hi) (hcap i hi))
    refine ⟨leaves, hleaves, hendings, hfailures, ?_, rfl⟩
    rw [← Leaf.length_endings_add_length_failures, ← hfailures.length_eq, ← hendings]
    rfl

variable (host c p)

/-- **No path is lost, and none is found twice.**  Let a tidy program be explored at top level where no cap
is set.

* Whatever number of steps its routines may take, an exploration that is ended by nothing but failures
  answers.  The execution tree of the program is finite and free of defects then, and what was found is the
  tree: the branches are the paths that did not fail, from left to right, and the failures are the failed
  ones, in some order, each once and with the state in which it failed.
* If the execution tree is finite and free of defects, the exploration does answer, with any number of steps
  from some number on, where the settings can be read and what was found can be set out if steps are
  logged. -/
theorem explore_leaves (hp : p.Tidy host.meaning) (s : Subject V)
    (hcap : ∀ i, c.primed.settings = some i → i.cap? = .ok none) :
    (∀ n, (∀ e, ((p.comp (host.within n)).explore none s (.of .guarded) c).answer = .error e →
        ∃ f, e = .failure f) →
      ∃ found leaves, ((p.comp (host.within n)).explore none s (.of .guarded) c).answer = .ok found ∧
        p.leaves host c s = some leaves ∧ found.Covers leaves) ∧
    ∀ leaves i on, p.leaves host c s = some leaves → c.primed.settings = some i → i.debug? = .ok on →
      (on = true → ∃ text, Branch.layoutAll? (Leaf.endings leaves) = .ok text) →
      ∃ steps, ∀ n ≥ steps, ∃ found,
        ((p.comp (host.within n)).explore none s (.of .guarded) c).answer = .ok found ∧
          found.Covers leaves := by
  refine ⟨fun n h => ?_, fun leaves i on hleaves hi hon laidOut => ?_⟩
  · cases hfound : ((p.comp (host.within n)).explore none s (.of .guarded) c).answer with
    | error e =>
      obtain ⟨f, rfl⟩ := h e hfound
      exact absurd hfound ((p.comp (host.within n)).contained_explore none s rfl c f)
    | ok found =>
      obtain ⟨leaves, hleaves, covers⟩ := covers_of_explore hp hcap hfound
      exact ⟨found, leaves, rfl, hleaves, covers⟩
  · have realized := p.realizes host c hp s
    rw [hleaves] at realized
    obtain ⟨steps, answers⟩ := Comp.exists_answers_of_realizes realized ⟨i, on, hi, hon⟩
    refine ⟨steps, fun n hn => ?_⟩
    obtain ⟨answer, context⟩ := answers n hn rfl
    have settings := context.symm ▸ hi
    obtain ⟨found, hfound⟩ := Comp.exists_explore_answer (σ := .of .guarded) answer
      (Comp.limits_none settings (hcap i hi)) (fun _ => rfl) settings hon laidOut
    obtain ⟨leaves', hleaves', covers⟩ := covers_of_explore hp hcap hfound
    obtain rfl := Option.some.inj (hleaves.symm.trans hleaves')
    exact ⟨found, hfound, covers⟩

section Instances

open Script

/-- A program that gives a number. -/
def number (n : Int) : Program (Datum Empty) (Datum Empty) := .primitive (.pure (.int n))

/-- Either side of a fork, as a value. -/
def fork : Program (Datum Empty) (Datum Empty) :=
  .bind (.primitive .choose) fun b => .build (.primitive (.pure (.bool b)))

/-- A body that waits for a fork, then on one side for a number and on the other for a variable, and ends with
what it was sent; `closing` is what comes of letting go of it where it waits for the variable. -/
def forkThenRead (closing : Except (Fault (Datum Empty)) Unit) :
    List (Datum Empty) → Turn (Datum Empty) (Datum Empty)
  | [] => .yields fork (.ok ())
  | [.bool true] => .yields (number 1) (.ok ())
  | [_] => .yields (.primitive (.readVar (.text "x"))) closing
  | _ :: v :: _ => .returns v

/-- The routine of that body. -/
def forkedRead (closing : Except (Fault (Datum Empty)) Unit) : Program (Datum Empty) (Datum Empty) :=
  .routine "forked read" (fun _ => .null) (forkThenRead closing)

/-- A host without policies. -/
def bareHost : Host (Datum Empty) := ⟨fun _ _ => .error (.defect .nothingToUnify), 0⟩

/-- Its tree: the path that reads a variable without a binding fails, the other one ends. -/
def forkedLeaves : List (Leaf (Datum Empty) (Branch (Datum Empty) (Datum Empty))) :=
  [.ended ⟨.state .empty, .int 1⟩, .failed ⟨.state .empty, .unbound (.text "x")⟩]

theorem leaves_forkedRead (closing : Except (Fault (Datum Empty)) Unit) :
    (forkedRead closing).leaves bareHost {} (.state .empty) = some forkedLeaves := by
  have number : Path.walk (fun trail => (forkThenRead closing trail).stage bareHost {})
      (.sibling [] ⟨.state .empty, .bool true⟩) = some [.ended ⟨.state .empty, .int 1⟩] := by
    rw [Path.walk_of_asks rfl]
    exact (Leaf.grow_singleton _).trans (Path.walk_of_gives rfl)
  have unbound : Path.walk (fun trail => (forkThenRead closing trail).stage bareHost {})
      (.sibling [] ⟨.state .empty, .bool false⟩) = some [.failed ⟨.state .empty, .unbound (.text "x")⟩] := by
    rw [Path.walk_of_asks rfl]
    rfl
  have sides : (forkedRead closing).leaves bareHost {} (.state .empty)
      = Leaf.grow (fun b => Path.walk (fun trail => (forkThenRead closing trail).stage bareHost {})
          (.sibling [] b)) [.ended ⟨.state .empty, .bool true⟩, .ended ⟨.state .empty, .bool false⟩] := by
    rw [forkedRead, Program.leaves, Path.walk_of_asks rfl]
    rfl
  rw [sides, Leaf.grow_ended, Leaf.grow_singleton]
  rw [number, unbound]
  rfl

theorem tidy_forkedRead : (forkedRead (.ok ())).Tidy bareHost.meaning := by
  have tidy : ∀ trail, (forkThenRead (.ok ()) trail).Tidy bareHost.meaning := fun trail => by
    unfold forkThenRead
    split
    · exact ⟨⟨trivial, fun _ => trivial⟩, rfl⟩
    · exact ⟨trivial, rfl⟩
    · exact ⟨trivial, rfl⟩
    · trivial
  exact tidy

/-- With enough steps the fork is explored to its two leaves, and nine are enough. -/
theorem explore_leaves_forkedRead :
    (forkedRead (.ok ())).Tidy bareHost.meaning ∧
      (∀ i, ({} : Context (Datum Empty)).primed.settings = some i → i.cap? = .ok none) ∧
      (forkedRead (.ok ())).leaves bareHost {} (.state .empty) = some forkedLeaves ∧
      (∃ found, (((forkedRead (.ok ())).comp (bareHost.within 9)).explore none (.state .empty)
        (.of .guarded) {}).answer = .ok found ∧ found.Covers forkedLeaves) ∧
      ∃ steps, ∀ n ≥ steps, ∃ found, (((forkedRead (.ok ())).comp (bareHost.within n)).explore none
        (.state .empty) (.of .guarded) {}).answer = .ok found ∧ found.Covers forkedLeaves := by
  have uncapped : ∀ i, ({} : Context (Datum Empty)).primed.settings = some i → i.cap? = .ok none := by
    intro i hi
    cases hi
    rfl
  obtain ⟨finds, ends⟩ := (forkedRead (.ok ())).explore_leaves bareHost {} tidy_forkedRead
    (.state .empty) uncapped
  have tree := leaves_forkedRead (.ok ())
  obtain ⟨found, leaves, hfound, hleaves, covers⟩ := finds 9 fun e he => by cases he
  obtain rfl := Option.some.inj (tree.symm.trans hleaves)
  exact ⟨tidy_forkedRead, uncapped, tree, ⟨found, hfound, covers⟩,
    ends forkedLeaves (.loaded {}) false tree rfl rfl fun on => nomatch on⟩

/-- A host function that carries out a computation before it gives another one. -/
def lookingAhead : Run (Datum Empty) (Comp (Datum Empty) (Datum Empty)) := do
  let _ ← (Comp.readVar (.text "x")).apply (.state .empty)
  return (number 2).comp bareHost

/-- The program that continues a number with what `lookingAhead` gives. -/
def continued : Program (Datum Empty) (Datum Empty) :=
  .bind (number 1) fun _ => .build (number 2)

/-- A body that waits for a computation that says there is nothing more to come. -/
def cutShort : Program (Datum Empty) (Datum Empty) :=
  .routine "cut short" (fun _ => .null) fun _ => .yields (.bind (number 1) fun _ =>
    .raise (.defect (.raised .stopIteration []))) (.ok ())

/-- **Where a program is not tidy, what is found is not its tree.**

* Where letting go of the body fails, the routine fails as a whole: the path that had come to its end is
  lost, and there is a failure that is no leaf.
* What fails in a computation that a host function carries out itself is a failure of no leaf either: the
  only path of the program ends, and one failure is found with it.
* Where a computation that a body waits for says there is nothing more to come, a branch is found at the
  end of a path that is no leaf. -/
theorem explore_unlike_leaves :
    ((forkedRead (.error (.failure (.abandoned [])))).leaves bareHost {} (.state .empty) = some forkedLeaves ∧
      (((forkedRead (.error (.failure (.abandoned [])))).comp (bareHost.within 9)).explore none
          (.state .empty) (.of .guarded) {}).answer
        = .ok ⟨[], [⟨.state .empty, .unbound (.text "x")⟩, ⟨.state .empty, .abandoned []⟩], false⟩) ∧
    (continued.leaves bareHost {} (.state .empty) = some [.ended ⟨.state .empty, .int 2⟩] ∧
      lookingAhead.Answers ((number 2).comp bareHost) ∧
      ((((number 1).comp bareHost).bind fun _ => lookingAhead).explore none (.state .empty) (.of .guarded) {}).answer
        = .ok ⟨[⟨.state .empty, .int 2⟩], [⟨.state .empty, .unbound (.text "x")⟩], false⟩) ∧
    (cutShort.leaves bareHost {} (.state .empty) = none ∧
      ((cutShort.comp (bareHost.within 9)).explore none (.state .empty) (.of .guarded) {}).answer
        = .ok ⟨[⟨.state .empty, .null⟩], [], false⟩) := by
  refine ⟨⟨leaves_forkedRead _, rfl⟩, ⟨rfl, ⟨.of .guarded, {}, rfl⟩, rfl⟩, ?_, rfl⟩
  rw [cutShort, Program.leaves, Path.walk_of_asks rfl]
  rfl

end Instances

end Program

end SymbolicPaths
