import SymbolicPaths.Proofs.Program
import SymbolicPaths.Proofs.Primitives
import SymbolicPaths.Proofs.Agreement
/-!
# Runs that tell an answer

What a primitive answers depends on the subject that it looks into and on the policy in force, and on
nothing else.  `Run.Tells` says so of a run: where log records are kept it gives one answer, leaves the
context alone and leaves nothing behind but records.  Every primitive tells something (`Run.Telling.family`);
what a compression tells is the heap that is read off in `SymbolicPaths.Proofs.Grouping`
(`Comp.compress_tells`).

An applied computation looks at the settings after a success, so it leaves the context alone only up to
that.  `Run.Comes` is what remains where runs are served: a run comes to an answer if nobody could tell it
from that answer.
-/

namespace SymbolicPaths

variable {V α β : Type}

namespace Run

/-! ## Telling -/

/-- Where log records are kept and a policy is in force, a run gives an answer and does nothing else. -/
def Tells (policy : Policy V) (x : Run V α) (r : Except (Fault V) α) : Prop :=
  ∀ ⦃σ : Scope V⦄ ⦃c : Context V⦄, (∀ e, σ.records e = .ok ()) → c.policy = policy →
    (x σ c).answer = r ∧ (x σ c).news = [] ∧ (x σ c).context = c

/-- A run that tells something. -/
def Telling (policy : Policy V) (x : Run V α) : Prop := ∃ r, x.Tells policy r

variable {policy : Policy V} {x : Run V α} {f : α → Run V β} {r : Except (Fault V) α}

theorem tells_ofExcept (r : Except (Fault V) α) : (ofExcept r).Tells policy r :=
  fun _ _ _ _ => ⟨rfl, rfl, rfl⟩

theorem tells_pure (a : α) : (pure a : Run V α).Tells policy (.ok a) := tells_ofExcept (.ok a)

theorem tells_stop (e : Fault V) : (stop e : Run V α).Tells policy (.error e) := tells_ofExcept (.error e)

theorem tells_log (e : Entry V) : (log e).Tells policy (.ok ()) := by
  intro σ c records _
  rw [log_apply_of_ok c (records e)]
  exact ⟨rfl, rfl, rfl⟩

namespace Tells

theorem dropped (h : x.Tells policy r) {σ : Scope V} {c : Context V} (records : ∀ e, σ.records e = .ok ())
    (hc : c.policy = policy) : (x σ c).dropped = [] := by
  rw [← Outcome.filterMap_pending?_news, (h records hc).2.1]
  rfl

/-- Sequences of runs that tell something tell what the answers amount to. -/
theorem bind {g : α → Except (Fault V) β} (h : x.Tells policy r)
    (hf : ∀ a, r = .ok a → (f a).Tells policy (g a)) : (x >>= f).Tells policy (r >>= g) := by
  intro σ c records hc
  obtain ⟨answer, news, context⟩ := h records hc
  cases r with
  | error e =>
    rw [bind_apply_of_answer_error answer]
    exact ⟨rfl, news, context⟩
  | ok a =>
    obtain ⟨answer', news', context'⟩ := hf a rfl records hc
    rw [answer_bind_of_ok answer, news_bind_of_ok answer, context_bind_of_ok answer, context, news, answer',
      news', context']
    exact ⟨rfl, rfl, rfl⟩

/-- What follows an answer tells what the sequence does. -/
theorem bind_ok {a : α} {s : Except (Fault V) β} (h : x.Tells policy (.ok a)) (hf : (f a).Tells policy s) :
    (x >>= f).Tells policy s :=
  h.bind (g := fun _ => s) fun b hb => by
    obtain rfl : a = b := Except.ok.inj hb
    exact hf

/-- A run that goes on to an answer wherever it gets one. -/
theorem map {g : α → β} (h : x.Tells policy r) (hf : ∀ a, r = .ok a → (f a).Tells policy (.ok (g a))) :
    (x >>= f).Tells policy (r.map g) := by
  have whole := h.bind (g := fun a => .ok (g a)) hf
  cases r with
  | error e => exact whole
  | ok a => exact whole

/-- A list of runs that tell something. -/
theorem each {ι : Type} {items : List ι} {k : ι → Run V α} {g : ι → Except (Fault V) α}
    (h : ∀ i ∈ items, (k i).Tells policy (g i)) : (Run.each items k).Tells policy (items.mapM g) := by
  induction items with
  | nil => exact tells_pure []
  | cons i rest ih =>
    rw [each_cons, List.mapM_cons]
    refine (h i (List.mem_cons_self ..)).bind fun here _ => ?_
    exact (ih fun j hj => h j (List.mem_cons_of_mem i hj)).bind fun others _ => tells_pure _

end Tells

namespace Telling

/-- Where nothing else is said, what a run tells is what it answers somewhere. -/
theorem tells (h : x.Telling policy) : x.Tells policy (x (.of .guarded) { policy }).answer := by
  obtain ⟨r, h⟩ := h
  obtain ⟨answer, -⟩ := h (σ := .of .guarded) (c := { policy }) (fun _ => rfl) rfl
  rw [answer]
  exact h

/-- To tell something is inherited by sequences, and so every primitive does. -/
theorem family (policy : Policy V) : Family (V := V) (Telling policy) where
  pure a := ⟨_, tells_pure a⟩
  stop e := ⟨_, tells_stop e⟩
  log e := ⟨_, tells_log e⟩
  bind h hf := by
    obtain ⟨r, hr⟩ := h
    cases r with
    | error e => exact ⟨_, hr.bind (g := fun _ => .error e) fun a ha => by cases ha⟩
    | ok a =>
      have answers : Answers _ a := ⟨.of .guarded, { policy }, (hr (fun _ => rfl) rfl).1⟩
      obtain ⟨r', hr'⟩ := hf a answers
      exact ⟨_, hr.bind (g := fun _ => r') fun b hb => by rwa [← Except.ok.inj hb]⟩

end Telling

/-! ## Coming to an answer -/

section Comes

variable [Term V]

/-- Where runs are served and a policy is in force, nobody could tell a run from its answer. -/
def Comes (policy : Policy V) (x : Run V α) (r : Except (Fault V) α) : Prop :=
  ∀ ⦃σ : Scope V⦄ ⦃c : Context V⦄, σ.Serves c → c.policy = policy →
    Outcome.Alike σ (x σ c) (ofExcept r σ c)

theorem Tells.comes (h : x.Tells policy r) : x.Comes policy r := by
  intro σ c hs hc
  obtain ⟨answer, news, context⟩ := h hs.records hc
  exact ⟨answer, news, by rw [context]; rfl, by rw [context]; exact hs⟩

namespace Comes

/-- Where a run leaves off that comes to an answer, runs are served on under the same policy. -/
theorem served (h : x.Comes policy r) {σ : Scope V} {c : Context V} (hs : σ.Serves c)
    (hc : c.policy = policy) : σ.Serves (x σ c).context ∧ (x σ c).context.policy = policy := by
  have alike := h hs hc
  refine ⟨alike.serves, ?_⟩
  have same : (x σ c).context.primed.policy = c.primed.policy := congrArg Context.policy alike.context
  rw [Context.policy_primed, Context.policy_primed] at same
  exact same.trans hc

protected theorem bind {a : α} {s : Except (Fault V) β} (h : x.Comes policy (.ok a))
    (hf : (f a).Comes policy s) : (x >>= f).Comes policy s := by
  intro σ c hs hc
  have alike := h hs hc
  obtain ⟨serves, inForce⟩ := h.served hs hc
  have next := hf serves inForce
  have ha : (x σ c).answer = .ok a := alike.answer
  have nothing : (x σ c).news = [] := alike.news
  refine ⟨?_, ?_, ?_, ?_⟩
  · rw [answer_bind_of_ok ha, next.answer]
    rfl
  · rw [news_bind_of_ok ha, nothing, next.news]
    rfl
  · rw [context_bind_of_ok ha, next.context]
    exact alike.context
  · rw [context_bind_of_ok ha]
    exact next.serves

/-- An application comes to what its body comes to, if that is an answer. -/
theorem apply {m : Comp V α} {s : Subject V} {bs : List (Branch V α)}
    (h : (m.body s).Comes policy (.ok bs)) : (m.apply s).Comes policy (.ok bs) := by
  intro σ c hs hc
  have applied := Comp.apply_alike_caught (y := ofExcept (.ok bs)) (h hs hc) m.name
  rw [caught_of_contained (x := ofExcept (.ok bs)) (contained_pure bs)] at applied
  exact applied

/-- A run that comes to a value does not say that there is nothing more to come, -/
theorem unlessOver {a : α} (h : x.Comes policy (.ok a)) : (Run.unlessOver x).Comes policy (.ok (.ok a)) := by
  intro σ c hs hc
  have alike := h hs hc
  exact ⟨congrArg withOver alike.answer, alike.news, alike.context, alike.serves⟩

theorem attempt {a : α} (h : x.Comes policy (.ok a)) : (Run.attempt x).Comes policy (.ok (.ok a)) := by
  intro σ c hs hc
  have alike := h hs hc
  rw [attempt_apply]
  exact ⟨congrArg attempted alike.answer, alike.news, alike.context, alike.serves⟩

/-- and nothing is done after it if the value is to be kept. -/
theorem afterUnless {a : α} (h : x.Comes policy (.ok a)) {keep : α → Bool} (hkeep : keep a = true)
    (last : Run V Unit) : (Run.afterUnless keep last x).Comes policy (.ok a) := by
  refine h.attempt.bind ?_
  rw [parting, hkeep]
  exact (tells_pure a).comes

section Sequences

variable {m : Comp V α} {s u : Subject V} {a : α}

/-- A sequence whose first part has one branch comes to what that branch is gone on with. -/
theorem bindComp {f : α → Run V (Comp V β)} {bs : List (Branch V β)}
    (h : (m.apply s).Comes policy (.ok [⟨u, a⟩]))
    (hf : (f a >>= fun k => k.apply u).Comes policy (.ok bs)) :
    ((m.bind f).body s).Comes policy (.ok bs) := by
  rw [Comp.bind_body]
  refine h.bind ?_
  rw [flatMap_cons_eq_joined, flatMap_nil, joined_nil]
  exact Comes.apply (m := Comp.defer (m.name ++ " >>=") (f a)) hf

theorem andThen {k : Comp V β} {bs : List (Branch V β)} (h : (m.apply s).Comes policy (.ok [⟨u, a⟩]))
    (hk : (k.apply u).Comes policy (.ok bs)) : ((m.andThen k).apply s).Comes policy (.ok bs) :=
  .apply (h.bindComp (by rwa [pure_bind]))

theorem map {g : α → Run V β} {b : β} (h : (m.apply s).Comes policy (.ok [⟨u, a⟩]))
    (hg : (g a).Comes policy (.ok b)) : ((m.map g).apply s).Comes policy (.ok [⟨u, b⟩]) := by
  refine .apply (h.bind ?_)
  simp only [each_cons, each_nil, bind_assoc, pure_bind]
  exact hg.bind (tells_pure _).comes

end Sequences

end Comes

end Comes

end Run

/-! ## Fusing -/

section Fusing

variable [Term V] {policy : Policy V}

/-- What a unifier makes of values, where a policy is in force. -/
def Unifier.Follows (policy : Policy V) (unify : Unifier V) (choice : List V → Except (Fault V) V) : Prop :=
  ∀ vs, (unify vs).Tells policy (choice vs)

theorem Unifier.follows_maxTerm (policy : Policy V) :
    Unifier.Follows policy Unifier.maxTerm (Unifier.maxAnswer (V := V)) := fun vs => by
  rw [Unifier.maxTerm_eq]
  exact Run.tells_ofExcept _

/-- Where a policy is in force, a unifier is found that makes of values what a choice says. -/
def Run.Provides (policy : Policy V) (unifier : Run V (Unifier V)) (choice : List V → Except (Fault V) V) :
    Prop :=
  ∃ unify, unifier.Tells policy (.ok unify) ∧ unify.Follows policy choice

/-- The largest term is a choice that nobody has to look for. -/
theorem Run.provides_maxTerm (policy : Policy V) :
    Run.Provides policy (pure Unifier.maxTerm) (Unifier.maxAnswer (V := V)) :=
  ⟨_, Run.tells_pure _, Unifier.follows_maxTerm policy⟩

variable {unify : Unifier V} {choice : List V → Except (Fault V) V} {P : V → Prop} {h : List (Chunk V)}

omit [Term V] in
theorem Heap.fuseGroup_tells (hu : unify.Follows policy choice) (l : V) (vs : List V) :
    (fuseGroup unify ⟨l, vs⟩).Tells policy ((settled choice vs).map (Chunk.mk l)) := by
  have unified : (unify vs >>= fun v => Run.log (.unified vs.length l v) >>= fun _ =>
      pure (⟨l, v⟩ : Chunk V)).Tells policy ((choice vs).map (Chunk.mk l)) :=
    (hu vs).map fun v _ => (Run.tells_log _).bind_ok (Run.tells_pure _)
  match vs with
  | [v] => exact Run.tells_pure _
  | [] => exact unified
  | _ :: _ :: _ => exact unified

/-- **To fuse a heap tells the heap that is read off**, whatever is written to the log on the way. -/
theorem Heap.fuseWith_tells (hu : unify.Follows policy choice) (equivalent : Term.Equivalent P)
    (located : Located P h) (keys : ∀ c ∈ h, Term.unhashable? c.location = none) :
    (fuseWith unify (h.map .chunk)).Tells policy (fused choice h) := by
  have groups := groups_eq equivalent located
  have told : (Run.each (Heap.groups h) (fuseGroup unify)).Tells policy
      ((Heap.groups h).mapM fun g => (settled choice g.values).map (Chunk.mk g.location)) :=
    .each fun g _ => fuseGroup_tells hu g.location g.values
  rw [groups, List.mapM_map, ← groups] at told
  rw [fuseWith, fusible_map_chunk keys, pure_bind]
  exact told

theorem Heap.fuse_tells {unifier : Run V (Unifier V)} (provides : Run.Provides policy unifier choice)
    (equivalent : Term.Equivalent P) (located : Located P h)
    (keys : ∀ c ∈ h, Term.unhashable? c.location = none) :
    (fuse unifier (h.map .chunk)).Tells policy (fused choice h) := by
  obtain ⟨unify, found, follows⟩ := provides
  exact found.bind_ok (fuseWith_tells follows equivalent located keys)

/-- **A compression leaves the heap that is read off**, or ends in the first fault of the policy. -/
theorem Comp.compress_tells {unifier : Run V (Unifier V)} (provides : Run.Provides policy unifier choice)
    (equivalent : Term.Equivalent P) (located : Heap.Located P h)
    (keys : ∀ c ∈ h, Term.unhashable? c.location = none) (s : Store V) :
    ((Comp.compress unifier).body (.state (.ofChunks s h))).Tells policy
      ((Heap.fused choice h).map fun g => [⟨.state (.ofChunks s g), ()⟩]) := by
  show (Run.stateWith "with_heap" _ >>= _).Tells policy _
  rw [Run.stateWith_state, pure_bind]
  exact (Heap.fuse_tells provides equivalent located keys).map fun g _ => Run.tells_pure _

namespace Unifying

variable (host : Host V)

/-- What a policy makes of values. -/
def verdict (policy : Policy V) : Unifying V → List V → Except (Fault V) V
  | inForce =>
    match policy with
    | .maxTerm => Unifier.maxAnswer
    | .chosen p => host.meaning p
  | given made => made

/-- The unifier that a compression is given makes of values what the policy says. -/
theorem provides (u : Unifying V) (policy : Policy V) :
    Run.Provides policy (u.run host) (u.verdict host policy) := by
  cases u with
  | given made => exact ⟨_, Run.tells_pure _, fun vs => Run.tells_ofExcept _⟩
  | inForce =>
    cases policy with
    | maxTerm =>
      refine ⟨Unifier.maxTerm, fun σ c _ hc => ?_, Unifier.follows_maxTerm _⟩
      show ((Run.context >>= _) σ c).answer = _ ∧ ((Run.context >>= _) σ c).news = _ ∧
        ((Run.context >>= _) σ c).context = _
      rw [Run.context_bind, hc]
      exact ⟨rfl, rfl, rfl⟩
    | chosen p =>
      refine ⟨fun vs => Run.ofExcept (host.meaning p vs), fun σ c _ hc => ?_, fun vs => Run.tells_ofExcept _⟩
      show ((Run.context >>= _) σ c).answer = _ ∧ ((Run.context >>= _) σ c).news = _ ∧
        ((Run.context >>= _) σ c).context = _
      rw [Run.context_bind, hc]
      exact ⟨rfl, rfl, rfl⟩

theorem compress_tells (u : Unifying V) (policy : Policy V) (discrete : Term.Discrete P)
    (located : Heap.Located P h) (keys : ∀ {l}, P l → Term.unhashable? l = none) (s : Store V) :
    ((Comp.compress (u.run host)).body (.state (.ofChunks s h))).Tells policy
      ((Heap.fused (u.verdict host policy) h).map fun g => [⟨.state (.ofChunks s g), ()⟩]) :=
  Comp.compress_tells (u.provides host policy) discrete.equivalent located (fun c hc => keys (located c hc)) s

end Unifying

end Fusing

/-! ## Reading -/

namespace Comp

variable [Term V] {l : V} {s : Store V} {h : List (Chunk V)} {unifier : Run V (Unifier V)} {retries : Nat}
  {attempt : Amount V}

/-- The chunks of a heap of chunks. -/
theorem chunksAt_ofChunks (l : V) (s : Store V) (h : List (Chunk V)) :
    chunksAt l (.state (.ofChunks s h)) = Pure.pure (Heap.chunksAt l h) := by
  rw [chunksAt, Run.stateWith_state, pure_bind, State.ofChunks, Run.claims_map_chunk, pure_bind]

/-- A write of a location of a heap of chunks. -/
theorem heapWrite_body_ofChunks (l v : V) (s : Store V) (h : List (Chunk V)) :
    (heapWrite l v).body (.state (.ofChunks s h))
      = Pure.pure [⟨.state (.ofChunks s (Heap.overwrite l v h)), ()⟩] := by
  show (Run.stateWith "heap" _ >>= _ : Run V _) = _
  rw [Run.stateWith_state, pure_bind, State.ofChunks, Run.claims_map_chunk, pure_bind]
  rfl

theorem heapReadWithin_of_none (hl : Heap.chunksAt l h = []) :
    (heapReadWithin unifier l retries attempt).body (.state (.ofChunks s h)) = Run.fail (.missing l) := by
  cases retries
  all_goals
    show chunksAt l _ >>= _ = _
    rw [chunksAt_ofChunks, hl, pure_bind]

theorem heapReadWithin_of_one {c : Chunk V} (hl : Heap.chunksAt l h = [c]) :
    (heapReadWithin unifier l retries attempt).body (.state (.ofChunks s h))
      = Pure.pure [⟨.state (.ofChunks s h), c.value⟩] := by
  cases retries
  all_goals
    show chunksAt l _ >>= _ = _
    rw [chunksAt_ofChunks, hl, pure_bind]

/-- Where there are several chunks, the heap is compressed and read once more. -/
theorem heapReadWithin_of_several {c d : Chunk V} {cs : List (Chunk V)}
    (hl : Heap.chunksAt l h = c :: d :: cs) :
    (heapReadWithin unifier l (retries + 1) attempt).body (.state (.ofChunks s h))
      = Run.ordered ">=" (attempt.counted.map (· + 1)) >>= fun next =>
        Run.log (.compressing (c :: d :: cs).length l) >>= fun _ =>
          ((compress unifier).andThen (heapReadWithin unifier l retries (.number next))).apply
            (.state (.ofChunks s h)) := by
  show chunksAt l _ >>= _ = _
  rw [chunksAt_ofChunks, hl, pure_bind]

/-- A read of a location with one chunk has its value. -/
theorem heapRead_comes_of_one {policy : Policy V} {c : Chunk V} (one : Heap.chunksAt l h = [c]) :
    ((heapRead unifier l attempt).body (.state (.ofChunks s h))).Comes policy
      (.ok [⟨.state (.ofChunks s h), c.value⟩]) := by
  rw [heapRead, heapReadWithin_of_one one]
  exact (Run.tells_pure _).comes

/-- A read of a location with several chunks has the value of the one that a compression leaves there. -/
theorem heapRead_comes_of_several {policy : Policy V} {c : Chunk V} {g : List (Chunk V)}
    (several : 2 ≤ (Heap.chunksAt l h).length)
    (compressed : ((compress unifier).apply (.state (.ofChunks s h))).Comes policy
      (.ok [⟨.state (.ofChunks s g), ()⟩])) (one : Heap.chunksAt l g = [c]) :
    ((heapRead unifier l (.number 0)).body (.state (.ofChunks s h))).Comes policy
      (.ok [⟨.state (.ofChunks s g), c.value⟩]) := by
  have read : ((heapReadWithin unifier l 0 (.number 1)).body (.state (.ofChunks s g))).Comes policy
      (.ok [⟨.state (.ofChunks s g), c.value⟩]) := by
    rw [heapReadWithin_of_one one]
    exact (Run.tells_pure _).comes
  show ((heapReadWithin unifier l (0 + 1) (.number 0)).body _).Comes policy _
  match hchunks : Heap.chunksAt l h with
  | [] | [_] => simp [hchunks] at several
  | d :: e :: rest =>
    rw [heapReadWithin_of_several hchunks]
    refine Run.Comes.bind (a := 1) (Run.tells_pure _).comes ((Run.tells_log _).comes.bind ?_)
    exact compressed.andThen (.apply read)

end Comp

end SymbolicPaths
