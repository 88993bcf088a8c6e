import SymbolicPaths.Proofs.Contracts
import SymbolicPaths.Proofs.Locations
import SymbolicPaths.Proofs.Sameness
import SymbolicPaths.Proofs.Telling
/-!
# Reading a location

A read of a location that no chunk claims ends its branch, and one of a location that one chunk claims has
its value.  If several chunks claim the location, the heap is fused and the location read once more, and
that read finds one chunk: of each group the fusion makes one chunk (`Heap.meets_fuseWith`), and the chunks at a
location are one group (`Heap.groupsAt_groups`).  So no read has to fuse a heap twice, and the error of a read
that may not fuse any more is met only if the program counts a fusion as already done
(`Comp.readHeap_meets`).

What a policy does when it is asked is known by a contract.  For a policy that always has a value the
contract admits no fault, and the read has a branch.  A policy may also end in faults of its own, and these
are then the only ones that a read adds to those of the contract.

All this is about the computation that a call of the library makes.  The call itself only writes the location
down (`Comp.call_readHeap`).
-/

namespace SymbolicPaths

variable {V : Type} [Term V]

namespace Heap

variable {K : Contract V} {unify : Unifier V} {h : List (Chunk V)}

/-- A chunk that a group may become under a contract: at the location of the group, and if this has several
values, with one that the policy has for these. -/
structure Becomes (K : Contract V) (unify : Unifier V) (g : Group V) (c : Chunk V) : Prop where
  location : c.location = g.location
  value : 2 ≤ g.values.length → (unify g.values).Yields K c.value

variable (usable : K.Usable)

include usable

theorem meets_fuseGroup {g : Group V} (nonempty : g.values ≠ [])
    (policy : 2 ≤ g.values.length → (unify g.values).Meets K fun _ => True) :
    (fuseGroup unify g).Meets K (Becomes K unify g) := by
  obtain ⟨l, vs⟩ := g
  match vs with
  | [] => exact absurd rfl nonempty
  | [v] => exact .pure ⟨rfl, fun several => absurd several (by simp)⟩
  | v :: w :: vs =>
    refine (policy (by simp)).yielding.bind fun u hu => ?_
    exact (Run.Meets.log usable _).bind fun _ _ => .pure ⟨rfl, fun _ => hu.2⟩

/-- **A fusion makes one chunk of each group**, if the policy has values for those with several. -/
theorem meets_fuseWith (keys : ∀ c ∈ h, Term.unhashable? c.location = none)
    (policy : ∀ g ∈ groups h, 2 ≤ g.values.length → (unify g.values).Meets K fun _ => True) :
    (fuseWith unify (h.map .chunk)).Meets K (List.Forall₂ (Becomes K unify) (groups h)) := by
  rw [fuseWith, fusible_map_chunk keys, pure_bind]
  exact .each fun g hg => meets_fuseGroup usable (values_ne_nil_of_mem_groups h g hg) (policy g hg)

end Heap

namespace Comp

variable {K : Contract V} {unifier : Run V (Unifier V)} {h : List (Chunk V)} {store : Store V} {l : V}

/-- A policy under a contract: it can be looked up, and has values for the groups of a heap that have several
themselves. -/
def Unifies (K : Contract V) (unifier : Run V (Unifier V)) (h : List (Chunk V)) : Prop :=
  unifier.Meets K fun unify =>
    ∀ g ∈ Heap.groups h, 2 ≤ g.values.length → (unify g.values).Meets K fun _ => True

/-- What a read of a heap with several chunks at `l` ends in, from a context: the state is that of a
compression, with the store as it was, and the chunk at `l` has the value that the policy has for those that
were claimed, which is the result. -/
def ReadsFused (K : Contract V) (c : Context V) (unifier : Run V (Unifier V)) (store : Store V)
    (h : List (Chunk V)) (l : V) (b : Branch V V) : Prop :=
  ∃ unify g k, (unifier K.scope c).answer = .ok unify ∧
    ((compress unifier).body (.state (.ofChunks store h)) K.scope c).answer = .ok [⟨b.state, ()⟩] ∧
    b.state = .state (.ofChunks store g) ∧ (unify (Heap.valuesAt l h)).Yields K b.value ∧
    Heap.chunksAt l g = [⟨k, b.value⟩]

/-- How often a read may fuse a heap. -/
theorem heapRead_eq_heapReadWithin {attempt : Amount V} {n : Int} (hn : attempt.value = .ok n) :
    heapRead unifier l attempt = heapReadWithin unifier l (1 - n).toNat attempt := by
  rw [heapRead, hn]
  rfl

section Meets

variable (usable : K.Usable) {P : V → Prop} (agreeing : Term.Agreeing P) (located : Heap.Located P h)
  (hl : P l) (keys : ∀ c ∈ h, Term.unhashable? c.location = none) (policy : Unifies K unifier h)
  {c : Context V} (hc : K.keeps c)

include usable agreeing located hl keys policy hc

/-- A compression leaves one chunk at a location that was claimed. -/
theorem meetsFrom_compress (several : 2 ≤ (Heap.chunksAt l h).length) :
    ((compress unifier).body (.state (.ofChunks store h))).MeetsFrom K c fun bs => ∃ b, bs = [b] ∧
      ∃ v, ReadsFused K c unifier store h l ⟨b.state, v⟩ := by
  have fused : (Heap.fuse unifier (h.map .chunk)).MeetsFrom K c fun g => ∃ unify,
      (unifier K.scope c).answer = .ok unify ∧ List.Forall₂ (Heap.Becomes K unify) (Heap.groups h) g :=
    (policy hc).answering.bind fun unify ⟨asked, hunify⟩ _ hd =>
      (Heap.meets_fuseWith usable keys asked hd).imp fun _ made => ⟨unify, hunify, made⟩
  have compressed : ((compress unifier).body (.state (.ofChunks store h))).MeetsFrom K c fun bs =>
      ∃ unify g, (unifier K.scope c).answer = .ok unify ∧ bs = [⟨.state (.ofChunks store g), ()⟩] ∧
        List.Forall₂ (Heap.Becomes K unify) (Heap.groups h) g := by
    show (Run.stateWith "with_heap" _ >>= _).MeetsFrom K c _
    rw [Run.stateWith_state, pure_bind]
    exact fused.bind fun g ⟨unify, hunify, made⟩ => .pure ⟨unify, g, hunify, rfl, made⟩
  refine compressed.answering.imp ?_
  rintro _ ⟨⟨unify, g, hunify, rfl, made⟩, compressed⟩
  have claimed : Heap.chunksAt l h ≠ [] := fun none => by simp [none] at several
  obtain ⟨k, d, becomes, hd⟩ := Heap.exists_chunksAt_of_forall₂ agreeing
    (fun _ _ (h : Heap.Becomes K unify _ _) => h.location) located hl claimed made
  have values : 2 ≤ (Heap.valuesAt l h).length := by rwa [Heap.valuesAt, List.length_map]
  exact ⟨_, rfl, d.value, unify, g, d.location, hunify, compressed, rfl, becomes.value values, hd⟩

/-- **A read that may fuse the heap finds one chunk afterwards**, or the policy failed. -/
theorem meetsFrom_heapReadWithin {attempt : Amount V} {n : Int} (hn : attempt.value = .ok n) (retries : Nat)
    (several : 2 ≤ (Heap.chunksAt l h).length) :
    ((heapReadWithin unifier l (retries + 1) attempt).body (.state (.ofChunks store h))).MeetsFrom K c
      (K.Caught fun bs => ∃ b, bs = [b] ∧ ReadsFused K c unifier store h l b) := by
  obtain ⟨d, e, rest, hchunks⟩ : ∃ d e rest, Heap.chunksAt l h = d :: e :: rest := by
    match hchunks : Heap.chunksAt l h with
    | [] | [_] => simp [hchunks] at several
    | d :: e :: rest => exact ⟨d, e, rest, rfl⟩
  have counted : attempt.counted.map (· + 1) = .ok (n + 1) := by rw [Amount.counted, hn]; rfl
  have reread : (((compress unifier).andThen (heapReadWithin unifier l retries (.number (n + 1)))).apply
      (.state (.ofChunks store h))).MeetsFrom K c
        (K.Caught fun bs => ∃ b, bs = [b] ∧ ReadsFused K c unifier store h l b) := by
    refine .andThen usable (T := fun t => ∃ v, ReadsFused K c unifier store h l ⟨t, v⟩)
      (meetsFrom_compress usable agreeing located hl keys policy hc several) fun t ⟨v, ht⟩ => ?_
    obtain ⟨unify, g, k, hunify, compressed, rfl, hv, hk⟩ := ht
    rw [heapReadWithin_of_one hk]
    exact .pure (.inl ⟨_, rfl, unify, g, k, hunify, compressed, rfl, hv, hk⟩)
  rw [heapReadWithin_of_several hchunks, counted]
  show (Run.log _ >>= _).MeetsFrom K c _
  rw [Run.MeetsFrom, Run.bind_apply_of_ok (Run.log_apply_of_usable usable _ c)]
  exact reread

/-- A read that counts no fusion yet fuses a heap with several chunks at the location. -/
theorem meetsFrom_heapRead_of_several {attempt : Amount V} {n : Int} (hn : attempt.value = .ok n)
    (uncounted : n ≤ 0) (several : 2 ≤ (Heap.chunksAt l h).length) :
    ((heapRead unifier l attempt).apply (.state (.ofChunks store h))).MeetsFrom K c
      (K.Caught fun bs => ∃ b, bs = [b] ∧ ReadsFused K c unifier store h l b) := by
  obtain ⟨retries, hretries⟩ : ∃ retries, (1 - n).toNat = retries + 1 := ⟨(-n).toNat, by omega⟩
  rw [heapRead_eq_heapReadWithin hn, hretries]
  exact .apply usable
    (meetsFrom_heapReadWithin usable agreeing located hl keys policy hc hn retries several)

end Meets

/-! ## Calls -/

/-- Makes a computation and applies it. -/
def call {α : Type} (m : Run V (Comp V α)) (s : Subject V) : Run V (List (Branch V α)) := do
  (← m).apply s

/-- For a location that can be written, the call of a read makes the read. -/
theorem call_readHeap (written : ∃ text, Written.written? l = .ok text) (unifier : Run V (Unifier V))
    (attempt : Amount V) (s : Subject V) :
    call (readHeap unifier l attempt) s = (heapRead unifier l attempt).apply s := by
  rw [call, readHeap, namedAfter_of_written written, pure_bind]

/-! ## All reads -/

/-- A read that may not fuse the heap complains if there are several chunks. -/
theorem heapReadWithin_zero_of_several {attempt : Amount V} {n : Int} (hn : attempt.value = .ok n)
    (several : 2 ≤ (Heap.chunksAt l h).length) :
    (heapReadWithin unifier l 0 attempt).body (.state (.ofChunks store h))
      = Run.complain (.notUnified l (Heap.chunksAt l h).length attempt) := by
  have counted : attempt.counted = .ok n := by rw [Amount.counted, hn]
  show chunksAt l _ >>= _ = _
  rw [chunksAt_ofChunks, pure_bind]
  match hchunks : Heap.chunksAt l h with
  | [] | [_] => simp [hchunks] at several
  | c :: d :: cs =>
    simp only [counted, Run.ordered, pure_bind]

section Outcomes

variable {attempt : Amount V} {n : Int} {c : Context V}

/-- Who unifies does not matter where there are not several chunks. -/
theorem heapRead_apply_congr (few : (Heap.chunksAt l h).length < 2) (unifier' : Run V (Unifier V))
    (σ : Scope V) : (heapRead unifier l attempt).apply (.state (.ofChunks store h)) σ c
      = (heapRead unifier' l attempt).apply (.state (.ofChunks store h)) σ c := by
  have same : ∀ retries, (heapReadWithin unifier l retries attempt).body (.state (.ofChunks store h))
      = (heapReadWithin unifier' l retries attempt).body (.state (.ofChunks store h)) := by
    intro retries
    match hchunks : Heap.chunksAt l h with
    | [] => rw [heapReadWithin_of_none hchunks, heapReadWithin_of_none hchunks]
    | [d] => rw [heapReadWithin_of_one hchunks, heapReadWithin_of_one hchunks]
    | _ :: _ :: _ => exact absurd few (by simp [hchunks])
  have named : ∀ u retries, (heapReadWithin u l retries attempt).name
      = "read_heap_value(" ++ Term.written l ++ ")" := fun _ retries => by cases retries <;> rfl
  rw [heapRead, heapRead, apply_eq, apply_eq, same, named, named]

/-- A read of a location that no chunk claims fails. -/
theorem heapRead_body_of_none (none : Heap.chunksAt l h = [])
    (absent : ∃ text, (Failure.missing l).message? = .ok text) :
    (heapRead unifier l attempt).body (.state (.ofChunks store h)) = Run.stop (.failure (.missing l)) := by
  obtain ⟨text, absent⟩ := absent
  rw [heapRead, heapReadWithin_of_none none]
  show (Run.written (Failure.missing l).message? >>= fun _ => Run.stop _) = _
  rw [absent]
  rfl

variable (usable : K.Usable)

include usable

/-- A guarded read of a location that no chunk claims drops its branch. -/
theorem heapRead_of_none (none : Heap.chunksAt l h = [])
    (absent : ∃ text, (Failure.missing l).message? = .ok text) (guarded : K.scope.mode = .guarded) :
    ((heapRead unifier l attempt).apply (.state (.ofChunks store h)) K.scope c).answer = .ok [] ∧
    ((heapRead unifier l attempt).apply (.state (.ofChunks store h)) K.scope c).dropped
      = [⟨.state (.ofChunks store h), .missing l⟩] := by
  have body : (heapRead unifier l attempt).body (.state (.ofChunks store h)) = _ :=
    heapRead_body_of_none none absent
  have failed : ((heapRead unifier l attempt).body (.state (.ofChunks store h)) K.scope c).answer
      = .error (.failure (.missing l)) := by rw [body]; rfl
  obtain ⟨answer, dropped⟩ := Run.caught_of_failure guarded usable.records usable.receives failed
    (heapRead unifier l attempt).name (.state (.ofChunks store h))
  rw [apply_apply_of_failure guarded failed]
  refine ⟨answer, ?_⟩
  rw [dropped, body]
  rfl

/-- A read of a location that one chunk claims has its value. -/
theorem meets_heapRead_of_one {d : Chunk V} (one : Heap.chunksAt l h = [d]) :
    ((heapRead unifier l attempt).apply (.state (.ofChunks store h))).Meets K
      (K.Caught fun bs => bs = [⟨.state (.ofChunks store h), d.value⟩]) := by
  refine .apply usable ?_
  rw [heapRead, heapReadWithin_of_one one]
  exact .pure (.inl rfl)

omit usable in
/-- A read that counts a fusion as done ends the run if there are several chunks: with the error of a failed
unification, or if that cannot be worded, with what keeps it from being worded. -/
theorem heapRead_of_counted (hn : attempt.value = .ok n) (counted : 1 ≤ n)
    (several : 2 ≤ (Heap.chunksAt l h).length) {d : Defect V}
    (hd : (Run.complain (.notUnified l (Heap.chunksAt l h).length attempt) : Run V (List (Branch V V)))
      = Run.reject d) (σ : Scope V) :
    ((heapRead unifier l attempt).apply (.state (.ofChunks store h)) σ c).answer = .error (.defect d) := by
  rw [heapRead_eq_heapReadWithin hn, Int.toNat_of_nonpos (by omega)]
  have refused : ((heapReadWithin unifier l 0 attempt).body (.state (.ofChunks store h)) σ c).answer
      = .error (.defect d) := by
    rw [heapReadWithin_zero_of_several hn several, hd]
    rfl
  have unfailing : ∀ f, ((heapReadWithin unifier l 0 attempt).body (.state (.ofChunks store h)) σ c).answer
      ≠ .error (.failure f) := fun f hf => by
    rw [refused] at hf
    cases hf
  rw [apply_apply_of_unfailing unfailing, Run.answer_bind_of_error refused]

end Outcomes

/-- **What a read ends in.**  Let the locations of a heap be hashable, and let agreement be symmetric and
transitive on them.  Let the location that is read be one that can be written.  A policy may be passed on; let
the one that is meant be known by a usable contract, under which no fault says that a unification failed.

* A guarded read of a location that no chunk claims drops its branch.
* Where one chunk claims the location, the policy is not asked.  If the contract admits no fault, the read has
  the value of that chunk, in the state as it was.
* Where several chunks claim it and no fusion is counted, let the contract admit no fault.  Then the read has
  one branch, in the state that a compression leaves, and there the location has one chunk.  It has the value
  that the policy has for those that were claimed, and this is the result.
* That a unification failed is said only where several chunks claim the location and a fusion is counted, and
  then with the location, the number of chunks and what was counted. -/
theorem readHeap_meets {K : Contract V} (usable : K.Usable) {P : V → Prop} (agreeing : Term.Agreeing P)
    {h : List (Chunk V)} (located : Heap.Located P h) {l : V} (hl : P l)
    (written : ∃ text, Written.written? l = .ok text) (keys : ∀ c ∈ h, Term.unhashable? c.location = none)
    {meaning : V → Unifier V} {p : Option (Passed V)} (policy : Unifies K (Unifier.meant meaning p) h)
    (fair : ∀ e, K.admits e → e.kind ≠ .unification) {attempt : Amount V} {n : Int} (hn : attempt.value = .ok n)
    (absent : Heap.chunksAt l h = [] → ∃ text, (Failure.missing l).message? = .ok text)
    (told : 1 ≤ n → ∃ text, (Defect.notUnified l (Heap.chunksAt l h).length attempt).message? = .ok text)
    {c : Context V} (hc : K.keeps c) (store : Store V) {o : Outcome V (List (Branch V V))}
    (ho : call (readHeap (Unifier.meant meaning p) l attempt) (.state (.ofChunks store h)) K.scope c = o) :
    (Heap.chunksAt l h = [] → K.scope.mode = .guarded →
      o.answer = .ok [] ∧ o.dropped = [⟨.state (.ofChunks store h), .missing l⟩]) ∧
    (∀ d, Heap.chunksAt l h = [d] →
      (∀ unifier, call (readHeap unifier l attempt) (.state (.ofChunks store h)) K.scope c = o) ∧
      ((∀ e, ¬ K.admits e) → o.answer = .ok [⟨.state (.ofChunks store h), d.value⟩])) ∧
    (2 ≤ (Heap.chunksAt l h).length → n ≤ 0 → (∀ e, ¬ K.admits e) →
      ∃ b, o.answer = .ok [b] ∧ ReadsFused K c (Unifier.meant meaning p) store h l b) ∧
    ((∃ d, o.answer = .error (.defect d) ∧ d.kind = .unification) ↔
      2 ≤ (Heap.chunksAt l h).length ∧ 1 ≤ n) ∧
    (2 ≤ (Heap.chunksAt l h).length → 1 ≤ n →
      o.answer = .error (.defect (.notUnified l (Heap.chunksAt l h).length attempt))) := by
  subst ho
  simp only [call_readHeap written]
  have complains : 1 ≤ n → (Run.complain (.notUnified l (Heap.chunksAt l h).length attempt) :
      Run V (List (Branch V V))) = Run.reject (.notUnified l (Heap.chunksAt l h).length attempt) := by
    intro counted
    obtain ⟨text, told⟩ := told counted
    rw [Run.complain, told]
    rfl
  refine ⟨fun none guarded => heapRead_of_none usable none (absent none) guarded,
    fun d one => ⟨fun unifier => ?_, fun returns => ?_⟩, fun several few returns => ?_, ⟨?_, ?_⟩,
    fun several counted => ?_⟩
  · exact heapRead_apply_congr (by simp [one]) _ K.scope
  · obtain ⟨_, answer, rfl⟩ := (meets_heapRead_of_one usable one hc).exists_branches returns
    exact answer
  · obtain ⟨_, answer, b, rfl, hb⟩ := (meetsFrom_heapRead_of_several usable agreeing located hl keys
      policy hc hn few several).exists_branches returns
    exact ⟨b, answer, hb⟩
  · rintro ⟨d, hd, kind⟩
    by_contra spared
    have other : ¬ K.admits (.defect d) := fun admitted => fair _ admitted kind
    match hchunks : Heap.chunksAt l h with
    | [] =>
      cases hm : K.scope.mode with
      | guarded =>
        rw [(heapRead_of_none usable hchunks (absent hchunks) hm).1] at hd
        cases hd
      | raw =>
        rw [apply_apply_of_raw hm, heapRead_body_of_none hchunks (absent hchunks)] at hd
        cases hd
    | [e] => exact other ((meets_heapRead_of_one usable hchunks hc).admits_of_error hd)
    | _ :: _ :: _ =>
      have several : 2 ≤ (Heap.chunksAt l h).length := by simp [hchunks]
      have few : n ≤ 0 := by omega
      exact other ((meetsFrom_heapRead_of_several usable agreeing located hl keys policy hc hn few
        several).admits_of_error hd)
  · rintro ⟨several, counted⟩
    exact ⟨_, heapRead_of_counted hn counted several (complains counted) K.scope, rfl⟩
  · exact heapRead_of_counted hn counted several (complains counted) K.scope

section Instances

open Script

/-- A location of one field, of a reference that is written as a number or as a truth value. -/
def Numbered (l : Datum Empty) : Prop := ∃ r n, l = .location r (.text "f") ∧ r.number? = some n

/-- Locations of numbered references agree if the numbers are the same, whatever they are written as. -/
theorem agreeing_numbered : Term.Agreeing Numbered := by
  have same_iff : ∀ {r r' : Datum Empty} {n n' : Int}, r.number? = some n → r'.number? = some n' →
      (Term.same (Datum.location r (.text "f")) (.location r' (.text "f")) = true ↔ n = n') := by
    intro r r' n n' hr hr'
    show (Datum.same r r' && true) = true ↔ n = n'
    rw [Bool.and_true, Datum.same_of_number hr, hr', beq_iff_eq, Option.some.injEq]
    exact eq_comm
  constructor
  · rintro _ _ ⟨r, n, rfl, hr⟩ ⟨r', n', rfl, hr'⟩ h
    exact (same_iff hr' hr).2 ((same_iff hr hr').1 h).symm
  · rintro _ _ _ ⟨r, n, rfl, hr⟩ ⟨r', n', rfl, hr'⟩ ⟨r'', n'', rfl, hr''⟩ h h'
    exact (same_iff hr hr'').2 (((same_iff hr hr').1 h).trans ((same_iff hr' hr'').1 h'))

/-- Two chunks at one location, which is written in two ways. -/
def writtenTwice : List (Chunk (Datum Empty)) :=
  [⟨.location (.int 1) (.text "f"), .int 3⟩, ⟨.location (.bool true) (.text "f"), .int 7⟩]

theorem located_writtenTwice : Heap.Located Numbered writtenTwice := by
  simp [Heap.Located, writtenTwice, Numbered, Datum.number?]

/-- The location of a number can be written if the number has not more digits than are ever written. -/
theorem written_numbered {n : Int} (h : n.natAbs ≤ Text.digitLimit) (field : String) :
    ∃ text, Written.written? (.location (.int n) (.text field) : Datum Empty) = .ok text := by
  have reference : (Datum.forms (.int n : Datum Empty)).written = .ok (toString n) := by
    rw [Datum.forms, Forms.alike, numeral_of_lt (Text.lt_firstTooLong h)]
  refine ⟨toString n ++ "." ++ field, ?_⟩
  show Datum.written? (.location (.int n) (.text field)) = _
  rw [Datum.written?, Datum.forms, reference, Datum.forms]
  rfl

/-- The largest value is meant, whatever is in force. -/
def largest : Run (Datum Empty) (Unifier (Datum Empty)) :=
  Unifier.meant (fun _ _ => Run.reject .nothingToUnify) (some ⟨Unifier.maxTerm, true⟩)

/-- A policy is meant that has no value, but an error of its own. -/
def raising (kind : ErrorKind) : Run (Datum Empty) (Unifier (Datum Empty)) :=
  Unifier.meant (fun _ _ => Run.reject .nothingToUnify) (some ⟨fun _ => Run.reject (.raised kind []), true⟩)

/-- The larger of two values is read where settings can be read; and a policy that raises an error of its own
is not blamed for a failed unification, unless a fusion is counted already. -/
theorem readHeap_writtenTwice :
    (Contract.total (.of .guarded) (Context.Loadable (V := Datum Empty))).Usable ∧
    (Contract.sparing (V := Datum Empty) (.of .guarded) .unification).Usable ∧
    Term.Agreeing Numbered ∧ Heap.Located Numbered writtenTwice ∧
    ((heapRead largest (.location (.int 1) (.text "f")) (.number 0)).apply
      (.state (.ofChunks .empty writtenTwice)) (.of .guarded) {}).answer
        = .ok [⟨.state (.ofChunks .empty [⟨.location (.int 1) (.text "f"), .int 7⟩]), .int 7⟩] ∧
    (∃ b, (call (readHeap largest (.location (.int 1) (.text "f")) (.number 0))
        (.state (.ofChunks .empty writtenTwice)) (.of .guarded) {}).answer = .ok [b] ∧
      ReadsFused (.total (.of .guarded) Context.Loadable) {} largest .empty
        writtenTwice (.location (.int 1) (.text "f")) b) ∧
    ¬ (∃ d, (call (readHeap (raising .value) (.location (.int 1) (.text "f")) (.number 0))
      (.state (.ofChunks .empty writtenTwice)) (.of .guarded) {}).answer = .error (.defect d) ∧
        d.kind = .unification) := by
  have usable := Contract.usable_total (V := Datum Empty) (σ := .of .guarded) (fun _ => rfl) (fun _ => rfl)
    (fun _ loadable => loadable) fun c loadable => loadable.of_primed_eq c.primed_primed.symm
  have sparing := Contract.usable_sparing (V := Datum Empty) (σ := .of .guarded) (fun _ => rfl) (fun _ => rfl)
    (by decide : ErrorKind.unification ≠ .value) (by decide)
  have keys : ∀ c ∈ writtenTwice, Term.unhashable? c.location = none := by decide
  have here : Numbered (.location (.int 1) (.text "f")) := ⟨.int 1, 1, rfl, rfl⟩
  have written := written_numbered (by decide : (1 : Int).natAbs ≤ Text.digitLimit) "f"
  have larger : Unifies (.total (.of .guarded) Context.Loadable) largest writtenTwice := by
    refine Run.Meets.pure fun g hg _ => ?_
    obtain rfl : g = ⟨.location (.int 1) (.text "f"), [.int 3, .int 7]⟩ := List.mem_singleton.1 hg
    exact Run.Meets.pure (a := (.int 7 : Datum Empty)) trivial
  have failing : Unifies (.sparing (.of .guarded) .unification) (raising .value) writtenTwice :=
    Run.Meets.pure fun _ _ _ => .stop (by decide : ErrorKind.value ≠ .unification)
  have found := readHeap_meets usable agreeing_numbered located_writtenTwice here written keys larger
    (fun _ => False.elim) (Amount.value_number 0) (fun none => nomatch none)
    (fun counted => absurd counted (by decide)) Context.loadable_default .empty rfl
  have raised := readHeap_meets sparing agreeing_numbered located_writtenTwice here written keys failing
    (fun _ admitted => admitted) (Amount.value_number 0) (fun none => nomatch none)
    (fun counted => absurd counted (by decide)) (c := {}) trivial .empty rfl
  refine ⟨usable, sparing, agreeing_numbered, located_writtenTwice, rfl, ?_, fun failed => ?_⟩
  · exact found.2.2.1 (by decide) (by decide) fun _ => id
  · exact absurd (raised.2.2.2.1.1 failed).2 (by decide)

/-- A location that cannot be written: its reference is a state with names that cannot be sorted. -/
def unwritable : Datum Empty := .location (.state [(.null, .null), (.text "a", .null)] []) (.text "f")

/-- **What keeps a read from that.**  A read of a location with one chunk ends in a defect where there are no
settings to read, and so does the call of one if the location cannot be written.  A read of a location with two
chunks, with more fusions counted than can be written, ends in the defect of writing that number.  And a policy
that raises the error of a failed unification ends a read with it that counts no fusion. -/
theorem readHeap_beyond_contract :
    Heap.chunksAt (.location (.bool true) (.text "f")) [writtenTwice[0]] = [writtenTwice[0]] ∧
    (call (readHeap largest (.location (.bool true) (.text "f")) (.number 0))
      (.state (.ofChunks .empty [writtenTwice[0]])) (.of .guarded) .misconfigured).answer
        = .error (.defect (.settings (.malformedCap "abc"))) ∧
    Heap.chunksAt unwritable [⟨unwritable, .int 3⟩] = [⟨unwritable, .int 3⟩] ∧
    (readHeap largest unwritable (.number 0) (.of .guarded) {}).answer.map Comp.name
      = .error (.defect (.incomparable "<" ⟨"str", "NoneType", false⟩)) ∧
    Heap.chunksAt (.location (.bool true) (.text "f")) writtenTwice = writtenTwice ∧
    (∃ n : Int, 1 ≤ n ∧
      (call (readHeap largest (.location (.bool true) (.text "f")) (.number n))
        (.state (.ofChunks .empty writtenTwice)) (.of .guarded) {}).answer = .error (.defect .tooLong)) ∧
    (call (readHeap (raising .unification) (.location (.bool true) (.text "f")) (.number 0))
      (.state (.ofChunks .empty writtenTwice)) (.of .guarded) {}).answer
        = .error (.defect (.raised .unification [])) := by
  -- the number is named, so that nothing tries to write out its digits
  obtain ⟨N, hN⟩ : ∃ N, Text.firstTooLong = N := ⟨_, rfl⟩
  have positive : (1 : Int) ≤ (N + 1 : Nat) := by omega
  have unwritten : numeral (N + 1 : Nat) = .error .tooLong :=
    numeral_of_le (hN.symm ▸ Nat.le_succ N)
  refine ⟨rfl, rfl, rfl, rfl, rfl, ⟨_, positive, ?_⟩, rfl⟩
  rw [call_readHeap ⟨_, rfl⟩]
  refine heapRead_of_counted (Amount.value_number _) positive (by decide) ?_ _
  show (Run.written (Defect.message? _) >>= fun _ => _) = _
  rw [Defect.message?, Amount.shown?, unwritten]
  rfl

end Instances

end Comp

end SymbolicPaths
