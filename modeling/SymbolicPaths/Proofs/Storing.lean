import SymbolicPaths.Proofs.Overwriting
import SymbolicPaths.Proofs.Reading
/-!
# The heap as a store

Writes, compressions and reads of a heap are computations, and each of them comes to one branch or loses one.
This file says what they come to, and with that the equations of a store become equations of lists of chunks
(`SymbolicPaths.Proofs.Overwriting`).

* A computation that loses a branch cannot be told from the report that the branch was dropped (`Run.Loses`).
  A sequence loses what its first part loses, and what its second part loses where the first one has a branch.
* A read of a location that is claimed has the value that the claims settle for, in the heap as it was if there
  is one chunk, and else in the fused heap (`Comp.heapRead_comes`).  What it was made to fuse may be any other
  location as well.
* A write puts its value into every chunk at the location, so what is read afterwards is what a policy makes of
  one value throughout.  This is why policies have to take such a value (`Heap.Constant`).
-/

namespace SymbolicPaths

variable {V α β : Type} [Term V]

/-! ## Losing a branch -/

namespace Run

/-- The run that drops a branch and has no other. -/
def lost (d : Dropped V) : Run V (List α) := fun _ c => ⟨.ok [], c, [.dropped d]⟩

/-- Where runs are guarded and served, the branch can be received and a policy is in force, nobody could tell a
run from dropping the branch. -/
def Loses (policy : Policy V) (x : Run V (List α)) (d : Dropped V) : Prop :=
  ∀ ⦃σ : Scope V⦄ ⦃c : Context V⦄, σ.Serves c → σ.mode = .guarded → σ.receives d = .ok () →
    c.policy = policy → Outcome.Alike σ (x σ c) (lost d σ c)

variable {policy : Policy V} {d : Dropped V} {m : Comp V α} {f : α → Run V (Comp V β)} {s u : Subject V} {a : α}

omit [Term V] in
theorem contained_lost : (lost d : Run V (List α)).Contained := fun _ _ _ _ h => by cases h

/-- A sequence loses what its second part loses, from where the first one comes to. -/
theorem Comes.bind_loses {x : Run V α} {k : α → Run V (List β)} (h : x.Comes policy (.ok a))
    (hk : (k a).Loses policy d) : (x >>= k).Loses policy d := by
  intro σ c served guarded received hc
  have alike := h served hc
  obtain ⟨served', hc'⟩ := h.served served hc
  have next := hk served' guarded received hc'
  have answer : (x σ c).answer = .ok a := alike.answer
  have nothing : (x σ c).news = [] := alike.news
  refine ⟨?_, ?_, ?_, ?_⟩
  · rw [answer_bind_of_ok answer, next.answer]
    rfl
  · rw [news_bind_of_ok answer, nothing, next.news]
    rfl
  · rw [context_bind_of_ok answer, next.context]
    exact alike.context
  · rw [context_bind_of_ok answer]
    exact next.serves

namespace Loses

/-- A sequence loses what its first part loses, if no branches are gone on with to none. -/
theorem bind {x : Run V (List α)} {k : List α → Run V (List β)} (h : x.Loses policy d)
    (hk : k [] = pure []) : (x >>= k).Loses policy d := by
  intro σ c served guarded received hc
  have alike := h served guarded received hc
  have answer : (x σ c).answer = .ok [] := alike.answer
  have news : (x σ c).news = [.dropped d] := alike.news
  refine ⟨?_, ?_, ?_, ?_⟩
  · rw [answer_bind_of_ok answer, hk]
    rfl
  · rw [news_bind_of_ok answer, hk, news]
    rfl
  · rw [context_bind_of_ok answer, hk]
    exact alike.context
  · rw [context_bind_of_ok answer, hk]
    exact alike.serves

/-- An application loses what its body loses. -/
theorem apply (h : (m.body s).Loses policy d) : (m.apply s).Loses policy d := by
  intro σ c served guarded received hc
  have applied := Comp.apply_alike_caught (y := lost d) (h served guarded received hc) m.name
  rw [caught_of_contained contained_lost] at applied
  exact applied

/-- An application whose body is a failure loses the branch that it was applied to. -/
theorem of_stop {e : Failure V} (h : m.body s = stop (.failure e)) : (m.apply s).Loses policy ⟨s, e⟩ := by
  intro σ c served guarded received _
  have failed : Outcome.Alike σ (m.body s σ c) (stop (.failure e) σ c) := by
    rw [h]
    exact .refl_of_serves served
  have caught := caught_apply_of_received (x := (stop (.failure e) : Run V (List (Branch V α)))) (c := c) guarded
    served.records received rfl m.name
  have applied := Comp.apply_alike_caught (y := stop (.failure e)) failed m.name
  rw [caught] at applied
  exact applied.trans ⟨rfl, rfl, rfl, served⟩

/-- A sequence of computations loses what the first one loses. -/
theorem bindComp (h : (m.apply s).Loses policy d) : ((m.bind f).apply s).Loses policy d :=
  Loses.apply (h.bind rfl)

theorem map {g : α → Run V β} (h : (m.apply s).Loses policy d) : ((m.map g).apply s).Loses policy d :=
  Loses.apply (h.bind rfl)

end Loses

namespace Comes

/-- And what the second one loses, applied to the branch of the first one. -/
theorem bindComp_loses (h : (m.apply s).Comes policy (.ok [⟨u, a⟩]))
    (hf : (f a >>= fun k => k.apply u).Loses policy d) : ((m.bind f).apply s).Loses policy d := by
  refine Loses.apply ?_
  rw [Comp.bind_body]
  refine h.bind_loses ?_
  rw [flatMap_cons_eq_joined, flatMap_nil, joined_nil]
  exact Loses.apply (m := Comp.defer (m.name ++ " >>=") (f a)) hf

theorem andThen_loses {k : Comp V β} (h : (m.apply s).Comes policy (.ok [⟨u, a⟩]))
    (hk : (k.apply u).Loses policy d) : ((m.andThen k).apply s).Loses policy d :=
  h.bindComp_loses (by rwa [pure_bind])

end Comes

end Run

/-- Two runs come to one and the same branch. -/
def Run.Converge (policy : Policy V) (x y : Run V (List (Branch V α))) : Prop :=
  ∃ b, x.Comes policy (.ok [b]) ∧ y.Comes policy (.ok [b])

/-! ## Heaps that can be unified -/

namespace Unifier

variable {Q : V → Prop} (ordered : Term.Ordered Q)

include ordered

theorem total_maxAnswer : Heap.Total Q maxAnswer := fun vs several hvs =>
  exists_maxAnswer ordered hvs fun none => by simp [none] at several

theorem constant_maxAnswer : Heap.Constant Q maxAnswer := by
  intro v n hv several
  have throughout : ∀ w, w ∈ List.replicate n v ↔ w ∈ [v] := fun w => by
    rw [List.mem_replicate, List.mem_singleton]
    exact and_iff_right (by omega)
  rw [maxAnswer_congr ordered (fun w hw => (List.eq_of_mem_replicate hw) ▸ hv) throughout]
  rfl

end Unifier

namespace Heap

/-- A heap whose locations are usable as keys, with values of a kind for which the policy has a value whenever
there are several.  To agree is an equivalence on the locations. -/
structure Unifiable (policy : Policy V) (unifier : Run V (Unifier V)) (choice : List V → Except (Fault V) V)
    (P Q : V → Prop) (h : List (Chunk V)) : Prop where
  provides : Run.Provides policy unifier choice
  total : Total Q choice
  equivalent : Term.Equivalent P
  located : Located P h
  keys : ∀ c ∈ h, Term.unhashable? c.location = none
  values : ∀ c ∈ h, Q c.value

/-- The heap that a read leaves, of the heap that it finds and what this is fused to. -/
def afterRead (l : V) (h m : List (Chunk V)) : List (Chunk V) := if 2 ≤ (chunksAt l h).length then m else h

namespace Unifiable

variable {policy : Policy V} {unifier : Run V (Unifier V)} {choice : List V → Except (Fault V) V}
  {P Q : V → Prop} {h m : List (Chunk V)} {l v : V} (unifiable : Unifiable policy unifier choice P Q h)

include unifiable

theorem overwrite (hv : Q v) (l : V) : Unifiable policy unifier choice P Q (Heap.overwrite l v h) where
  provides := unifiable.provides
  total := unifiable.total
  equivalent := unifiable.equivalent
  located c hc := by
    obtain ⟨d, hd, location, -⟩ := exists_of_mem_overwrite hc
    exact location ▸ unifiable.located d hd
  keys c hc := by
    obtain ⟨d, hd, location, -⟩ := exists_of_mem_overwrite hc
    exact location ▸ unifiable.keys d hd
  values c hc := by
    obtain ⟨d, hd, -, value | value⟩ := exists_of_mem_overwrite hc
    · exact value ▸ hv
    · exact value ▸ unifiable.values d hd

theorem exists_fused : ∃ m, fused choice h = .ok m :=
  Heap.exists_fused unifiable.equivalent unifiable.located unifiable.total unifiable.values

variable (hm : fused choice h = .ok m) (s : Store V)

include hm

/-- A compression leaves the fused heap. -/
theorem compress_comes : ((Comp.compress unifier).apply (.state (.ofChunks s h))).Comes policy
    (.ok [⟨.state (.ofChunks s m), ()⟩]) := by
  have told := Comp.compress_tells unifiable.provides unifiable.equivalent unifiable.located unifiable.keys s
  rw [hm] at told
  exact .apply told.comes

variable (hl : P l) (claims : chunksAt l h ≠ []) (hv : settled choice (valuesAt l h) = .ok v)

include hl claims hv

/-- What is read of the fused heap is what the claims settle for. -/
theorem heapRead_comes_of_fused :
    ((Comp.heapRead unifier l (.number 0)).apply (.state (.ofChunks s m))).Comes policy
      (.ok [⟨.state (.ofChunks s m), v⟩]) := by
  obtain ⟨c, one, value⟩ := exists_chunksAt_of_fused unifiable.equivalent unifiable.located hl hm claims
  obtain rfl : v = c.value := Except.ok.inj (hv.symm.trans value)
  exact .apply (Comp.heapRead_comes_of_one one)

/-- **A read has the value that the claims settle for**, and leaves the heap as it is unless there are several. -/
theorem heapRead_comes :
    ((Comp.heapRead unifier l (.number 0)).apply (.state (.ofChunks s h))).Comes policy
      (.ok [⟨.state (.ofChunks s (afterRead l h m)), v⟩]) := by
  by_cases several : 2 ≤ (chunksAt l h).length
  · obtain ⟨c, one, value⟩ := exists_chunksAt_of_fused unifiable.equivalent unifiable.located hl hm claims
    obtain rfl : v = c.value := Except.ok.inj (hv.symm.trans value)
    rw [afterRead, if_pos several]
    exact .apply (Comp.heapRead_comes_of_several several (unifiable.compress_comes hm s) one)
  · rw [afterRead, if_neg several]
    match hchunks : chunksAt l h with
    | [] => exact absurd hchunks claims
    | [c] =>
      rw [valuesAt, hchunks] at hv
      obtain rfl : c.value = v := Except.ok.inj hv
      exact .apply (Comp.heapRead_comes_of_one hchunks)
    | _ :: _ :: _ => simp [hchunks] at several

end Unifiable

end Heap

namespace Comp

variable {policy : Policy V} {unifier : Run V (Unifier V)} {choice : List V → Except (Fault V) V}
  {P Q : V → Prop} {h m : List (Chunk V)} {l v : V}

variable (policy) in
theorem heapWrite_comes (l v : V) (s : Store V) (h : List (Chunk V)) :
    ((heapWrite l v).apply (.state (.ofChunks s h))).Comes policy
      (.ok [⟨.state (.ofChunks s (Heap.overwrite l v h)), ()⟩]) := by
  refine .apply ?_
  rw [heapWrite_body_ofChunks]
  exact (Run.tells_pure _).comes

/-- A read of a location that no chunk claims loses its branch. -/
theorem heapRead_loses (unclaimed : Heap.chunksAt l h = [])
    (absent : ∃ text, (Failure.missing l).message? = .ok text) (s : Store V) :
    ((heapRead unifier l (.number 0)).apply (.state (.ofChunks s h))).Loses policy
      ⟨.state (.ofChunks s h), .missing l⟩ :=
  .of_stop (heapRead_body_of_none unclaimed absent)

/-! ## The equations of a store -/

/-- Of two writes at one location the second one counts. -/
theorem heapWrite_heapWrite (l v w : V) (s : Store V) (h : List (Chunk V)) :
    Run.Converge policy (((heapWrite l v).andThen (heapWrite l w)).apply (.state (.ofChunks s h)))
      ((heapWrite l w).apply (.state (.ofChunks s h))) := by
  have second := heapWrite_comes policy l w s (Heap.overwrite l v h)
  rw [Heap.overwrite_overwrite] at second
  exact ⟨_, (heapWrite_comes policy l v s h).andThen second, heapWrite_comes policy l w s h⟩

section Unifiable

variable (unifiable : Heap.Unifiable policy unifier choice P Q h) (hl : P l) (s : Store V)

include unifiable hl

/-- Writes at locations that do not agree change places. -/
theorem heapWrite_comm {k w : V} (hk : P k) (hkl : ¬ Term.same k l = true) :
    Run.Converge policy (((heapWrite l v).andThen (heapWrite k w)).apply (.state (.ofChunks s h)))
      (((heapWrite k w).andThen (heapWrite l v)).apply (.state (.ofChunks s h))) := by
  have second := heapWrite_comes policy k w s (Heap.overwrite l v h)
  rw [Heap.overwrite_comm unifiable.equivalent unifiable.located hk hl hkl] at second
  exact ⟨_, (heapWrite_comes policy l v s h).andThen second,
    (heapWrite_comes policy k w s h).andThen (heapWrite_comes policy l v s _)⟩

variable (constant : Heap.Constant Q choice) (hv : Q v)

include constant hv

/-- **Writes and compressions change places.** -/
theorem heapWrite_compress_comm :
    Run.Converge policy (((heapWrite l v).andThen (compress unifier)).apply (.state (.ofChunks s h)))
      (((compress unifier).andThen (heapWrite l v)).apply (.state (.ofChunks s h))) := by
  obtain ⟨m, hm⟩ := unifiable.exists_fused
  have hm' := Heap.fused_overwrite unifiable.equivalent unifiable.located hl constant hv hm
  exact ⟨_, (heapWrite_comes policy l v s h).andThen ((unifiable.overwrite hv l).compress_comes hm' s),
    (unifiable.compress_comes hm s).andThen (heapWrite_comes policy l v s m)⟩

/-- **What was written is read.** -/
theorem heapWrite_heapRead (claims : Heap.chunksAt l h ≠ []) :
    ∃ t, (((heapWrite l v).andThen (heapRead unifier l (.number 0))).apply (.state (.ofChunks s h))).Comes policy
      (.ok [⟨t, v⟩]) := by
  obtain ⟨m, hm⟩ := unifiable.exists_fused
  have hm' := Heap.fused_overwrite unifiable.equivalent unifiable.located hl constant hv hm
  have claims' : Heap.chunksAt l (Heap.overwrite l v h) ≠ [] := by
    rw [Heap.chunksAt_overwrite]
    exact fun none => claims (List.map_eq_nil_iff.1 none)
  have settled : Heap.settled choice (Heap.valuesAt l (Heap.overwrite l v h)) = .ok v := by
    rw [Heap.valuesAt_overwrite_self]
    exact constant.settled hv fun none => claims (List.map_eq_nil_iff.1 none)
  exact ⟨_, (heapWrite_comes policy l v s h).andThen
    ((unifiable.overwrite hv l).heapRead_comes hm' s hl claims' settled)⟩

/-- **What is read elsewhere is what was read before the write.** -/
theorem heapWrite_heapRead_of_not_same {k : V} (hk : P k) (hkl : ¬ Term.same k l = true)
    (claims : Heap.chunksAt k h ≠ []) : ∃ u t t',
      ((heapRead unifier k (.number 0)).apply (.state (.ofChunks s h))).Comes policy (.ok [⟨t, u⟩]) ∧
      (((heapWrite l v).andThen (heapRead unifier k (.number 0))).apply (.state (.ofChunks s h))).Comes policy
        (.ok [⟨t', u⟩]) := by
  obtain ⟨m, hm⟩ := unifiable.exists_fused
  have hm' := Heap.fused_overwrite unifiable.equivalent unifiable.located hl constant hv hm
  obtain ⟨c, -, settled⟩ := Heap.exists_chunksAt_of_fused unifiable.equivalent unifiable.located hk hm claims
  have same : Heap.chunksAt k (Heap.overwrite l v h) = Heap.chunksAt k h :=
    Heap.chunksAt_overwrite_of_not_same unifiable.equivalent unifiable.located hk hl hkl v
  have settled' : Heap.settled choice (Heap.valuesAt k (Heap.overwrite l v h)) = .ok c.value := by
    rw [Heap.valuesAt, same]
    exact settled
  exact ⟨c.value, _, _, unifiable.heapRead_comes hm s hk claims settled, (heapWrite_comes policy l v s h).andThen
    ((unifiable.overwrite hv l).heapRead_comes hm' s hk (by rwa [same]) settled')⟩

end Unifiable

/-- Makes two computations, one after the other, and of them the one that goes on with the second. -/
def thenCall {α β : Type} (first : Run V (Comp V α)) (second : Run V (Comp V β)) : Run V (Comp V β) := do
  return (← first).andThen (← second)

open Unifier (meant) in
/-- **The heap is a store.**  A policy may be passed on; take a heap that can be unified with the one that is
meant, and let this take a value which is claimed throughout.  Take locations `k` and `l` that can be written
and do not agree, and values `v` and `w`.  Wherever runs are served under the policy in force, nobody could tell
them from the following.

* To write and to compress change places: both orders come to the same state.
* Where a location is claimed, what was written there is read.  Where it is not, a write leaves the state as it
  is, and a read loses the branch, if its message can be written.
* Of two writes at one location the second one counts, and writes at two locations change places.
* A write at one location changes neither the chunks at the other one nor the value that is read there, nor
  whether there is one to read. -/
theorem store_equations {meaning : V → Unifier V} {p : Option (Passed V)}
    (unifiable : Heap.Unifiable policy (meant meaning p) choice P Q h)
    (constant : Heap.Constant Q choice) {k w : V} (hk : P k) (hl : P l) (hkl : ¬ Term.same k l = true) (hv : Q v)
    (writtenk : ∃ text, Written.written? k = .ok text) (writtenl : ∃ text, Written.written? l = .ok text)
    (absentk : Heap.chunksAt k h = [] → ∃ text, (Failure.missing k).message? = .ok text)
    (absentl : Heap.chunksAt l h = [] → ∃ text, (Failure.missing l).message? = .ok text)
    {s : Store V} {S : Subject V} (hS : S = .state (.ofChunks s h)) :
    Run.Converge policy (call (thenCall (writeHeap l v) (Pure.pure (compress (meant meaning p)))) S)
      (call (thenCall (Pure.pure (compress (meant meaning p))) (writeHeap l v)) S) ∧
    (Heap.chunksAt l h ≠ [] → ∃ t,
      (call (thenCall (writeHeap l v) (readHeap (meant meaning p) l (.number 0))) S).Comes policy
        (.ok [⟨t, v⟩])) ∧
    (Heap.chunksAt l h = [] → (call (writeHeap l v) S).Comes policy (.ok [⟨S, ()⟩]) ∧
      (call (thenCall (writeHeap l v) (readHeap (meant meaning p) l (.number 0))) S).Loses policy
        ⟨S, .missing l⟩) ∧
    Run.Converge policy (call (thenCall (writeHeap l v) (writeHeap l w)) S) (call (writeHeap l w) S) ∧
    Run.Converge policy (call (thenCall (writeHeap l v) (writeHeap k w)) S)
      (call (thenCall (writeHeap k w) (writeHeap l v)) S) ∧
    ∃ t, (call (writeHeap l v) S).Comes policy (.ok [⟨t, ()⟩]) ∧ chunksAt k t = chunksAt k S ∧
      (Heap.chunksAt k h ≠ [] → ∃ u r r',
        (call (readHeap (meant meaning p) k (.number 0)) S).Comes policy (.ok [⟨r, u⟩]) ∧
        (call (thenCall (writeHeap l v) (readHeap (meant meaning p) k (.number 0))) S).Comes policy
          (.ok [⟨r', u⟩])) ∧
      (Heap.chunksAt k h = [] →
        (call (readHeap (meant meaning p) k (.number 0)) S).Loses policy ⟨S, .missing k⟩ ∧
        (call (thenCall (writeHeap l v) (readHeap (meant meaning p) k (.number 0))) S).Loses policy
          ⟨t, .missing k⟩) := by
  subst hS
  -- every call makes its computation
  simp only [call, thenCall, writeHeap, readHeap, namedAfter_of_written writtenk,
    namedAfter_of_written writtenl, pure_bind]
  have elsewhere : Heap.chunksAt k (Heap.overwrite l v h) = Heap.chunksAt k h :=
    Heap.chunksAt_overwrite_of_not_same unifiable.equivalent unifiable.located hk hl hkl v
  refine ⟨heapWrite_compress_comm unifiable hl s constant hv, heapWrite_heapRead unifiable hl s constant hv,
    fun unclaimed => ?_, heapWrite_heapWrite l v w s h, heapWrite_comm unifiable hl s hk hkl,
    _, heapWrite_comes policy l v s h, ?_, heapWrite_heapRead_of_not_same unifiable hl s constant hv hk hkl,
    fun unclaimed => ⟨?_, ?_⟩⟩
  · have written := heapWrite_comes policy l v s h
    rw [Heap.overwrite_of_unclaimed unclaimed] at written
    exact ⟨written, written.andThen_loses (heapRead_loses unclaimed (absentl unclaimed) s)⟩
  · rw [chunksAt_ofChunks, chunksAt_ofChunks, elsewhere]
  · exact heapRead_loses unclaimed (absentk unclaimed) s
  · exact (heapWrite_comes policy l v s h).andThen_loses
      (heapRead_loses (elsewhere.trans unclaimed) (absentk unclaimed) s)

section Instances

open Script

/-- A location of one field. -/
def cellOf (n : Int) : Datum Empty := .location (.int n) (.text "f")

theorem written_cellOf {n : Int} (h : n.natAbs ≤ Text.digitLimit) :
    ∃ text, Written.written? (cellOf n) = .ok text := written_numbered h "f"

/-- A location without chunks. -/
def nowhere : Datum Empty := .location (.text "r") (.text "g")

/-- Chunks with numbers, some of them at one location, which the largest number unifies. -/
theorem unifiable_interleaved : Heap.Unifiable .maxTerm largest Unifier.maxAnswer
    Datum.WellKeyed (fun v => ∃ n, v = .int n) Heap.interleaved where
  provides := Run.provides_maxTerm _
  total := Unifier.total_maxAnswer Datum.ordered_int
  equivalent := Datum.equivalent_wellKeyed
  located := by simp [Heap.Located, Heap.interleaved, Datum.WellKeyed]
  keys := by
    simp only [Heap.interleaved, List.forall_mem_cons]
    exact ⟨rfl, rfl, rfl, rfl, rfl, List.forall_mem_nil _⟩
  values := by simp [Heap.interleaved]

/-- A call of a read of the largest value. -/
def largestAt (l : Datum Empty) : Run (Datum Empty) (Comp (Datum Empty) (Datum Empty)) :=
  readHeap largest l (.number 0)

/-- A number is written to a location with two chunks and read there, another location with two chunks is read
after that, and a number is written to a location without chunks. -/
theorem store_equations_interleaved :
    Heap.Constant (fun v => ∃ n, v = .int n) (Unifier.maxAnswer (V := Datum Empty)) ∧
    (∃ t, (call (thenCall (writeHeap (cellOf 1) (.int 9)) (largestAt (cellOf 1)))
      (.state (.ofChunks .empty Heap.interleaved))).Comes .maxTerm (.ok [⟨t, .int 9⟩])) ∧
    (∃ u r r', (call (largestAt (cellOf 2)) (.state (.ofChunks .empty Heap.interleaved))).Comes .maxTerm
        (.ok [⟨r, u⟩]) ∧
      (call (thenCall (writeHeap (cellOf 1) (.int 9)) (largestAt (cellOf 2)))
        (.state (.ofChunks .empty Heap.interleaved))).Comes .maxTerm (.ok [⟨r', u⟩])) ∧
    (call (thenCall (writeHeap nowhere (.int 9)) (largestAt nowhere))
      (.state (.ofChunks .empty Heap.interleaved))).Loses .maxTerm
        ⟨.state (.ofChunks .empty Heap.interleaved), .missing nowhere⟩ := by
  have constant := Unifier.constant_maxAnswer (Datum.ordered_int (P := Empty))
  have number : ∃ n, (.int 9 : Datum Empty) = .int n := ⟨9, rfl⟩
  have one := written_cellOf (by decide : (1 : Int).natAbs ≤ Text.digitLimit)
  have two := written_cellOf (by decide : (2 : Int).natAbs ≤ Text.digitLimit)
  obtain ⟨-, read, -, -, -, _, -, -, elsewhere, -⟩ := store_equations unifiable_interleaved constant
    (k := cellOf 2) (l := cellOf 1) (w := .int 4) ⟨trivial, trivial⟩ ⟨trivial, trivial⟩ (by decide) number
    two one (fun none => nomatch none) (fun none => nomatch none) (s := .empty) rfl
  obtain ⟨-, -, unclaimed, -⟩ := store_equations unifiable_interleaved constant
    (k := cellOf 2) (l := nowhere) (w := .int 4) ⟨trivial, trivial⟩ ⟨trivial, trivial⟩ (by decide) number
    two ⟨_, rfl⟩ (fun none => nomatch none) (fun _ => ⟨_, rfl⟩) (s := .empty) rfl
  exact ⟨constant, read (List.cons_ne_nil _ _), elsewhere (List.cons_ne_nil _ _), (unclaimed rfl).2⟩

/-- Without settings to read, what was written cannot be read: the first success ends in a defect.  And to a
location that cannot be written down nothing can be written either, though there is a chunk. -/
theorem store_equations_need_settings :
    (Heap.chunksAt (cellOf 1) Heap.interleaved).length = 2 ∧
    (call (thenCall (writeHeap (cellOf 1) (.int 9)) (largestAt (cellOf 1)))
      (.state (.ofChunks .empty Heap.interleaved)) (.of .guarded) .misconfigured).answer
        = .error (.defect (.settings (.malformedCap "abc"))) ∧
    (Heap.chunksAt unwritable [⟨unwritable, .int 3⟩]).length = 1 ∧
    (call (thenCall (writeHeap unwritable (.int 9)) (largestAt unwritable))
      (.state (.ofChunks .empty [⟨unwritable, .int 3⟩])) (.of .guarded) {}).answer
        = .error (.defect (.incomparable "<" ⟨"str", "NoneType", false⟩)) := by
  refine ⟨rfl, ?_, rfl, rfl⟩
  simp only [call, thenCall, largestAt, writeHeap, readHeap, pure_bind,
    namedAfter_of_written (written_cellOf (by decide : (1 : Int).natAbs ≤ Text.digitLimit))]
  rfl

end Instances

end Comp

end SymbolicPaths
