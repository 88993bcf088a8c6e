import SymbolicPaths.Proofs.Storing
/-!
# Reading twice

A read may fuse the whole heap, and so change what another read finds.  It does not change what the other one
has in the end: the heap that is there is either the one that both started from or the one that this is fused
to, and a location has the same value in both (`Heap.Unifiable.heapRead_comes`,
`Heap.Unifiable.heapRead_comes_of_fused`).  A heap that was fused is not fused once more, since there is one
chunk at each location.

So the order of two reads makes no difference, to the values and to the heap that they leave
(`Heap.Unifiable.heapReadThen_comes`); a read can be repeated; and a compression before a read can be left out.  All
this holds of any policy that has a value when it is asked.
-/

namespace SymbolicPaths

variable {V α β : Type} [Term V]

namespace Comp

/-- Reads a location and then another one, and makes something of both values. -/
def heapReadThen (unifier : Run V (Unifier V)) (k l : V) (f : V → V → α) : Comp V α :=
  (heapRead unifier k (.number 0)).bind fun v =>
    Pure.pure ((heapRead unifier l (.number 0)).map fun w => Pure.pure (f v w))

/-- The calls that do so: the second read is called for when the first one has a value. -/
def readThen (unifier : Run V (Unifier V)) (k l : V) (f : V → V → α) : Run V (Comp V α) := do
  let first ← readHeap unifier k (.number 0)
  return first.bind fun v => do
    let second ← readHeap unifier l (.number 0)
    return second.map fun w => Pure.pure (f v w)

/-- For locations that can be written, the calls make the reads. -/
theorem call_readThen {k l : V} (writtenk : ∃ text, Written.written? k = .ok text)
    (writtenl : ∃ text, Written.written? l = .ok text) (unifier : Run V (Unifier V)) (f : V → V → α)
    (s : Subject V) : call (readThen unifier k l f) s = (heapReadThen unifier k l f).apply s := by
  simp only [call, readThen, heapReadThen, readHeap, namedAfter_of_written writtenk,
    namedAfter_of_written writtenl, pure_bind]

end Comp

namespace Heap

/-- The heap that two reads leave. -/
def afterReads (k l : V) (h m : List (Chunk V)) : List (Chunk V) :=
  if 2 ≤ (chunksAt k h).length ∨ 2 ≤ (chunksAt l h).length then m else h

theorem afterReads_comm (k l : V) (h m : List (Chunk V)) : afterReads k l h m = afterReads l k h m :=
  if_congr or_comm rfl rfl

theorem afterRead_afterRead (k l : V) (h m : List (Chunk V)) :
    afterRead l (afterRead k h m) m = afterReads k l h m := by
  by_cases several : 2 ≤ (chunksAt k h).length
  · rw [afterReads, if_pos (.inl several), afterRead, afterRead, if_pos several, ite_self]
  · simp only [afterRead, afterReads, several, if_false, false_or]

namespace Unifiable

open SymbolicPaths.Comp

variable {policy : Policy V} {unifier : Run V (Unifier V)} {choice : List V → Except (Fault V) V}
  {P Q : V → Prop} {h m : List (Chunk V)} {k l v w : V} (unifiable : Unifiable policy unifier choice P Q h)
  (hm : fused choice h = .ok m) (s : Store V) (f : V → V → α)

include unifiable hm

section One

variable (hk : P k) (claims : chunksAt k h ≠ []) (hv : settled choice (valuesAt k h) = .ok v)

include hk claims hv

/-- **A read can be repeated**, and leaves the state as it is the second time. -/
theorem heapRead_comes_again :
    ((heapRead unifier k (.number 0)).apply (.state (.ofChunks s (afterRead k h m)))).Comes policy
      (.ok [⟨.state (.ofChunks s (afterRead k h m)), v⟩]) := by
  by_cases several : 2 ≤ (chunksAt k h).length
  · rw [afterRead, if_pos several]
    exact unifiable.heapRead_comes_of_fused hm s hk claims hv
  · have first := unifiable.heapRead_comes hm s hk claims hv
    rw [afterRead, if_neg several] at first ⊢
    exact first

/-- A compression before a read does not change what is read. -/
theorem compress_heapRead_comes :
    (((compress unifier).andThen (heapRead unifier k (.number 0))).apply (.state (.ofChunks s h))).Comes policy
      (.ok [⟨.state (.ofChunks s m), v⟩]) :=
  (unifiable.compress_comes hm s).andThen (unifiable.heapRead_comes_of_fused hm s hk claims hv)

end One

/-- Nor whether there is something to be read. -/
theorem compress_heapRead_loses (hk : P k) (unclaimed : chunksAt k h = [])
    (absent : ∃ text, (Failure.missing k).message? = .ok text) :
    (((compress unifier).andThen (heapRead unifier k (.number 0))).apply (.state (.ofChunks s h))).Loses policy
      ⟨.state (.ofChunks s m), .missing k⟩ := by
  have none := chunksAt_of_fused_of_unclaimed unifiable.equivalent unifiable.located hk hm unclaimed
  exact (unifiable.compress_comes hm s).andThen_loses (heapRead_loses none absent s)

/-- **Two reads have the values that the claims settle for**, and leave the heap as it is unless there are
several chunks at one of the locations. -/
theorem heapReadThen_comes (hk : P k) (hl : P l) (claimsk : chunksAt k h ≠ []) (claimsl : chunksAt l h ≠ [])
    (hv : settled choice (valuesAt k h) = .ok v) (hw : settled choice (valuesAt l h) = .ok w) :
    ((heapReadThen unifier k l f).apply (.state (.ofChunks s h))).Comes policy
      (.ok [⟨.state (.ofChunks s (afterReads k l h m)), f v w⟩]) := by
  rw [← afterRead_afterRead]
  have second : ((heapRead unifier l (.number 0)).apply (.state (.ofChunks s (afterRead k h m)))).Comes policy
      (.ok [⟨.state (.ofChunks s (afterRead l (afterRead k h m) m)), w⟩]) := by
    by_cases several : 2 ≤ (chunksAt k h).length
    · rw [afterRead, afterRead, if_pos several, ite_self]
      exact unifiable.heapRead_comes_of_fused hm s hl claimsl hw
    · rw [afterRead, if_neg several]
      exact unifiable.heapRead_comes hm s hl claimsl hw
  refine .apply ((unifiable.heapRead_comes hm s hk claimsk hv).bindComp ?_)
  rw [pure_bind]
  exact second.map (Run.tells_pure (f v w)).comes

/-- A location that is not claimed is not claimed after a read either. -/
theorem chunksAt_afterRead (hl : P l) (unclaimed : chunksAt l h = []) : chunksAt l (afterRead k h m) = [] := by
  by_cases several : 2 ≤ (chunksAt k h).length
  · rw [afterRead, if_pos several]
    exact chunksAt_of_fused_of_unclaimed unifiable.equivalent unifiable.located hl hm unclaimed
  · rwa [afterRead, if_neg several]

/-- **Two reads lose a branch** if one of the locations is not claimed. -/
theorem heapReadThen_loses (hk : P k) (hl : P l) (unclaimed : chunksAt k h = [] ∨ chunksAt l h = [])
    (absentk : chunksAt k h = [] → ∃ text, (Failure.missing k).message? = .ok text)
    (absentl : chunksAt l h = [] → ∃ text, (Failure.missing l).message? = .ok text) :
    ∃ d, ((heapReadThen unifier k l f).apply (.state (.ofChunks s h))).Loses policy d ∧
      (d.error = .missing k ∨ d.error = .missing l) := by
  by_cases none : chunksAt k h = []
  · exact ⟨_, (heapRead_loses none (absentk none) s).bindComp, .inl rfl⟩
  · have nonel := unclaimed.resolve_left none
    obtain ⟨c, -, hv⟩ := exists_chunksAt_of_fused unifiable.equivalent unifiable.located hk hm none
    have first := unifiable.heapRead_comes hm s hk none hv
    have second : ((heapRead unifier l (.number 0)).apply (.state (.ofChunks s (afterRead k h m)))).Loses policy
        ⟨.state (.ofChunks s (afterRead k h m)), .missing l⟩ :=
      heapRead_loses (unifiable.chunksAt_afterRead hm hl nonel) (absentl nonel) s
    have both : ((heapReadThen unifier k l f).apply (.state (.ofChunks s h))).Loses policy
        ⟨.state (.ofChunks s (afterRead k h m)), .missing l⟩ := by
      refine first.bindComp_loses ?_
      rw [pure_bind]
      exact second.map
    exact ⟨_, both, .inr rfl⟩

end Unifiable

end Heap

namespace Comp

variable {policy : Policy V} {unifier : Run V (Unifier V)} {choice : List V → Except (Fault V) V}
  {P Q : V → Prop} {h : List (Chunk V)} {k l : V}

open Unifier (meant) in
/-- **Reads commute and can be repeated.**  A policy may be passed on; take a heap that can be unified with the
one that is meant, and locations `k` and `l` that can be written, which may be one and the same.  Wherever runs
are served under the policy in force, nobody could tell them from the following; `F` is the state that a
compression leaves.

* If one of the locations is not claimed, both orders of reading them lose a branch, because a location is
  missing, if that can be written.
* If both are claimed, both orders have one branch, with the same pair of values in the same state: in the state
  as it was, or in `F` if there are several chunks at one of the locations.
* A read that is repeated has the same value and leaves the state as it is.
* A compression before a read changes neither the value nor whether there is one. -/
theorem readHeap_commutes {meaning : V → Unifier V} {p : Option (Passed V)}
    (unifiable : Heap.Unifiable policy (meant meaning p) choice P Q h) (hk : P k) (hl : P l)
    (writtenk : ∃ text, Written.written? k = .ok text) (writtenl : ∃ text, Written.written? l = .ok text)
    (absentk : Heap.chunksAt k h = [] → ∃ text, (Failure.missing k).message? = .ok text)
    (absentl : Heap.chunksAt l h = [] → ∃ text, (Failure.missing l).message? = .ok text)
    {s : Store V} {S : Subject V} (hS : S = .state (.ofChunks s h)) :
    ∃ F, ((compress (meant meaning p)).apply S).Comes policy (.ok [⟨F, ()⟩]) ∧
    (Heap.chunksAt k h = [] ∨ Heap.chunksAt l h = [] → ∃ d d',
      (call (readThen (meant meaning p) k l Prod.mk) S).Loses policy d ∧
      (call (readThen (meant meaning p) l k fun w v => (v, w)) S).Loses policy d' ∧
      (d.error = .missing k ∨ d.error = .missing l) ∧ (d'.error = .missing k ∨ d'.error = .missing l)) ∧
    (Heap.chunksAt k h ≠ [] → Heap.chunksAt l h ≠ [] → ∃ t v w,
      (call (readThen (meant meaning p) k l Prod.mk) S).Comes policy (.ok [⟨t, (v, w)⟩]) ∧
      (call (readThen (meant meaning p) l k fun w v => (v, w)) S).Comes policy (.ok [⟨t, (v, w)⟩]) ∧
      t = if 2 ≤ (Heap.chunksAt k h).length ∨ 2 ≤ (Heap.chunksAt l h).length then F else S) ∧
    (Heap.chunksAt k h ≠ [] → ∃ t v,
      (call (readHeap (meant meaning p) k (.number 0)) S).Comes policy (.ok [⟨t, v⟩]) ∧
      (call (readHeap (meant meaning p) k (.number 0)) t).Comes policy (.ok [⟨t, v⟩]) ∧
      (call (thenCall (Pure.pure (compress (meant meaning p))) (readHeap (meant meaning p) k (.number 0)))
        S).Comes policy (.ok [⟨F, v⟩])) ∧
    (Heap.chunksAt k h = [] →
      (call (readHeap (meant meaning p) k (.number 0)) S).Loses policy ⟨S, .missing k⟩ ∧
      (call (thenCall (Pure.pure (compress (meant meaning p))) (readHeap (meant meaning p) k (.number 0)))
        S).Loses policy ⟨F, .missing k⟩) := by
  subst hS
  simp only [call_readThen writtenk writtenl, call_readThen writtenl writtenk]
  simp only [call, thenCall, readHeap, namedAfter_of_written writtenk, pure_bind]
  obtain ⟨m, hm⟩ := unifiable.exists_fused
  refine ⟨_, unifiable.compress_comes hm s, fun unclaimed => ?_, fun claimsk claimsl => ?_, fun claims => ?_,
    fun unclaimed => ?_⟩
  · obtain ⟨d, lost, missing⟩ := unifiable.heapReadThen_loses hm s Prod.mk hk hl unclaimed absentk absentl
    obtain ⟨d', lost', missing'⟩ := unifiable.heapReadThen_loses hm s (fun w v => (v, w)) hl hk unclaimed.symm
      absentl absentk
    exact ⟨d, d', lost, lost', missing, missing'.symm⟩
  · obtain ⟨c, -, hv⟩ := Heap.exists_chunksAt_of_fused unifiable.equivalent unifiable.located hk hm claimsk
    obtain ⟨d, -, hw⟩ := Heap.exists_chunksAt_of_fused unifiable.equivalent unifiable.located hl hm claimsl
    have other := unifiable.heapReadThen_comes hm s (fun w v => (v, w)) hl hk claimsl claimsk hw hv
    rw [Heap.afterReads_comm] at other
    refine ⟨_, c.value, d.value, unifiable.heapReadThen_comes hm s Prod.mk hk hl claimsk claimsl hv hw, other, ?_⟩
    exact apply_ite (fun g => Subject.state (State.ofChunks s g)) ..
  · obtain ⟨c, -, hv⟩ := Heap.exists_chunksAt_of_fused unifiable.equivalent unifiable.located hk hm claims
    exact ⟨_, c.value, unifiable.heapRead_comes hm s hk claims hv, unifiable.heapRead_comes_again hm s hk claims hv,
      unifiable.compress_heapRead_comes hm s hk claims hv⟩
  · exact ⟨heapRead_loses unclaimed (absentk unclaimed) s,
      unifiable.compress_heapRead_loses hm s hk unclaimed (absentk unclaimed)⟩

section Instances

open Script

/-- Two locations with two chunks each are read in both orders, one of them is read twice, and one is read
together with a location that has none. -/
theorem readHeap_commutes_interleaved :
    ((heapReadThen largest (cellOf 1) (cellOf 2) Prod.mk).apply
      (.state (.ofChunks .empty Heap.interleaved)) (.of .guarded) {}).answer
        = .ok [⟨.state (.ofChunks .empty [⟨cellOf 1, .int 3⟩, ⟨cellOf 2, .int 5⟩, ⟨cellOf 3, .int 0⟩]),
          (.int 3, .int 5)⟩] ∧
    (∃ t v w, (call (readThen largest (cellOf 1) (cellOf 2) Prod.mk)
        (.state (.ofChunks .empty Heap.interleaved))).Comes .maxTerm (.ok [⟨t, (v, w)⟩]) ∧
      (call (readThen largest (cellOf 2) (cellOf 1) fun w v => (v, w))
        (.state (.ofChunks .empty Heap.interleaved))).Comes .maxTerm (.ok [⟨t, (v, w)⟩])) ∧
    (∃ t v, (call (largestAt (cellOf 1)) (.state (.ofChunks .empty Heap.interleaved))).Comes .maxTerm
        (.ok [⟨t, v⟩]) ∧ (call (largestAt (cellOf 1)) t).Comes .maxTerm (.ok [⟨t, v⟩])) ∧
    ∃ d d', (call (readThen largest (cellOf 1) nowhere Prod.mk)
        (.state (.ofChunks .empty Heap.interleaved))).Loses .maxTerm d ∧
      (call (readThen largest nowhere (cellOf 1) fun w v => (v, w))
        (.state (.ofChunks .empty Heap.interleaved))).Loses .maxTerm d' := by
  have one := written_cellOf (by decide : (1 : Int).natAbs ≤ Text.digitLimit)
  have two := written_cellOf (by decide : (2 : Int).natAbs ≤ Text.digitLimit)
  obtain ⟨F, -, -, commute, again, -⟩ := readHeap_commutes unifiable_interleaved (k := cellOf 1) (l := cellOf 2)
    ⟨trivial, trivial⟩ ⟨trivial, trivial⟩ one two (fun none => nomatch none) (fun none => nomatch none)
    (s := .empty) rfl
  obtain ⟨-, -, lost, -⟩ := readHeap_commutes unifiable_interleaved (k := cellOf 1) (l := nowhere)
    ⟨trivial, trivial⟩ ⟨trivial, trivial⟩ one ⟨_, rfl⟩ (fun none => nomatch none) (fun _ => ⟨_, rfl⟩)
    (s := .empty) rfl
  obtain ⟨t, v, w, there, back, -⟩ := commute (List.cons_ne_nil _ _) (List.cons_ne_nil _ _)
  obtain ⟨t', v', once, twice, -⟩ := again (List.cons_ne_nil _ _)
  obtain ⟨d, d', gone, gone', -⟩ := lost (.inr rfl)
  exact ⟨rfl, ⟨t, v, w, there, back⟩, ⟨t', v', once, twice⟩, d, d', gone, gone'⟩

/-- Without settings to read, two locations with a chunk each cannot be read: the first success ends in a
defect.  And a location that cannot be written down is not read twice either, though there is a chunk. -/
theorem readHeap_commutes_needs_settings :
    (Heap.chunksAt (cellOf 1) [⟨cellOf 1, .int 3⟩, ⟨cellOf 2, .int 5⟩]).length = 1 ∧
    (Heap.chunksAt (cellOf 2) [⟨cellOf 1, .int 3⟩, ⟨cellOf 2, .int 5⟩]).length = 1 ∧
    (call (readThen largest (cellOf 1) (cellOf 2) Prod.mk)
      (.state (.ofChunks .empty [⟨cellOf 1, .int 3⟩, ⟨cellOf 2, .int 5⟩])) (.of .guarded) .misconfigured).answer
        = .error (.defect (.settings (.malformedCap "abc"))) ∧
    (Heap.chunksAt unwritable [⟨unwritable, .int 3⟩]).length = 1 ∧
    (call (readThen largest unwritable unwritable Prod.mk) (.state (.ofChunks .empty [⟨unwritable, .int 3⟩]))
      (.of .guarded) {}).answer = .error (.defect (.incomparable "<" ⟨"str", "NoneType", false⟩)) := by
  refine ⟨rfl, rfl, ?_, rfl, rfl⟩
  rw [call_readThen (written_cellOf (by decide)) (written_cellOf (by decide))]
  rfl

end Instances

end Comp

end SymbolicPaths
