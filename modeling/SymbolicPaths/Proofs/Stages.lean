import SymbolicPaths.Proofs.Comparison
import SymbolicPaths.Proofs.Overwriting
import SymbolicPaths.Proofs.Telling
/-!
# Fusing in stages

A heap may be fused part by part, and what has come of the parts once more.  With the policy in force the outcome
is that of fusing everything at once, chunk by chunk and not only up to agreement (`Heap.fused_append`), as long as
values that meet can be compared (`Heap.Settleable`).

The policy sees other lists on the way.  Where it was asked about the values of a part, one value is left in their
place, and a value that is alone in its part is left as it is; in both cases what is left is what the policy
answers (`Digest`).  That the policy can be asked in parts is shown in `SymbolicPaths.Proofs.Largest`.

The chunks also have to come in the same order, and at locations that are written in the same way.  A chunk that is
left stands where the first chunk of its part stood, so the locations of both parts are claimed as before
(`Heap.claimed_append`).
-/

namespace SymbolicPaths

variable {V : Type} [Term V]

namespace Unifier

/-- What is left of some values after they were fused. -/
inductive Digest : List V → List V → Prop where
  | nothing : Digest [] []
  | one {vs : List V} {v : V} (hne : vs ≠ []) (answer : maxAnswer vs = .ok v) : Digest vs [v]

theorem Digest.isEmpty_eq {vs ws : List V} (h : Digest vs ws) : ws.isEmpty = vs.isEmpty := by
  cases h with
  | nothing => rfl
  | one hne _ => exact (List.isEmpty_eq_false_iff.2 hne).symm

/-- **What is left of two parts settles for what all of the values settle for.** -/
theorem Digest.append {R : V → V → Prop} (ordered : Term.Preordered R) {vs vs' ws ws' : List V}
    (hv : Digest vs vs') (hw : Digest ws ws') (hvw : (vs ++ ws).Pairwise R) :
    maxAnswer (vs' ++ ws') = maxAnswer (vs ++ ws) := by
  cases hv with
  | nothing =>
    cases hw with
    | nothing => rfl
    | one _ answer => exact answer.symm
  | @one vs v hne answer =>
    cases hw with
    | nothing =>
      rw [List.append_nil vs]
      exact answer.symm
    | @one ws w hne' answer' =>
      obtain ⟨a, b, m, ha, hb, hm, whole⟩ := maxTerm_append ordered hne hne' hvw
      obtain rfl := Except.ok.inj ((maxAnswer_of_maxTerm ha).symm.trans answer)
      obtain rfl := Except.ok.inj ((maxAnswer_of_maxTerm hb).symm.trans answer')
      exact (maxAnswer_of_maxTerm hm).trans (maxAnswer_of_maxTerm whole).symm

end Unifier

namespace Heap

/-- Chunks at one location have related values. -/
def Settleable (R : V → V → Prop) (h : List (Chunk V)) : Prop :=
  h.Pairwise fun c d => Term.same c.location d.location = true → R c.value d.value

theorem valuesAt_append (l : V) (h k : List (Chunk V)) :
    valuesAt l (h ++ k) = valuesAt l h ++ valuesAt l k := by
  rw [valuesAt, chunksAt_append, List.map_append]
  rfl

/-- Behind a part only what it does not claim is claimed. -/
theorem claimed_append (h k : List (Chunk V)) :
    claimed (h ++ k) = claimed h ++ (claimed k).filter fun l => (valuesAt l h).isEmpty := by
  induction h with
  | nil => simp [valuesAt, chunksAt]
  | cons c h ih =>
    rw [List.cons_append, claimed, claimed, ih, List.filter_append, List.filter_filter, List.cons_append]
    refine congrArg (fun ls => c.location :: (_ ++ ls)) (List.filter_congr fun l _ => ?_)
    by_cases hcl : Term.same c.location l = true
    · simp [valuesAt, chunksAt_cons_of_same hcl, hcl]
    · simp [valuesAt, chunksAt_cons_of_not_same hcl, hcl]

/-- What a fused heap claims. -/
theorem claimed_of_fused {choice : List V → Except (Fault V) V} {h f : List (Chunk V)}
    (hf : fused choice h = .ok f) : claimed f = claimed h := by
  have locations := (fused_eq_ok_iff.1 hf).1
  have apart : Apart f := apart_of_map_location (locations.trans (map_location_firsts h).symm) (apart_firsts h)
  rw [← map_location_firsts f, firsts_of_apart apart, locations]

/-- Fused chunks stand where chunks stood. -/
theorem forall_location_of_fused {choice : List V → Except (Fault V) V} {h f : List (Chunk V)} {Q : V → Prop}
    (hf : fused choice h = .ok f) (hQ : ∀ c ∈ h, Q c.location) : ∀ d ∈ f, Q d.location := fun d hd =>
  forall_claimed hQ d.location ((fused_eq_ok_iff.1 hf).1 ▸ List.mem_map_of_mem hd)

variable {R : V → V → Prop} (ordered : Term.Preordered R) {P : V → Prop} (equivalent : Term.Equivalent P)
  {h k f g m : List (Chunk V)} {l : V}

include equivalent

theorem Settleable.valuesAt (settleable : Settleable R h) (located : Located P h) (hl : P l) :
    (valuesAt l h).Pairwise R := by
  refine List.pairwise_map.2 ((settleable.filter _).imp_of_mem fun hc hd related => related ?_)
  obtain ⟨hc, hcl⟩ := mem_chunksAt.1 hc
  obtain ⟨hd, hdl⟩ := mem_chunksAt.1 hd
  exact equivalent.same_of_same (located _ hc) (located _ hd) hl hcl hdl

/-- What a fusion leaves of the values at a location. -/
theorem digest_of_fused (located : Located P h) (hf : fused Unifier.maxAnswer h = .ok f) (hl : P l) :
    Unifier.Digest (valuesAt l h) (valuesAt l f) := by
  by_cases claims : chunksAt l h = []
  · have none := chunksAt_of_fused_of_unclaimed equivalent located hl hf claims
    rw [Heap.valuesAt, Heap.valuesAt, claims, none]
    exact .nothing
  · obtain ⟨c, one, settled⟩ := exists_chunksAt_of_fused equivalent located hl hf claims
    rw [Unifier.settled_maxAnswer] at settled
    have left : Heap.valuesAt l f = [c.value] := by
      rw [Heap.valuesAt, one]
      rfl
    rw [left]
    exact .one (mt List.map_eq_nil_iff.1 claims) settled

include ordered

theorem Settleable.exists_fused (settleable : Settleable R h) (located : Located P h) :
    ∃ f, fused Unifier.maxAnswer h = .ok f := by
  cases hf : fused Unifier.maxAnswer h with
  | ok f => exact ⟨f, rfl⟩
  | error e =>
    obtain ⟨l, claims, he⟩ := exists_of_mapM_eq_error hf
    have hl := forall_claimed located l claims
    obtain ⟨m, hm, -⟩ := Unifier.exists_maxTerm ordered
      (valuesAt_ne_nil_of_mem_claimed equivalent located claims) (settleable.valuesAt equivalent located hl)
    rw [Unifier.settled_maxAnswer, Unifier.maxAnswer_of_maxTerm hm] at he
    cases he

/-- **What was fused in parts** is fused to what the whole heap is fused to. -/
theorem fused_append (settleable : Settleable R (h ++ k)) (located : Located P (h ++ k))
    (hf : fused Unifier.maxAnswer h = .ok f) (hg : fused Unifier.maxAnswer k = .ok g)
    (hm : fused Unifier.maxAnswer (h ++ k) = .ok m) : fused Unifier.maxAnswer (f ++ g) = .ok m := by
  obtain ⟨locatedH, locatedK⟩ := List.forall_mem_append.1 located
  obtain ⟨locations, values⟩ := fused_eq_ok_iff.1 hm
  refine fused_eq_ok_iff.2 ⟨?_, fun c hc => ?_⟩
  · rw [locations, claimed_append, claimed_append, claimed_of_fused hf, claimed_of_fused hg]
    refine congrArg (claimed h ++ ·) (List.filter_congr fun l hl => ?_)
    exact (digest_of_fused equivalent locatedH hf (forall_claimed locatedK l hl)).isEmpty_eq.symm
  · have hl : P c.location := forall_claimed located _ (locations ▸ List.mem_map_of_mem hc)
    have related := settleable.valuesAt equivalent located hl
    have whole := values c hc
    rw [Unifier.settled_maxAnswer, valuesAt_append] at whole ⊢
    rw [valuesAt_append] at related
    rw [(digest_of_fused equivalent locatedH hf hl).append ordered
      (digest_of_fused equivalent locatedK hg hl) related, whole]

/-- To fuse both parts and then what is left of them tells what it tells to fuse the whole heap. -/
theorem fuse_tells_append (policy : Policy V) (settleable : Settleable R (h ++ k)) (located : Located P (h ++ k))
    (keys : ∀ c ∈ h ++ k, Term.unhashable? c.location = none) :
    ∃ f g m, (fuseWith Unifier.maxTerm (h.map .chunk)).Tells policy (.ok f) ∧
      (fuseWith Unifier.maxTerm (k.map .chunk)).Tells policy (.ok g) ∧
      (fuseWith Unifier.maxTerm ((f ++ g).map .chunk)).Tells policy (.ok m) ∧
      (fuseWith Unifier.maxTerm ((h ++ k).map .chunk)).Tells policy (.ok m) := by
  have tells : ∀ {h f}, Located P h → (∀ c ∈ h, Term.unhashable? c.location = none) →
      fused Unifier.maxAnswer h = .ok f → (fuseWith Unifier.maxTerm (h.map .chunk)).Tells policy (.ok f) :=
    fun located keys hf => hf ▸ fuseWith_tells (Unifier.follows_maxTerm policy) equivalent located keys
  obtain ⟨locatedH, locatedK⟩ := List.forall_mem_append.1 located
  obtain ⟨keysH, keysK⟩ := List.forall_mem_append.1 keys
  obtain ⟨settleableH, settleableK, -⟩ := List.pairwise_append.1 settleable
  obtain ⟨f, hf⟩ := Settleable.exists_fused ordered equivalent settleableH locatedH
  obtain ⟨g, hg⟩ := Settleable.exists_fused ordered equivalent settleableK locatedK
  obtain ⟨m, hm⟩ := Settleable.exists_fused ordered equivalent settleable located
  have left : ∀ Q : V → Prop, (∀ c ∈ h, Q c.location) → (∀ c ∈ k, Q c.location) → ∀ c ∈ f ++ g, Q c.location :=
    fun _ hQ kQ => List.forall_mem_append.2 ⟨forall_location_of_fused hf hQ, forall_location_of_fused hg kQ⟩
  refine ⟨f, g, m, tells locatedH keysH hf, tells locatedK keysK hg, ?_, tells located keys hm⟩
  exact tells (left P locatedH locatedK) (left (Term.unhashable? · = none) keysH keysK)
    (fused_append ordered equivalent settleable located hf hg hm)

end Heap

/-! ## Comparable data -/

namespace Unifier

open Script

/-- **The policy finds the first of the largest terms, in whatever order and in whatever stages.**

* Asked about data that can be compared pairwise, it answers with one that none of them is larger than, and those
  in front of it are smaller.  Asked about the same data in another order, it answers with a datum that agrees.
* Asked about two lists, and then about the two answers, it answers with what it answers for both lists together.
* So a heap may be fused in two parts, and what is left of them once more: it becomes what it becomes if it is fused
  at once.  Its locations have to be keys in whose tables no key stands twice, and values that are claimed for one
  location have to be comparable. -/
theorem maxTerm_of_comparable {P : Type} :
    (∀ vs : List (Datum P), vs ≠ [] → vs.Pairwise Datum.Comparable →
      ∃ m, maxTerm vs = (pure m : Run (Datum P) (Datum P)) ∧ Term.IsFirstLargest m vs ∧
        ∀ ws, vs.Perm ws → ∃ n, maxTerm ws = (pure n : Run (Datum P) (Datum P)) ∧ Term.same m n = true) ∧
    (∀ vs ws : List (Datum P), vs ≠ [] → ws ≠ [] → (vs ++ ws).Pairwise Datum.Comparable →
      ∃ a b m, maxTerm vs = (pure a : Run (Datum P) (Datum P)) ∧ maxTerm ws = (pure b : Run (Datum P) (Datum P)) ∧
        maxTerm [a, b] = (pure m : Run (Datum P) (Datum P)) ∧
        maxTerm (vs ++ ws) = (pure m : Run (Datum P) (Datum P))) ∧
    ∀ (policy : Policy (Datum P)) (h k : List (Chunk (Datum P))),
      (∀ c ∈ h ++ k, c.location.WellKeyed ∧ Term.unhashable? c.location = none) →
      Heap.Settleable Datum.Comparable (h ++ k) →
      ∃ f g m, (Heap.fuseWith maxTerm (h.map .chunk)).Tells policy (.ok f) ∧
        (Heap.fuseWith maxTerm (k.map .chunk)).Tells policy (.ok g) ∧
        (Heap.fuseWith maxTerm ((f ++ g).map .chunk)).Tells policy (.ok m) ∧
        (Heap.fuseWith maxTerm ((h ++ k).map .chunk)).Tells policy (.ok m) := by
  have ordered := Datum.preordered_comparable (P := P)
  refine ⟨fun vs hne hvs => ?_, fun vs ws => maxTerm_append ordered, fun policy h k keys settleable => ?_⟩
  · obtain ⟨m, hm, first⟩ := exists_maxTerm ordered hne hvs
    refine ⟨m, hm, first, fun ws hp => ?_⟩
    have hws : ws.Pairwise Datum.Comparable := hp.pairwise hvs (ordered.symm ·)
    obtain ⟨n, hn, first'⟩ := exists_maxTerm ordered (fun hnil => hne (List.perm_nil.1 (hnil ▸ hp))) hws
    refine ⟨n, hn, ?_⟩
    rcases first.eq_or_order_eq ordered hvs first' fun _ => hp.mem_iff with rfl | ⟨comparable, equal⟩
    · exact Datum.same_self m
    · exact comparable.same_of_order_eq equal
  · exact Heap.fuse_tells_append ordered Datum.equivalent_wellKeyed policy settleable (fun c hc => (keys c hc).1)
      fun c hc => (keys c hc).2

/-- Truth values among numbers, a sequence that another one goes on from, and a branch that agrees with a tuple. -/
theorem maxTerm_of_comparable_nested :
    let front : List (Datum Empty) := [.tuple [.int 1], .tuple [.bool true, .list [.int 1, .int 0]]]
    let back : List (Datum Empty) := [.branch (.int 1) (.list [.bool true, .bool false])]
    let chunks := List.map (Chunk.mk (.location (.text "r") (.text "f")))
    (front ++ back).Pairwise Datum.Comparable ∧
      (∃ m n, maxTerm (front ++ back) = (pure m : Run (Datum Empty) (Datum Empty)) ∧
        maxTerm (back ++ front) = (pure n : Run (Datum Empty) (Datum Empty)) ∧ Term.same m n = true) ∧
      (∃ a b m, maxTerm front = (pure a : Run (Datum Empty) (Datum Empty)) ∧
        maxTerm back = (pure b : Run (Datum Empty) (Datum Empty)) ∧
        maxTerm [a, b] = (pure m : Run (Datum Empty) (Datum Empty)) ∧
        maxTerm (front ++ back) = (pure m : Run (Datum Empty) (Datum Empty))) ∧
      ∃ f g m, (Heap.fuseWith maxTerm ((chunks front).map .chunk)).Tells .maxTerm (.ok f) ∧
        (Heap.fuseWith maxTerm ((chunks back).map .chunk)).Tells .maxTerm (.ok g) ∧
        (Heap.fuseWith maxTerm ((f ++ g).map .chunk)).Tells .maxTerm (.ok m) ∧
        (Heap.fuseWith maxTerm ((chunks front ++ chunks back).map .chunk)).Tells .maxTerm (.ok m) := by
  intro front back chunks
  have inside : (Datum.list [.int 1, .int 0] : Datum Empty).Comparable (.list [.bool true, .bool false]) :=
    .lists (List.forall_mem_cons.2 ⟨.numbers rfl rfl, List.forall_mem_singleton.2 (.numbers rfl rfl)⟩)
  have comparable : (front ++ back).Pairwise Datum.Comparable := by
    refine .cons (List.forall_mem_cons.2 ⟨?_, List.forall_mem_singleton.2 ?_⟩) (List.pairwise_pair.2 ?_)
    · exact .tuples rfl rfl (List.forall_mem_singleton.2 (.numbers rfl rfl))
    · exact .tuples rfl rfl (List.forall_mem_singleton.2 (.numbers rfl rfl))
    · exact .tuples rfl rfl (List.forall_mem_cons.2 ⟨.numbers rfl rfl, List.forall_mem_singleton.2 inside⟩)
  have settleable : Heap.Settleable Datum.Comparable (chunks front ++ chunks back) := by
    rw [← List.map_append]
    refine List.pairwise_map.2 (comparable.imp ?_)
    exact fun h _ => h
  have keys : ∀ c ∈ chunks front ++ chunks back, c.location.WellKeyed ∧ Term.unhashable? c.location = none := by
    rw [← List.map_append]
    exact List.forall_mem_map.2 fun v _ => ⟨⟨trivial, trivial⟩, rfl⟩
  obtain ⟨any, parts, stages⟩ := maxTerm_of_comparable (P := Empty)
  obtain ⟨m, hm, -, reordered⟩ := any (front ++ back) (List.cons_ne_nil _ _) comparable
  obtain ⟨n, hn, same⟩ := reordered (back ++ front) List.perm_append_comm
  exact ⟨comparable, ⟨m, n, hm, hn, same⟩, parts front back (List.cons_ne_nil _ _) (List.cons_ne_nil _ _) comparable,
    stages .maxTerm _ _ keys settleable⟩

end Unifier

end SymbolicPaths
