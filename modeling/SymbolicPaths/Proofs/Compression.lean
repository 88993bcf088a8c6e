import SymbolicPaths.Proofs.Matching
/-!
# When heaps are compressed

Chunks are fused on demand: a read compresses the heap if it finds several chunks, and else leaves it as it
is.  So the heap that a program has reached depends on which reads came before.  Under the policy that takes
the largest term that cannot be observed.  Two heaps are alike here if they are fused to the same heap, which
says that they claim the same locations in the same order and that the largest value at each of them is the
same (`Carrier.Heap.fused_eq_iff`).  A chunk put in front keeps heaps alike, since the larger of its value
and the largest of the others is the largest of all; overwriting keeps them alike, since it leaves one value
at a location; and a heap is like what it is fused to (`Carrier.Heap.fused_fused`).

One run may compress where the other does not, so the likeness is lax: to compress is to succeed, and a
success looks at the settings, so there have to be some.
-/

namespace SymbolicPaths

variable {V : Type} [Term V]

/-! ## Fusing to the largest values -/

namespace Unifier

/-- Where the same term is claimed throughout, it does not matter how often. -/
theorem maxAnswer_map_const {P : V → Prop} (ordered : Term.Ordered P) {vs ws : List V} {v : V} (hv : P v)
    (h : vs = [] ↔ ws = []) :
    maxAnswer (vs.map fun _ => v) = maxAnswer (ws.map fun _ => v) := by
  refine maxAnswer_congr ordered (fun w hw => ?_) fun w => ?_
  · obtain ⟨_, -, rfl⟩ := List.mem_map.1 hw
    exact hv
  · simp [h]

end Unifier

namespace Carrier.Heap

variable {K : Carrier V} {g k m : List (Chunk V)} {l v : V} {c : Chunk V}

/-- A heap of a carrier is fused to one. -/
theorem exists_fused (hg : K.Heap g) : ∃ m, Heap.fused Unifier.maxAnswer g = .ok m ∧ K.Heap m := by
  cases hm : Heap.fused Unifier.maxAnswer g with
  | ok m =>
    refine ⟨m, rfl, hg.compressed (fun vs v several hv => ?_) hm⟩
    obtain ⟨w, hw, hvalue⟩ := several.exists_maxAnswer
    obtain rfl : w = v := Except.ok.inj (hw.symm.trans hv)
    exact hvalue
  | error e =>
    obtain ⟨vs, several, hvs⟩ := hg.exists_of_fused_eq_error hm
    obtain ⟨w, hw, -⟩ := several.exists_maxAnswer
    rw [hw] at hvs
    cases hvs

theorem fused_eq_ok_iff : Heap.fused Unifier.maxAnswer g = .ok m ↔ m.map Chunk.location = Heap.claimed g ∧
    ∀ c ∈ m, Unifier.maxAnswer (Heap.valuesAt c.location g) = .ok c.value := by
  rw [SymbolicPaths.Heap.fused_eq_ok_iff]
  simp only [Unifier.settled_maxAnswer]

/-- **Heaps are fused to the same heap** if they claim the same locations, first seen in the same order, with
the same largest values. -/
theorem fused_eq_iff (hg : K.Heap g) (hk : K.Heap k) :
    Heap.fused Unifier.maxAnswer g = Heap.fused Unifier.maxAnswer k ↔
      Heap.claimed g = Heap.claimed k ∧ ∀ l, K.location l →
        Unifier.maxAnswer (Heap.valuesAt l g) = Unifier.maxAnswer (Heap.valuesAt l k) := by
  obtain ⟨m, hm, -⟩ := hg.exists_fused
  obtain ⟨locations, values⟩ := fused_eq_ok_iff.1 hm
  rw [hm]
  constructor
  · intro h
    obtain ⟨locations', values'⟩ := fused_eq_ok_iff.1 h.symm
    have same := locations.symm.trans locations'
    refine ⟨same, fun l hl => ?_⟩
    by_cases hc : l ∈ Heap.claimed g
    · rw [← locations] at hc
      obtain ⟨c, hcm, rfl⟩ := List.mem_map.1 hc
      rw [values c hcm, values' c hcm]
    · rw [(Heap.valuesAt_eq_nil_iff K.discrete_location hg.located hl).2 hc,
        (Heap.valuesAt_eq_nil_iff K.discrete_location hk.located hl).2 (same ▸ hc)]
  · rintro ⟨same, h⟩
    refine (fused_eq_ok_iff.2 ⟨locations.trans same, fun c hc => ?_⟩).symm
    have hl := Heap.forall_claimed hg.located _ (locations ▸ List.mem_map_of_mem hc)
    rw [← h _ hl]
    exact values c hc

/-- **A heap that was fused is fused already.** -/
theorem fused_fused (hg : K.Heap g) (hm : Heap.fused Unifier.maxAnswer g = .ok m) (hK : K.Heap m) :
    Heap.fused Unifier.maxAnswer m = .ok m := by
  have once : (m.map Chunk.location).Nodup :=
    (fused_eq_ok_iff.1 hm).1 ▸ Heap.nodup_claimed K.discrete_location hg.located
  refine fused_eq_ok_iff.2 ⟨(Heap.claimed_of_nodup K.discrete_location hK.located once).symm, fun c hc => ?_⟩
  rw [Heap.valuesAt_of_nodup K.discrete_location hK.located once hc]
  rfl

/-- One more chunk in front. -/
theorem fused_cons (hg : K.Heap g) (hk : K.Heap k) (hc : K.Claim c)
    (h : Heap.fused Unifier.maxAnswer g = Heap.fused Unifier.maxAnswer k) :
    Heap.fused Unifier.maxAnswer (c :: g) = Heap.fused Unifier.maxAnswer (c :: k) := by
  obtain ⟨same, values⟩ := (hg.fused_eq_iff hk).1 h
  refine ((hg.cons hc).fused_eq_iff (hk.cons hc)).2 ⟨by rw [Heap.claimed, Heap.claimed, same], fun l hl => ?_⟩
  by_cases hcl : c.location = l
  · subst hcl
    rw [Heap.valuesAt_cons_self K.discrete_location hl, Heap.valuesAt_cons_self K.discrete_location hl]
    exact Unifier.maxAnswer_cons_congr K.ordered hc.2 (hg.values _) (hk.values _) (values _ hl)
  · rw [Heap.valuesAt_cons_of_ne K.discrete_location hc.1 hl hcl,
      Heap.valuesAt_cons_of_ne K.discrete_location hc.1 hl hcl]
    exact values l hl

/-- One value throughout a location. -/
theorem fused_overwrite (hg : K.Heap g) (hk : K.Heap k) (hl : K.location l) (hv : K.value v)
    (h : Heap.fused Unifier.maxAnswer g = Heap.fused Unifier.maxAnswer k) :
    Heap.fused Unifier.maxAnswer (Heap.overwrite l v g)
      = Heap.fused Unifier.maxAnswer (Heap.overwrite l v k) := by
  obtain ⟨same, values⟩ := (hg.fused_eq_iff hk).1 h
  refine ((hg.overwritten hv l).fused_eq_iff (hk.overwritten hv l)).2 ⟨?_, fun l' hl' => ?_⟩
  · rw [Heap.claimed_overwrite, Heap.claimed_overwrite, same]
  · by_cases heq : l' = l
    · subst heq
      rw [Heap.valuesAt_overwrite_self, Heap.valuesAt_overwrite_self]
      refine Unifier.maxAnswer_map_const K.ordered hv ?_
      rw [Heap.valuesAt_eq_nil_iff K.discrete_location hg.located hl',
        Heap.valuesAt_eq_nil_iff K.discrete_location hk.located hl', same]
    · rw [Heap.valuesAt_overwrite_of_ne K.discrete_location hg.located hl hl' heq,
        Heap.valuesAt_overwrite_of_ne K.discrete_location hk.located hl hl' heq]
      exact values l' hl'

end Carrier.Heap

/-! ## Heaps that are fused to the same heap -/

/-- States with agreeing stores and heaps that are fused to the same heap, where policies take the largest
term. -/
def Likeness.compressed (host : Host V) (K : Carrier V) (policy : Policy V) : Likeness V where
  carrier := K
  policy := policy
  heap g k := K.Heap g ∧ K.Heap k ∧ Heap.fused Unifier.maxAnswer g = Heap.fused Unifier.maxAnswer k
  unifier u := u.verdict host policy = Unifier.maxAnswer
  lax := True

section Lawful

variable {host : Host V} {K : Carrier V} {policy : Policy V} {u : Unifying V} {s t : Store V}
  {g k m : List (Chunk V)} {l : V}

open Run (Twin)

theorem compress_tells_fused (hu : u.verdict host policy = Unifier.maxAnswer) (hg : K.Heap g)
    (hm : Heap.fused Unifier.maxAnswer g = .ok m) (s : Store V) :
    ((Comp.compress (u.run host)).body (.state (.ofChunks s g))).Tells policy
      (.ok [⟨.state (.ofChunks s m), ()⟩]) := by
  have told := u.compress_tells host policy K.discrete_location hg.located K.key_location s
  rw [hu, hm] at told
  exact told

/-- A read of a location that is claimed finds the largest value, and leaves a heap that is fused to the same
heap: the one that it found, or if there were several chunks the one that this is fused to. -/
theorem heapRead_comes_largest (hu : u.verdict host policy = Unifier.maxAnswer) (hg : K.Heap g)
    (hl : K.location l) (hc : l ∈ Heap.claimed g) : ∃ m v, K.Heap m ∧
      Heap.fused Unifier.maxAnswer m = Heap.fused Unifier.maxAnswer g ∧
      Unifier.maxAnswer (Heap.valuesAt l g) = .ok v ∧
      ∀ s, ((Comp.heapRead (u.run host) l (.number 0)).body (.state (.ofChunks s g))).Comes policy
        (.ok [⟨.state (.ofChunks s m), v⟩]) := by
  match hchunks : Heap.chunksAt l g with
  | [] =>
    have none : Heap.valuesAt l g = [] := by rw [Heap.valuesAt, hchunks]; rfl
    exact absurd hc ((Heap.valuesAt_eq_nil_iff K.discrete_location hg.located hl).1 none)
  | [c] =>
    refine ⟨g, c.value, hg, rfl, ?_, fun s => ?_⟩
    · rw [Heap.valuesAt, hchunks]
      rfl
    · exact Comp.heapRead_comes_of_one hchunks
  | c :: d :: cs =>
    obtain ⟨m, hm, hK⟩ := hg.exists_fused
    obtain ⟨locations, values⟩ := Carrier.Heap.fused_eq_ok_iff.1 hm
    have fused := hg.fused_fused hm hK
    -- what the heap is fused to has one chunk at the location
    obtain ⟨e, he, rfl⟩ := List.mem_map.1 (locations ▸ hc)
    have once : (m.map Chunk.location).Nodup := locations ▸ Heap.nodup_claimed K.discrete_location hg.located
    have value := Heap.valuesAt_of_nodup K.discrete_location hK.located once he
    obtain ⟨e', he', hvalue⟩ := List.map_eq_singleton_iff.1 value
    refine ⟨m, e.value, hK, fused.trans hm.symm, values e he, fun s => ?_⟩
    rw [← hvalue]
    exact Comp.heapRead_comes_of_several (by simp [hchunks]) (.apply (compress_tells_fused hu hg hm s).comes) he'

/-- Reads of heaps that are fused to the same heap find the same value, or nothing. -/
theorem heapRead_twin_compressed (hu : u.verdict host policy = Unifier.maxAnswer) (hl : K.location l)
    (store : K.Agree s t) (hg : K.Heap g) (hk : K.Heap k)
    (h : Heap.fused Unifier.maxAnswer g = Heap.fused Unifier.maxAnswer k) :
    Twin (.compressed host K policy)
      ((Likeness.compressed host K policy).BranchLists fun v w => v = w ∧ K.value v)
      ((Comp.heapRead (u.run host) l (.number 0)).body (.state (.ofChunks s g)))
      fun _ => (Comp.heapRead (u.run host) l (.number 0)).body (.state (.ofChunks t k)) := by
  obtain ⟨same, values⟩ := (hg.fused_eq_iff hk).1 h
  by_cases hc : l ∈ Heap.claimed g
  · obtain ⟨m, v, hm, hfused, hv, comes⟩ := heapRead_comes_largest hu hg hl hc
    obtain ⟨m', v', hm', hfused', hv', comes'⟩ := heapRead_comes_largest hu hk hl (same ▸ hc)
    obtain rfl : v = v' := Except.ok.inj (hv.symm.trans ((values l hl).trans hv'))
    have hK : K.value v := hg.values l v ((Unifier.maxAnswer_eq_ok_iff K.ordered (hg.values l)).1 hv).1
    refine .of_comes trivial (comes s) (fun _ => comes' t) (.ok (.cons ⟨.state store ?_, rfl, hK⟩ .nil))
    exact ⟨hm, hm', hfused.trans (h.trans hfused'.symm)⟩
  · have none : ∀ {h}, K.Heap h → l ∉ Heap.claimed h → Heap.chunksAt l h = [] := fun hh hl' =>
      List.map_eq_nil_iff.1 ((Heap.valuesAt_eq_nil_iff K.discrete_location hh.located hl).2 hl')
    rw [Comp.heapRead, Comp.heapReadWithin_of_none (none hg hc),
      Comp.heapReadWithin_of_none (none hk (same ▸ hc))]
    exact .fail _

/-- **Primitives keep heaps fused to the same heap.** -/
theorem Likeness.lawful_compressed (host : Host V) (K : Carrier V) (policy : Policy V) :
    (Likeness.compressed host K policy).Lawful host where
  left h := h.1
  right h := h.2.1
  cons h hc := ⟨h.1.cons hc, h.2.1.cons hc, h.1.fused_cons h.2.1 hc h.2.2⟩
  overwrite h hl hv := ⟨h.1.overwritten hv _, h.2.1.overwritten hv _, h.1.fused_overwrite h.2.1 hl hv h.2.2⟩
  compress := by
    rintro u s t g k hu store ⟨hg, hk, h⟩
    obtain ⟨m, hm, hK⟩ := hg.exists_fused
    have here := compress_tells_fused hu hg hm s
    have there := compress_tells_fused hu hk (h ▸ hm) t
    exact .of_tells here (fun _ => there) (.ok (.cons ⟨.state store ⟨hK, hK, rfl⟩, rfl⟩ .nil))
  readHeap hu hl store h := heapRead_twin_compressed hu hl store h.1 h.2.1 h.2.2
  pad := by
    rintro - u g hu hg
    obtain ⟨m, hm, hK⟩ := hg.exists_fused
    have fused := (hg.fused_fused hm hK).trans hm.symm
    exact ⟨m, hK, fun k h => ⟨hK, h.2.1, fused.trans h.2.2⟩, fun k h => ⟨h.1, hK, h.2.2.trans fused.symm⟩,
      fun s => (compress_tells_fused hu hg hm s).comes⟩

end Lawful

/-! ## Fused states -/

/-- What the heap of a state is fused to, taking the largest terms. -/
def State.fused? (s : State V) : Except (Fault V) (List (Chunk V)) :=
  (Heap.fuseWith Unifier.maxTerm s.heap (.of .guarded) {}).answer

theorem State.fused?_ofChunks {K : Carrier V} {g : List (Chunk V)} (hg : K.Heap g) (s : Store V) :
    (State.ofChunks s g).fused? = Heap.fused Unifier.maxAnswer g := by
  have told := Heap.fuseWith_tells (Unifier.follows_maxTerm .maxTerm) K.discrete_location.equivalent hg.located
    fun c hc => K.key_location (hg.located c hc)
  exact (told (σ := .of .guarded) (c := {}) (fun _ => rfl) rfl).1

/-- States with agreeing stores and heaps that are fused to the same heap. -/
inductive Subject.FusedAlike : Subject V → Subject V → Prop
  | state {s t : State V} {m : List (Chunk V)} (stores : s.store.same t.store = true)
      (left : s.fused? = .ok m) (right : t.fused? = .ok m) : FusedAlike (.state s) (.state t)

theorem Likeness.Subjects.fusedAlike {host : Host V} {K : Carrier V} {policy : Policy V} {s t : Subject V}
    (h : (Likeness.compressed host K policy).Subjects s t) : s.FusedAlike t := by
  obtain ⟨store, hg, hk, heaps⟩ := h
  obtain ⟨m, hm, -⟩ := hg.exists_fused
  refine .state store.same ((State.fused?_ofChunks hg _).trans hm) ?_
  exact (State.fused?_ofChunks hk _).trans (heaps ▸ hm)

namespace Program

/-- **When a heap is compressed cannot be observed.**  Take two programs over the terms of a carrier that are
built alike but for compressions, under the policy that takes the largest term, with host functions that do
not distinguish stores that agree.  From states with agreeing stores and heaps that are fused to the same heap
they have branches with results that are related, one by one and in order, in states that are alike again; and
what is dropped on the way are the same errors in states that are alike.  If the first run ends in an error,
the second one ends in the same.  There have to be settings to read; the first run has to end at all, and the
second one may need steps of its own. -/
theorem apply_compressed (host : Host V) {K : Carrier V} {policy : Policy V} {α β : Type} {A : α → β → Prop}
    {p : Program V α} {p' : Program V β} (hp : p.Match (.compressed host K policy) A p') {s t : Store V}
    {g k : List (Chunk V)} (hs : K.Table s.entries) (ht : K.Table t.entries) (hg : K.Heap g) (hk : K.Heap k)
    (stores : s.same t = true) (heaps : (State.ofChunks s g).fused? = (State.ofChunks t k).fused?)
    {σ : Scope V} {c : Context V} (serves : σ.Serves c) (receives : ∀ d, σ.receives d = .ok ())
    (hc : c.policy = policy)
    (ends : ((p.comp host).apply (.state (.ofChunks s g)) σ c).answer ≠ .error .exhausted) :
    ∃ steps, ∀ n ≥ steps, Outcome.Related Subject.FusedAlike A
      ((p.comp host).apply (.state (.ofChunks s g)) σ c)
      ((p'.comp (host.within n)).apply (.state (.ofChunks t k)) σ c) := by
  rw [State.fused?_ofChunks hg, State.fused?_ofChunks hk] at heaps
  have contexts : (Likeness.compressed host K policy).Contexts σ c c :=
    ⟨serves.records, receives, hc, fun strict => absurd trivial strict, fun _ => ⟨serves, rfl⟩⟩
  have twin := hp.twin (Likeness.lawful_compressed host K policy)
    (.state (.of_same hs ht stores) ⟨hg, hk, heaps⟩)
  exact twin.related (fun _ _ h => h.fusedAlike) contexts ends

section Instances

open Script

/-- A body that reads a cell. -/
def reading : Program (Datum Empty) (Datum Empty) :=
  .routine "reading" (fun _ => .null) fun
    | [] => .yields (.readHeap .inForce cell (.number 0)) (.ok ())
    | v :: _ => .returns v

/-- A body that compresses the heap before it reads the cell. -/
def compressing : Program (Datum Empty) (Datum Empty) :=
  .routine "compressing" (fun _ => .null) fun
    | [] => .yields (.bind (.primitive (.compress .inForce)) fun _ => .build (.primitive (.pure .null)))
        (.ok ())
    | [_] => .yields (.readHeap .inForce cell (.number 0)) (.ok ())
    | _ :: v :: _ => .returns v

theorem match_reading_compressing (host : Host (Datum Empty)) :
    reading.Match (.compressed host Datum.plain .maxTerm) Eq compressing := by
  refine .routine _ _ (fun _ => rfl) (fun t t' => t = [] ∧ t' = [] ∨ ∃ v, t = [v] ∧ t' = [.null, v])
    (.inl ⟨rfl, rfl⟩) ?_
  rintro _ _ (⟨rfl, rfl⟩ | ⟨v, rfl, rfl⟩)
  · refine .padRight trivial rfl (.bind (.compress rfl) rfl (.pure Datum.null)) ?_
    refine .yields (A := Eq) rfl rfl ?_ ?_
    · exact .readHeap rfl ⟨"r", "f", rfl⟩ fun _ _ => rfl
    · rintro v _ rfl
      exact .inr ⟨v, rfl, rfl⟩
  · exact .returns rfl rfl rfl

/-- A body that reads a cell with two chunks, and one that compresses first and finds one chunk. -/
theorem apply_compressed_reading :
    reading.Match (.compressed ⟨fun _ _ => .error .exhausted, 3⟩ Datum.plain .maxTerm) Eq compressing ∧
      Datum.plain.Heap [⟨cell, .int 1⟩, ⟨cell, .int 2⟩] ∧
      (State.ofChunks .empty [⟨cell, .int 1⟩, ⟨cell, .int 2⟩] : State (Datum Empty)).fused?
        = (State.ofChunks .empty [⟨cell, .int 2⟩]).fused? ∧
      ((reading.comp ⟨fun _ _ => .error .exhausted, 3⟩).apply
        (.state (.ofChunks .empty [⟨cell, .int 1⟩, ⟨cell, .int 2⟩])) (.of .guarded) {}).answer
        = .ok [⟨.state (.ofChunks .empty [⟨cell, .int 2⟩]), .int 2⟩] ∧
      ∃ steps, ∀ n ≥ steps, Outcome.Related Subject.FusedAlike Eq
        ((reading.comp ⟨fun _ _ => .error .exhausted, 3⟩).apply
          (.state (.ofChunks .empty [⟨cell, .int 1⟩, ⟨cell, .int 2⟩])) (.of .guarded) {})
        ((compressing.comp ⟨fun _ _ => .error .exhausted, n⟩).apply
          (.state (.ofChunks .empty [⟨cell, .int 2⟩])) (.of .guarded) {}) := by
  have matched := match_reading_compressing ⟨fun _ _ => .error .exhausted, 3⟩
  have claims : ∀ n, Datum.plain.Claim ⟨cell, .int n⟩ := fun n => ⟨⟨"r", "f", rfl⟩, ⟨n, rfl⟩⟩
  have heap : Datum.plain.Heap [⟨cell, .int 1⟩, ⟨cell, .int 2⟩] := by simp [Carrier.Heap, claims]
  have small : Datum.plain.Heap [⟨cell, .int 2⟩] := by simp [Carrier.Heap, claims]
  have serves : (Scope.of .guarded : Scope (Datum Empty)).Serves {} :=
    ⟨fun _ => rfl, fun _ => Context.loadable_default⟩
  refine ⟨matched, heap, rfl, rfl, ?_⟩
  exact apply_compressed ⟨fun _ _ => .error .exhausted, 3⟩ matched .nil .nil heap small rfl rfl serves
    (fun _ => rfl) rfl fun ends => nomatch ends

/-- Without settings to read, a read that fails drops its branch, but a compression before it succeeds, looks
at the settings and ends in a defect.  And a host function that asks which variable was bound first
distinguishes stores that agree. -/
theorem apply_unlike_compressed :
    ((((Program.primitive (.readVar (.text "x"))).comp ⟨fun _ _ => .error .exhausted, 0⟩).apply
        (.state .empty : Subject (Datum Empty)) (.of .guarded)
        { environment := [(Settings.capVariable, "abc")] }).answer = .ok [] ∧
      ((Program.bind (.primitive (.compress .inForce)) fun _ =>
          .build (.primitive (.readVar (.text "x")))).comp ⟨fun _ _ => .error .exhausted, 0⟩ |>.apply
        (.state .empty : Subject (Datum Empty)) (.of .guarded)
        { environment := [(Settings.capVariable, "abc")] }).answer
        = .error (.defect (.settings (.malformedCap "abc")))) ∧
    (⟨[(.text "a", .int 1), (.text "b", .int 2)]⟩ : Store (Datum Empty)).same
        ⟨[(.text "b", .int 2), (.text "a", .int 1)]⟩ = true ∧
      ((firstBound.comp ⟨fun _ _ => .error .exhausted, 0⟩).apply
        (.state (.ofChunks ⟨[(.text "a", .int 1), (.text "b", .int 2)]⟩ [])) (.of .guarded) {}).answer.map
          (List.map Branch.value) = .ok [some (.text "a")] ∧
      ((firstBound.comp ⟨fun _ _ => .error .exhausted, 0⟩).apply
        (.state (.ofChunks ⟨[(.text "b", .int 2), (.text "a", .int 1)]⟩ [])) (.of .guarded) {}).answer.map
          (List.map Branch.value) = .ok [some (.text "b")] :=
  ⟨⟨rfl, rfl⟩, rfl, rfl, rfl⟩

end Instances

end Program

end SymbolicPaths
