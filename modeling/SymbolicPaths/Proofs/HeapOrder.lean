import SymbolicPaths.Proofs.Matching
/-!
# The order of heaps

A heap is a list, and what carries no meaning is the order of its chunks.  Programs come upon it where a heap
is compressed: the locations are listed where they first occur, and the policy is asked about values in heap
order.  So the policy must not mind in which order values are listed, and since a compression ends in the
first fault that it meets, there must be one error at most that the policy ends in (`Carrier.Impartial`).
The policy that takes the largest term is impartial.

Then a compression takes permuted heaps to permuted heaps (`Carrier.Impartial.fused_perm`), and every other
primitive does so anyway.  Both runs do the same things at the same time, so the likeness is strict, and
nothing is asked of the settings.
-/

namespace SymbolicPaths

variable {V : Type} [Term V]

/-! ## Impartial policies -/

/-- A policy whose answers do not depend on the order of values, are values again, and are not replaced by
more than one error. -/
structure Carrier.Impartial (K : Carrier V) (choice : List V → Except (Fault V) V) : Prop where
  perm : ∀ {vs ws}, K.Several vs → vs.Perm ws → choice vs = choice ws
  value : ∀ {vs v}, K.Several vs → choice vs = .ok v → K.value v
  error : ∀ {vs ws e e'}, K.Several vs → K.Several ws → choice vs = .error e → choice ws = .error e' → e = e'

/-- The policy that takes the largest term is impartial: it has an answer always. -/
theorem Carrier.impartial_maxAnswer (K : Carrier V) : K.Impartial Unifier.maxAnswer where
  perm hvs hp := Unifier.maxAnswer_congr K.ordered hvs.values fun _ => hp.mem_iff
  value hvs hv := hvs.values _ ((Unifier.maxAnswer_eq_ok_iff K.ordered hvs.values).1 hv).1
  error hvs _ he _ := by
    obtain ⟨m, hm, -⟩ := hvs.exists_maxAnswer
    rw [hm] at he
    cases he

namespace Heap

variable {g k : List (Chunk V)}

theorem valuesAt_perm (hp : g.Perm k) (l : V) : (valuesAt l g).Perm (valuesAt l k) := (hp.filter _).map _

/-- Permuted heaps claim the same locations. -/
theorem claimed_perm {P : V → Prop} (discrete : Term.Discrete P) (located : Located P g) (hp : g.Perm k) :
    (claimed g).Perm (claimed k) := by
  have located' : Located P k := fun c hc => located c (hp.mem_iff.2 hc)
  have listed : ∀ {g k : List (Chunk V)}, Located P g → Located P k → g.Perm k →
      ∀ l ∈ claimed g, l ∈ claimed k := by
    intro g k located located' hp l hl
    have hP := forall_claimed located l hl
    obtain ⟨c, hc, hcl⟩ := (mem_claimed discrete located hP).1 hl
    exact (mem_claimed discrete located' hP).2 ⟨c, hp.mem_iff.1 hc, hcl⟩
  have once := nodup_claimed discrete located
  refine (List.perm_ext_iff_of_nodup once (nodup_claimed discrete located')).2 fun l => ?_
  exact ⟨listed located located' hp l, listed located' located hp.symm l⟩

end Heap

namespace Carrier.Impartial

variable {K : Carrier V} {choice : List V → Except (Fault V) V} {g k : List (Chunk V)}

/-- A location holds the same in permuted heaps. -/
theorem settled_eq (h : K.Impartial choice) (hg : K.Heap g) (hp : g.Perm k) {l : V}
    (hl : l ∈ Heap.claimed g) :
    Heap.settled choice (Heap.valuesAt l g) = Heap.settled choice (Heap.valuesAt l k) := by
  have listed := Heap.valuesAt_perm hp l
  rcases hg.one_or_several hl with ⟨v, hone⟩ | several
  · rw [hone] at listed ⊢
    rw [List.singleton_perm.1 listed]
  · rw [Heap.settled_of_two_le several.several, h.perm several listed,
      Heap.settled_of_two_le (listed.length_eq ▸ several.several)]

/-- What a compression makes of a heap, it makes of a permuted one up to order. -/
theorem fused_ok_perm (h : K.Impartial choice) (hg : K.Heap g) (hp : g.Perm k) {g' : List (Chunk V)}
    (hfused : Heap.fused choice g = .ok g') : ∃ k', Heap.fused choice k = .ok k' ∧ g'.Perm k' := by
  rw [Heap.fused, mapM_eq_ok_iff] at hfused
  have locations := Heap.claimed_perm K.discrete_location hg.located hp
  obtain ⟨k', hk', hperm⟩ := List.perm_comp_forall₂ locations.symm hfused
  refine ⟨k', mapM_eq_ok_iff.2 ?_, hperm.symm⟩
  refine List.forall₂_iff_get.2 ⟨hk'.length_eq, fun i hi hi' => ?_⟩
  have here := (List.forall₂_iff_get.1 hk').2 i hi hi'
  rw [h.settled_eq hg hp (locations.mem_iff.2 (List.get_mem ..))] at here
  exact here

/-- **Compressions take permuted heaps to permuted heaps**, or end in the same error. -/
theorem fused_perm (h : K.Impartial choice) (hg : K.Heap g) (hp : g.Perm k) :
    Answered List.Perm (Heap.fused choice g) (Heap.fused choice k) := by
  cases hfused : Heap.fused choice g with
  | ok g' =>
    obtain ⟨k', hk', hperm⟩ := h.fused_ok_perm hg hp hfused
    rw [hk']
    exact .ok hperm
  | error e =>
    cases hfused' : Heap.fused choice k with
    | ok k' =>
      obtain ⟨g', hg', -⟩ := h.fused_ok_perm (hg.perm hp) hp.symm hfused'
      rw [hfused] at hg'
      cases hg'
    | error e' =>
      obtain ⟨vs, several, hvs⟩ := hg.exists_of_fused_eq_error hfused
      obtain ⟨ws, several', hws⟩ := (hg.perm hp).exists_of_fused_eq_error hfused'
      obtain rfl := h.error several several' hvs hws
      exact .error e

end Carrier.Impartial

/-! ## Permuted heaps -/

/-- States with agreeing stores and permuted heaps, where policies are impartial. -/
def Likeness.permuted (host : Host V) (K : Carrier V) (policy : Policy V) : Likeness V where
  carrier := K
  policy := policy
  heap g k := K.Heap g ∧ g.Perm k
  unifier u := K.Impartial (u.verdict host policy)
  lax := False

section Lawful

variable {host : Host V} {K : Carrier V} {policy : Policy V} {u : Unifying V} {s t : Store V}
  {g k : List (Chunk V)}

open Run (Twin)

/-- Compressions of permuted heaps. -/
theorem compress_twin_permuted (hu : K.Impartial (u.verdict host policy)) (store : K.Agree s t)
    (hg : K.Heap g) (hp : g.Perm k) :
    Twin (.permuted host K policy) ((Likeness.permuted host K policy).BranchLists Eq)
      ((Comp.compress (u.run host)).body (.state (.ofChunks s g)))
      fun _ => (Comp.compress (u.run host)).body (.state (.ofChunks t k)) := by
  have here := u.compress_tells host policy K.discrete_location hg.located K.key_location s
  have there := u.compress_tells host policy K.discrete_location (hg.perm hp).located K.key_location t
  refine .of_tells here (fun _ => there) ?_
  have fused := hu.fused_perm hg hp
  revert fused
  cases hfused : Heap.fused (u.verdict host policy) g with
  | error e =>
    intro fused
    rw [fused.eq_error]
    exact .error e
  | ok g' =>
    intro fused
    obtain ⟨k', hk', hp'⟩ := fused.exists_ok
    rw [hk']
    have hg' := hg.compressed (fun _ _ several hv => hu.value several hv) hfused
    exact .ok (.cons ⟨.state store ⟨hg', hp'⟩, rfl⟩ .nil)

/-- What a read looks at: there is nothing to be found in either heap, or there is the same chunk in both,
or there are several chunks, as many in both. -/
theorem look_twin_permuted {l : V} (store : K.Agree s t) (hg : K.Heap g) (hp : g.Perm k)
    {go go' : List (Chunk V) → Run V (List (Branch V V))}
    (h : ∀ cs ds, cs.length = ds.length → Twin (.permuted host K policy)
      ((Likeness.permuted host K policy).BranchLists fun v w => v = w ∧ K.value v) (go cs) fun _ => go' ds) :
    Twin (.permuted host K policy)
      ((Likeness.permuted host K policy).BranchLists fun v w => v = w ∧ K.value v)
      (Comp.chunksAt l (.state (.ofChunks s g)) >>= fun
        | [] => Run.fail (.missing l)
        | [c] => pure [⟨.state (.ofChunks s g), c.value⟩]
        | several => go several)
      fun _ => Comp.chunksAt l (.state (.ofChunks t k)) >>= fun
        | [] => Run.fail (.missing l)
        | [c] => pure [⟨.state (.ofChunks t k), c.value⟩]
        | several => go' several := by
  have chunks : (Heap.chunksAt l g).Perm (Heap.chunksAt l k) := hp.filter _
  simp only [Comp.chunksAt_ofChunks, pure_bind]
  match hc : Heap.chunksAt l g, Heap.chunksAt l k, chunks, chunks.length_eq with
  | [], [], _, _ => exact .fail _
  | [c], [d], chunks, _ =>
    obtain rfl := List.singleton_perm_singleton.1 chunks
    have found := (Heap.mem_chunksAt.1 (hc ▸ List.mem_singleton_self c)).1
    exact .branch (.state store ⟨hg, hp⟩) ⟨rfl, (hg c found).2⟩
  | _ :: _ :: _, _ :: _ :: _, _, hlength => exact h _ _ hlength

/-- Reads of permuted heaps do alike, by induction on how often they may still be compressed. -/
theorem heapReadWithin_twin_permuted (hu : K.Impartial (u.verdict host policy)) {l : V} (retries : Nat)
    (attempt : Amount V) (store : K.Agree s t) (hg : K.Heap g) (hp : g.Perm k) :
    Twin (.permuted host K policy)
      ((Likeness.permuted host K policy).BranchLists fun v w => v = w ∧ K.value v)
      ((Comp.heapReadWithin (u.run host) l retries attempt).body (.state (.ofChunks s g)))
      fun _ => (Comp.heapReadWithin (u.run host) l retries attempt).body (.state (.ofChunks t k)) := by
  have household := (Run.Telling.family policy).household
  induction retries generalizing attempt s t g k with
  | zero =>
    refine look_twin_permuted store hg hp fun cs ds hlength => ?_
    refine (Twin.same (household.ordered ..)).bind fun _ _ _ => ?_
    rw [hlength]
    exact .complain _
  | succ retries ih =>
    refine look_twin_permuted store hg hp fun cs ds hlength => ?_
    refine (Twin.same (household.ordered ..)).bind fun next _ hnext => ?_
    subst hnext
    rw [hlength]
    refine (Twin.same (household.remark rfl)).bind fun _ _ _ => ?_
    have compressed : Twin (.permuted host K policy) ((Likeness.permuted host K policy).BranchLists Eq)
        ((Comp.compress (u.run host)).apply (.state (.ofChunks s g)))
        fun _ => (Comp.compress (u.run host)).apply (.state (.ofChunks t k)) :=
      .apply (.state store ⟨hg, hp⟩) (compress_twin_permuted hu store hg hp)
    refine .apply (.state store ⟨hg, hp⟩) (compressed.bindComp ?_)
    rintro _ _ - _ _ ⟨store', hg', hp'⟩
    refine .apply (.state store' ⟨hg', hp'⟩) (.apply (.state store' ⟨hg', hp'⟩) ?_)
    exact ih _ store' hg' hp'

/-- **Primitives keep heaps permuted.** -/
theorem Likeness.lawful_permuted (host : Host V) (K : Carrier V) (policy : Policy V) :
    (Likeness.permuted host K policy).Lawful host where
  left h := h.1
  right h := h.1.perm h.2
  cons h hc := ⟨h.1.cons hc, h.2.cons _⟩
  overwrite h _ hv := ⟨h.1.overwritten hv _, h.2.map _⟩
  compress hu store h := compress_twin_permuted hu store h.1 h.2
  readHeap hu _ store h := heapReadWithin_twin_permuted hu _ _ store h.1 h.2
  pad h := absurd h id

end Lawful

/-! ## Equivalent states -/

/-- Equivalent states. -/
inductive Subject.Equivalent : Subject V → Subject V → Prop
  | state {s t : State V} (h : s.equivalent? t = .ok true) : Equivalent (.state s) (.state t)

/-- States that are alike are equivalent, where values can be counted. -/
theorem Likeness.Subjects.equivalent {host : Host V} {K : Carrier V} {policy : Policy V}
    (keys : ∀ {v}, K.value v → Term.unhashable? v = none) {s t : Subject V}
    (h : (Likeness.permuted host K policy).Subjects s t) : s.Equivalent t := by
  obtain ⟨store, hg, hp⟩ := h
  have decided := Carrier.equivalent?_eq_ok_true_iff keys store.left store.right hg (hg.perm hp)
  exact .state (decided.2 ⟨store, hp⟩)

namespace Program

/-- **The order of a heap carries no meaning.**  Take a program over the terms of a carrier, with policies
that are impartial, whose host functions do not distinguish stores that agree.  From two equivalent states it
has branches with results that are related, one by one and in order, in equivalent states; and what is
dropped on the way are the same errors in equivalent states.  If the first run ends in an error, the second
one ends in the same.  The first run has to end at all, and the second one may need steps of its own. -/
theorem apply_equivalent (host : Host V) {K : Carrier V} (keys : ∀ {v}, K.value v → Term.unhashable? v = none)
    {policy : Policy V} {α : Type} {A : α → α → Prop} {p : Program V α}
    (hp : p.Match (.permuted host K policy) A p) {s t : Store V} {g k : List (Chunk V)}
    (hs : K.Table s.entries) (ht : K.Table t.entries) (hg : K.Heap g) (hk : K.Heap k)
    (equivalent : (State.ofChunks s g).equivalent? (.ofChunks t k) = .ok true) {σ : Scope V} {c : Context V}
    (records : ∀ e, σ.records e = .ok ()) (receives : ∀ d, σ.receives d = .ok ()) (hc : c.policy = policy)
    (ends : ((p.comp host).apply (.state (.ofChunks s g)) σ c).answer ≠ .error .exhausted) :
    ∃ steps, ∀ n ≥ steps, Outcome.Related Subject.Equivalent A
      ((p.comp host).apply (.state (.ofChunks s g)) σ c)
      ((p.comp (host.within n)).apply (.state (.ofChunks t k)) σ c) := by
  obtain ⟨store, heap⟩ := (Carrier.equivalent?_eq_ok_true_iff keys hs ht hg hk).1 equivalent
  have contexts : (Likeness.permuted host K policy).Contexts σ c c :=
    ⟨records, receives, hc, fun _ => rfl, fun lax => absurd lax id⟩
  have twin := hp.twin (Likeness.lawful_permuted host K policy) (.state store ⟨hg, heap⟩)
  exact twin.related (fun _ _ h => h.equivalent keys) contexts ends

section Instances

open Script

/-- Whichever of two chunks comes first, the larger value is read. -/
theorem apply_equivalent_keepAndRead :
    (∀ {v : Datum Empty}, Datum.plain.value v → Term.unhashable? v = none) ∧
      keepAndRead.Match (.permuted ⟨fun _ _ => .error .exhausted, 0⟩ Datum.plain .maxTerm) Eq keepAndRead ∧
      Datum.plain.Heap [⟨cell, .int 1⟩, ⟨cell, .int 2⟩] ∧
      (State.ofChunks .empty [⟨cell, .int 1⟩, ⟨cell, .int 2⟩]).equivalent?
        (.ofChunks .empty [⟨cell, .int 2⟩, ⟨cell, .int 1⟩]) = .ok true ∧
      ((keepAndRead.comp ⟨fun _ _ => .error .exhausted, 0⟩).apply
        (.state (.ofChunks .empty [⟨cell, .int 1⟩, ⟨cell, .int 2⟩])) (.of .guarded) {}).answer
        = .ok [⟨.state (.ofChunks ⟨[(.text "x", .int 2)]⟩ [⟨cell, .int 2⟩]), .int 2⟩] ∧
      ∃ steps, ∀ n ≥ steps, Outcome.Related Subject.Equivalent Eq
        ((keepAndRead.comp ⟨fun _ _ => .error .exhausted, 0⟩).apply
          (.state (.ofChunks .empty [⟨cell, .int 1⟩, ⟨cell, .int 2⟩])) (.of .guarded) {})
        ((keepAndRead.comp ⟨fun _ _ => .error .exhausted, n⟩).apply
          (.state (.ofChunks .empty [⟨cell, .int 2⟩, ⟨cell, .int 1⟩])) (.of .guarded) {}) := by
  have keys : ∀ {v : Datum Empty}, Datum.plain.value v → Term.unhashable? v = none := by
    rintro _ ⟨n, rfl⟩
    rfl
  have matched : keepAndRead.Match (.permuted ⟨fun _ _ => .error .exhausted, 0⟩ Datum.plain .maxTerm) Eq
      keepAndRead := match_keepAndRead rfl (Carrier.impartial_maxAnswer Datum.plain)
  have claims : ∀ n, Datum.plain.Claim ⟨cell, .int n⟩ := fun n => ⟨⟨"r", "f", rfl⟩, ⟨n, rfl⟩⟩
  have heap : Datum.plain.Heap [⟨cell, .int 1⟩, ⟨cell, .int 2⟩] := by
    simp [Carrier.Heap, claims]
  have turned : Datum.plain.Heap [⟨cell, .int 2⟩, ⟨cell, .int 1⟩] := heap.perm (.swap ..)
  refine ⟨keys, matched, heap, rfl, rfl, ?_⟩
  exact apply_equivalent ⟨fun _ _ => .error .exhausted, 0⟩ keys matched .nil .nil heap turned rfl
    (fun _ => rfl) (fun _ => rfl) rfl fun ends => nomatch ends

/-- A policy that gives up, saying how many values there are. -/
def tooMany (vs : List (Datum Empty)) : Except (Fault (Datum Empty)) (Datum Empty) :=
  .error (.failure (.abandoned [.int vs.length]))

/-- A cell that is claimed twice. -/
def twice : List (Chunk (Datum Empty)) := List.replicate 2 ⟨cell, .int 0⟩

/-- Another cell that is claimed three times. -/
def thrice : List (Chunk (Datum Empty)) := List.replicate 3 ⟨.location (.text "q") (.text "f"), .int 0⟩

/-- A host function that asks which variable was bound first distinguishes stores that agree.  And a policy
that says how many values there are does not mind their order, but what it says of a heap is what it says of
the location that comes first. -/
theorem apply_unlike_from_equivalent :
    ((State.ofChunks ⟨[(.text "a", .int 1), (.text "b", .int 2)]⟩ [] : State (Datum Empty)).equivalent?
        (.ofChunks ⟨[(.text "b", .int 2), (.text "a", .int 1)]⟩ []) = .ok true ∧
      ((firstBound.comp ⟨fun _ _ => .error .exhausted, 0⟩).apply
        (.state (.ofChunks ⟨[(.text "a", .int 1), (.text "b", .int 2)]⟩ [])) (.of .guarded) {}).answer.map
          (List.map Branch.value) = .ok [some (.text "a")] ∧
      ((firstBound.comp ⟨fun _ _ => .error .exhausted, 0⟩).apply
        (.state (.ofChunks ⟨[(.text "b", .int 2), (.text "a", .int 1)]⟩ [])) (.of .guarded) {}).answer.map
          (List.map Branch.value) = .ok [some (.text "b")]) ∧
    (∀ vs ws, vs.Perm ws → tooMany vs = tooMany ws) ∧
      (State.ofChunks .empty (twice ++ thrice)).equivalent? (.ofChunks .empty (thrice ++ twice)) = .ok true ∧
      (((Program.primitive (.compress (.given tooMany))).comp ⟨fun _ _ => .error .exhausted, 0⟩).apply
        (.state (.ofChunks .empty (twice ++ thrice))) (.of .guarded) {}).dropped.map Dropped.error
        = [.abandoned [.int 2]] ∧
      (((Program.primitive (.compress (.given tooMany))).comp ⟨fun _ _ => .error .exhausted, 0⟩).apply
        (.state (.ofChunks .empty (thrice ++ twice))) (.of .guarded) {}).dropped.map Dropped.error
        = [.abandoned [.int 3]] := by
  refine ⟨⟨rfl, rfl, rfl⟩, fun vs ws hp => ?_, rfl, rfl, rfl⟩
  rw [tooMany, tooMany, hp.length_eq]

end Instances

end Program

end SymbolicPaths
