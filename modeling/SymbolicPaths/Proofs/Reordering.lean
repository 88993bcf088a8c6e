import SymbolicPaths.Proofs.Counting
import SymbolicPaths.Proofs.Equality
import SymbolicPaths.Proofs.Telling
/-!
# States that are equal up to order

Among terms where to agree is an equivalence, a term is told by its class: by all the terms that it agrees
with.  Chunks, members and bindings are told by the classes of their parts, and so `SymbolicPaths.Proofs.Counting`
applies: to compare heaps by counting is to ask whether they are equal up to order
(`State.heapEqual?_iff_reordered`), and this and the equivalence of states are equivalences.

What a program does to a heap by location and value can be said of classes as well, and so what does the same
to heaps that are equal up to order leaves them so.
-/

namespace SymbolicPaths

variable {V W : Type}

/-- The chunk with its parts replaced. -/
def Chunk.map (f : V → W) (c : Chunk V) : Chunk W := ⟨f c.location, f c.value⟩

namespace Member

/-- The member with its parts replaced. -/
def map (f : V → W) : Member V → Member W
  | chunk c => chunk (c.map f)
  | foreign v => foreign (f v)

/-- The parts of the member are such terms. -/
def Over (P : V → Prop) : Member V → Prop
  | chunk c => P c.location ∧ P c.value
  | foreign v => P v

/-- Chunks are labelled as members just as they are labelled as chunks. -/
theorem map_map_chunk (f : V → W) (h : List (Chunk V)) :
    (h.map chunk).map (map f) = (h.map (Chunk.map f)).map chunk := by
  rw [List.map_map, List.map_map]
  rfl

end Member

variable [Term V]

/-- The terms among these that a term agrees with. -/
def Term.classOf (P : V → Prop) (a : V) : V → Prop := fun b => P b ∧ Term.same a b = true

/-- A heap whose members can be counted: their parts are such terms, and each can be a key. -/
structure Heap.Countable (P : V → Prop) (h : List (Member V)) : Prop where
  parts : ∀ m ∈ h, m.Over P
  keys : Heap.uncountable? h = none

/-- A store of such terms, in which no name stands twice. -/
structure Store.Over (P : V → Prop) (s : Store V) : Prop where
  distinct : s.entries.Pairwise fun e f => Term.same e.1 f.1 = false
  bindings : ∀ e ∈ s.entries, P e.1 ∧ P e.2

/-- The chunks of such a heap have such parts. -/
theorem Heap.Countable.chunks {P : V → Prop} {h : List (Chunk V)} (hh : Heap.Countable P (h.map .chunk)) :
    ∀ c ∈ h, P c.location ∧ P c.value := fun _ hc => hh.parts _ (List.mem_map_of_mem hc)

namespace Term.Equivalent

variable {P : V → Prop} (equivalent : Term.Equivalent P) {a b l l' v v' : V} {s t : Store V}
  {h k : List (Chunk V)}

include equivalent

/-- Terms agree if they are of one class. -/
theorem classOf_eq_iff (ha : P a) (hb : P b) :
    Term.classOf P a = Term.classOf P b ↔ Term.same a b = true := by
  constructor
  · intro h
    have own : Term.classOf P b b := ⟨hb, equivalent.refl hb⟩
    exact (h ▸ own : Term.classOf P a b).2
  · intro h
    funext c
    refine propext (and_congr_right fun hc => ?_)
    rw [equivalent.same_congr ha hb hc h]

/-- Members are labelled by the classes of their parts. -/
theorem labels : Heap.Labels (Member.Over P) (Member.map (Term.classOf P)) := by
  intro m n hm hn
  cases m with
  | chunk c =>
    cases n with
    | chunk d =>
      rw [Member.same, Chunk.same, Bool.and_eq_true, ← equivalent.classOf_eq_iff hm.1 hn.1,
        ← equivalent.classOf_eq_iff hm.2 hn.2, Member.map, Member.map, Member.chunk.injEq, Chunk.map, Chunk.map,
        Chunk.mk.injEq]
    | foreign w => simp [Member.same, Member.map]
  | foreign v =>
    cases n with
    | chunk d => simp [Member.same, Member.map]
    | foreign w =>
      rw [Member.same, ← equivalent.classOf_eq_iff hm hn, Member.map, Member.map, Member.foreign.injEq]

/-- Stores agree if the classes of their bindings are permuted. -/
theorem store_same_iff (hs : s.Over P) (ht : t.Over P) :
    s.same t = true ↔ (s.entries.map fun e => (Term.classOf P e.1, Term.classOf P e.2)).Perm
      (t.entries.map fun e => (Term.classOf P e.1, Term.classOf P e.2)) := by
  refine lookedUp_iff_perm (List.pairwise_map.2 (hs.distinct.imp_of_mem ?_)) fun e he f hf => ?_
  · intro e f he hf apart together
    have agree := (equivalent.classOf_eq_iff (hs.bindings e he).1 (hs.bindings f hf).1).1
      (congrArg Prod.fst together)
    rw [apart] at agree
    cases agree
  · obtain ⟨hname, hvalue⟩ := hs.bindings e he
    obtain ⟨hname', hvalue'⟩ := ht.bindings f hf
    rw [Bool.and_eq_true, ← equivalent.classOf_eq_iff hname hname', ← equivalent.classOf_eq_iff hvalue hvalue',
      Prod.mk.injEq]

/-- To overwrite a location depends on the classes only. -/
theorem exists_overwritten (hl : P l) (v : V) : ∃ g : Chunk (V → Prop) → Chunk (V → Prop),
    ∀ l' v', P l' → Term.same l l' = true → Term.classOf P v' = Term.classOf P v →
      ∀ h : List (Chunk V), (∀ c ∈ h, P c.location ∧ P c.value) →
        (Heap.overwrite l' v' h).map (Chunk.map (Term.classOf P))
          = (h.map (Chunk.map (Term.classOf P))).map g := by
  classical
  refine ⟨fun c => if c.location = Term.classOf P l then ⟨c.location, Term.classOf P v⟩ else c,
    fun l' v' hl' hll' hv h hh => ?_⟩
  rw [Heap.overwrite, List.map_map, List.map_map]
  refine List.map_congr_left fun c hc => ?_
  have there : Term.same c.location l' = true ↔ Term.classOf P c.location = Term.classOf P l := by
    rw [← equivalent.classOf_eq_iff (hh c hc).1 hl', (equivalent.classOf_eq_iff hl hl').2 hll']
  by_cases hc' : Term.same c.location l' = true
  · simp [hc', Chunk.map, Chunk.withValue, there.1 hc', hv]
  · have away : ¬ Term.classOf P c.location = Term.classOf P l := fun h => hc' (there.2 h)
    simp [hc', Chunk.map, away]

/-- How many chunks are at a location depends on the classes only. -/
theorem length_chunksAt_eq (hl : P l) (hh : ∀ c ∈ h, P c.location ∧ P c.value)
    (hk : ∀ c ∈ k, P c.location ∧ P c.value)
    (hp : (h.map (Chunk.map (Term.classOf P))).Perm (k.map (Chunk.map (Term.classOf P)))) :
    (Heap.chunksAt l h).length = (Heap.chunksAt l k).length := by
  classical
  have counted : ∀ h : List (Chunk V), (∀ c ∈ h, P c.location ∧ P c.value) → (Heap.chunksAt l h).length
      = (h.map (Chunk.map (Term.classOf P))).countP fun c => c.location = Term.classOf P l := by
    intro h hh
    rw [List.countP_map, Heap.chunksAt, ← List.countP_eq_length_filter]
    refine List.countP_congr fun c hc => ?_
    rw [← equivalent.classOf_eq_iff (hh c hc).1 hl]
    exact decide_eq_true_iff.symm
  rw [counted h hh, counted k hk, hp.countP_eq]

end Term.Equivalent

/-- Heaps that agree member by member have as many members. -/
theorem Heap.length_eq_of_same : ∀ {h k : List (Member V)}, Heap.same h k = true → h.length = k.length
  | [], [], _ => rfl
  | _ :: _, _ :: _, hs => congrArg Nat.succ (length_eq_of_same (Bool.and_eq_true_iff.1 hs).2)

namespace State

variable {P : V → Prop} {s t : State V}

/-- Heaps that can be counted are compared by their counts. -/
theorem heapEqual?_of_countable (hs : Heap.Countable P s.heap) (ht : Heap.Countable P t.heap) :
    s.heapEqual? t = .ok (Heap.sameCounts (Heap.multiset s.heap) (Heap.multiset t.heap)) := by
  rw [heapEqual?, hs.keys, ht.keys]
  rfl

/-- States are equivalent if their stores agree and their heaps are equal. -/
theorem equivalent?_iff : s.equivalent? t = .ok true ↔ s.store.same t.store = true ∧ s.heapEqual? t = .ok true := by
  rw [equivalent?]
  split
  · simp [*]
  · simp [*]

/-- Whether such states are equivalent is decided. -/
theorem exists_equivalent? (hs : Heap.Countable P s.heap) (ht : Heap.Countable P t.heap) :
    ∃ decided, s.equivalent? t = .ok decided := by
  rw [equivalent?, heapEqual?_of_countable hs ht]
  split
  · exact ⟨_, rfl⟩
  · exact ⟨_, rfl⟩

section Equivalent

variable (equivalent : Term.Equivalent P) {store store' : Store V} {h k : List (Chunk V)} {m n : Member V}
  {l l' v v' : V}

include equivalent

/-- Heaps are equal if the classes of their members are permuted. -/
theorem heapEqual?_iff_perm (hs : Heap.Countable P s.heap) (ht : Heap.Countable P t.heap) :
    s.heapEqual? t = .ok true
      ↔ (s.heap.map (Member.map (Term.classOf P))).Perm (t.heap.map (Member.map (Term.classOf P))) := by
  rw [heapEqual?_of_countable hs ht, Except.ok.injEq,
    equivalent.labels.sameCounts_multiset_iff hs.parts ht.parts]

/-- And heaps of chunks if the classes of these are. -/
theorem heapEqual?_ofChunks_iff_perm (hh : Heap.Countable P (h.map .chunk))
    (hk : Heap.Countable P (k.map .chunk)) :
    (ofChunks store h).heapEqual? (ofChunks store' k) = .ok true
      ↔ (h.map (Chunk.map (Term.classOf P))).Perm (k.map (Chunk.map (Term.classOf P))) := by
  have injective : Function.Injective (Member.chunk : Chunk (V → Prop) → Member (V → Prop)) :=
    fun _ _ => Member.chunk.inj
  rw [heapEqual?_iff_perm equivalent hh hk, ofChunks, ofChunks, Member.map_map_chunk, Member.map_map_chunk]
  exact List.map_perm_map_iff injective

/-- **Heaps are equal if one can be reordered to agree with the other**, member by member. -/
theorem heapEqual?_iff_reordered (hs : Heap.Countable P s.heap) (ht : Heap.Countable P t.heap) :
    s.heapEqual? t = .ok true ↔ ∃ k, k.Perm t.heap ∧ Heap.same s.heap k = true := by
  rw [heapEqual?_iff_perm equivalent hs ht, equivalent.labels.perm_iff_reordered hs.parts ht.parts]

/-- So this is an equivalence. -/
theorem heapEqual?_equivalence : Equivalence fun s t : { s : State V // Heap.Countable P s.heap } =>
    s.1.heapEqual? t.1 = .ok true where
  refl s := (heapEqual?_iff_perm equivalent s.2 s.2).2 (.refl _)
  symm {s t} hst := by
    rw [heapEqual?_iff_perm equivalent s.2 t.2] at hst
    exact (heapEqual?_iff_perm equivalent t.2 s.2).2 hst.symm
  trans {s t u} hst htu := by
    rw [heapEqual?_iff_perm equivalent s.2 t.2] at hst
    rw [heapEqual?_iff_perm equivalent t.2 u.2] at htu
    exact (heapEqual?_iff_perm equivalent s.2 u.2).2 (hst.trans htu)

/-- And so is the equivalence of states. -/
theorem equivalent?_equivalence :
    Equivalence fun s t : { s : State V // s.store.Over P ∧ Heap.Countable P s.heap } =>
      s.1.equivalent? t.1 = .ok true where
  refl s := equivalent?_iff.2 ⟨(equivalent.store_same_iff s.2.1 s.2.1).2 (.refl _),
    (heapEqual?_equivalence equivalent).refl ⟨s.1, s.2.2⟩⟩
  symm {s t} hst := by
    obtain ⟨stores, heaps⟩ := equivalent?_iff.1 hst
    rw [equivalent.store_same_iff s.2.1 t.2.1] at stores
    exact equivalent?_iff.2 ⟨(equivalent.store_same_iff t.2.1 s.2.1).2 stores.symm,
      (heapEqual?_equivalence equivalent).symm (x := ⟨s.1, s.2.2⟩) (y := ⟨t.1, t.2.2⟩) heaps⟩
  trans {s t u} hst htu := by
    obtain ⟨stores, heaps⟩ := equivalent?_iff.1 hst
    obtain ⟨stores', heaps'⟩ := equivalent?_iff.1 htu
    rw [equivalent.store_same_iff s.2.1 t.2.1] at stores
    rw [equivalent.store_same_iff t.2.1 u.2.1] at stores'
    exact equivalent?_iff.2 ⟨(equivalent.store_same_iff s.2.1 u.2.1).2 (stores.trans stores'),
      (heapEqual?_equivalence equivalent).trans (x := ⟨s.1, s.2.2⟩) (y := ⟨t.1, t.2.2⟩) (z := ⟨u.1, u.2.2⟩)
        heaps heaps'⟩

/-- Equivalent states stay so when members that agree are added. -/
theorem equivalent?_cons (hs : Heap.Countable P s.heap) (ht : Heap.Countable P t.heap) (hm : m.Over P)
    (hn : n.Over P) (hmn : m.same n = true) (hst : s.equivalent? t = .ok true)
    (keys : Heap.uncountable? (m :: s.heap) = none) (keys' : Heap.uncountable? (n :: t.heap) = none) :
    (s.withHeap (m :: s.heap)).equivalent? (t.withHeap (n :: t.heap)) = .ok true := by
  obtain ⟨stores, heaps⟩ := equivalent?_iff.1 hst
  rw [heapEqual?_iff_perm equivalent hs ht] at heaps
  have hs' : Heap.Countable P (m :: s.heap) := ⟨List.forall_mem_cons.2 ⟨hm, hs.parts⟩, keys⟩
  have ht' : Heap.Countable P (n :: t.heap) := ⟨List.forall_mem_cons.2 ⟨hn, ht.parts⟩, keys'⟩
  refine equivalent?_iff.2 ⟨stores, (heapEqual?_iff_perm equivalent hs' ht').2 ?_⟩
  rw [withHeap, withHeap, List.map_cons, List.map_cons, (equivalent.labels hm hn).1 hmn]
  exact heaps.cons _

/-- And when what agrees is written where it agrees. -/
theorem equivalent?_overwrite (hh : Heap.Countable P (h.map .chunk)) (hk : Heap.Countable P (k.map .chunk))
    (hl : P l) (hl' : P l') (hv : P v) (hv' : P v') (hll' : Term.same l l' = true)
    (hvv' : Term.same v v' = true) (hst : (ofChunks store h).equivalent? (ofChunks store' k) = .ok true)
    (keys : Heap.uncountable? ((Heap.overwrite l v h).map Member.chunk) = none)
    (keys' : Heap.uncountable? ((Heap.overwrite l' v' k).map Member.chunk) = none) :
    (ofChunks store (Heap.overwrite l v h)).equivalent? (ofChunks store' (Heap.overwrite l' v' k)) = .ok true := by
  obtain ⟨stores, heaps⟩ := equivalent?_iff.1 hst
  rw [heapEqual?_ofChunks_iff_perm equivalent hh hk] at heaps
  have countable : ∀ {h : List (Chunk V)} {l v : V}, Heap.Countable P (h.map .chunk) → P v →
      Heap.uncountable? ((Heap.overwrite l v h).map Member.chunk) = none →
      Heap.Countable P ((Heap.overwrite l v h).map .chunk) := by
    refine fun hh hv keys => ⟨fun m hm => ?_, keys⟩
    obtain ⟨c, hc, rfl⟩ := List.mem_map.1 hm
    obtain ⟨d, hd, rfl⟩ := List.mem_map.1 hc
    have old := hh.chunks d hd
    split
    · exact ⟨old.1, hv⟩
    · exact old
  obtain ⟨g, hg⟩ := equivalent.exists_overwritten hl v
  refine equivalent?_iff.2 ⟨stores,
    (heapEqual?_ofChunks_iff_perm equivalent (countable hh hv keys) (countable hk hv' keys')).2 ?_⟩
  rw [hg l v hl (equivalent.refl hl) rfl h hh.chunks,
    hg l' v' hl' hll' ((equivalent.classOf_eq_iff hv hv').2 hvv').symm k hk.chunks]
  exact heaps.map g

/-- **States are compared up to the order of their heaps.**  Let to agree be an equivalence on some terms, and
take states with heaps of such terms whose members can all be keys.

* Heaps are compared with an answer, and so are states.  Heaps are equal just if they have as many members
  and those of the second can be reordered so that they agree with those of the first, one by one.
* So this is an equivalence of states, and to be equivalent is one if moreover the stores are of such terms.
* Chunks that agree can be added to equivalent states, and values that agree written to them at locations that
  agree: they stay equivalent, as long as their members can be keys.
* Of states with equal counts as many chunks are at each location. -/
theorem compared_up_to_order :
    (∀ s t : State V, Heap.Countable P s.heap → Heap.Countable P t.heap →
      (∃ decided, s.heapEqual? t = .ok decided) ∧ (∃ decided, s.equivalent? t = .ok decided) ∧
      (s.heapEqual? t = .ok true ↔
        s.heap.length = t.heap.length ∧ ∃ k, k.Perm t.heap ∧ Heap.same s.heap k = true)) ∧
    (Equivalence fun s t : { s : State V // Heap.Countable P s.heap } => s.1.heapEqual? t.1 = .ok true) ∧
    (Equivalence fun s t : { s : State V // s.store.Over P ∧ Heap.Countable P s.heap } =>
      s.1.equivalent? t.1 = .ok true) ∧
    (∀ (s t : State V) (m n : Member V), Heap.Countable P s.heap → Heap.Countable P t.heap →
      m.Over P → n.Over P → m.same n = true → s.equivalent? t = .ok true →
      ∃ s' t', (Comp.addChunk m).body (.state s) = pure [⟨.state s', ()⟩] ∧
        (Comp.addChunk n).body (.state t) = pure [⟨.state t', ()⟩] ∧
        (Heap.uncountable? s'.heap = none → Heap.uncountable? t'.heap = none →
          s'.equivalent? t' = .ok true)) ∧
    (∀ (store store' : Store V) (h k : List (Chunk V)) (l l' v v' : V),
      Heap.Countable P (h.map .chunk) → Heap.Countable P (k.map .chunk) → P l → P l' → P v → P v' →
      Term.same l l' = true → Term.same v v' = true →
      (ofChunks store h).equivalent? (ofChunks store' k) = .ok true →
      ∃ s' t', (Comp.heapWrite l v).body (.state (ofChunks store h)) = pure [⟨.state s', ()⟩] ∧
        (Comp.heapWrite l' v').body (.state (ofChunks store' k)) = pure [⟨.state t', ()⟩] ∧
        (Heap.uncountable? s'.heap = none → Heap.uncountable? t'.heap = none →
          s'.equivalent? t' = .ok true)) ∧
    (∀ (store store' : Store V) (h k : List (Chunk V)) (l : V),
      Heap.Countable P (h.map .chunk) → Heap.Countable P (k.map .chunk) → P l →
      Heap.sameCounts (Heap.multiset (h.map .chunk)) (Heap.multiset (k.map .chunk)) = true →
      ∃ found found', Comp.chunksAt l (.state (ofChunks store h)) = pure found ∧
        Comp.chunksAt l (.state (ofChunks store' k)) = pure found' ∧ found.length = found'.length) := by
  refine ⟨fun s t hs ht => ⟨⟨_, heapEqual?_of_countable hs ht⟩, exists_equivalent? hs ht, ?_⟩,
    heapEqual?_equivalence equivalent, equivalent?_equivalence equivalent, ?_, ?_, ?_⟩
  · rw [heapEqual?_iff_reordered equivalent hs ht]
    refine ⟨?_, And.right⟩
    rintro ⟨k, hp, hk⟩
    exact ⟨(Heap.length_eq_of_same hk).trans hp.length_eq, k, hp, hk⟩
  · exact fun s t m n hs ht hm hn hmn hst =>
      ⟨_, _, rfl, rfl, equivalent?_cons equivalent hs ht hm hn hmn hst⟩
  · intro store store' h k l l' v v' hh hk hl hl' hv hv' hll' hvv' hst
    refine ⟨_, _, Comp.heapWrite_body_ofChunks .., Comp.heapWrite_body_ofChunks .., ?_⟩
    exact equivalent?_overwrite equivalent hh hk hl hl' hv hv' hll' hvv' hst
  · intro store store' h k l hh hk hl counts
    refine ⟨_, _, Comp.chunksAt_ofChunks .., Comp.chunksAt_ofChunks .., ?_⟩
    have equal : (ofChunks store h).heapEqual? (ofChunks store' k) = .ok true := by
      rw [heapEqual?_of_countable hh hk]
      exact congrArg Except.ok counts
    exact equivalent.length_chunksAt_eq hl hh.chunks hk.chunks
      ((heapEqual?_ofChunks_iff_perm equivalent hh hk).1 equal)

end Equivalent

section Instances

open Script

/-- Three chunks, two of which agree although they are written differently. -/
def doubled : List (Chunk (Datum Empty)) :=
  [⟨.text "x", .bool true⟩, ⟨.text "y", .int 2⟩, ⟨.text "x", .int 1⟩]

/-- The same chunks in another order, and in another writing. -/
def doubledAgain : List (Chunk (Datum Empty)) :=
  [⟨.text "y", .int 2⟩, ⟨.text "x", .int 1⟩, ⟨.text "x", .int 1⟩]

/-- Heaps with chunks twice: they are equal since the second can be reordered, and there are two chunks at
`x` in each. -/
theorem doubled_compared_up_to_order :
    Term.Equivalent (Datum.WellKeyed (P := Empty)) ∧
    (ofChunks {} doubled).heapEqual? (ofChunks {} doubledAgain) = .ok true ∧
    ∃ found found', Comp.chunksAt (.text "x") (.state (ofChunks {} doubled)) = pure found ∧
      Comp.chunksAt (.text "x") (.state (ofChunks {} doubledAgain)) = pure found' ∧
      found.length = found'.length := by
  have countable : Heap.Countable Datum.WellKeyed (doubled.map .chunk) :=
    ⟨by simp [doubled, Member.Over, Datum.WellKeyed], rfl⟩
  have countable' : Heap.Countable Datum.WellKeyed (doubledAgain.map .chunk) :=
    ⟨by simp [doubledAgain, Member.Over, Datum.WellKeyed], rfl⟩
  obtain ⟨compared, -, -, -, -, located⟩ := compared_up_to_order (Datum.equivalent_wellKeyed (P := Empty))
  obtain ⟨-, -, equal⟩ := compared (ofChunks {} doubled) (ofChunks {} doubledAgain) countable countable'
  have reordered : [.chunk ⟨.text "x", .int 1⟩, .chunk ⟨.text "y", .int 2⟩, .chunk ⟨.text "x", .int 1⟩].Perm
      (doubledAgain.map Member.chunk) := .swap _ _ _
  exact ⟨Datum.equivalent_wellKeyed, equal.2 ⟨rfl, _, reordered, rfl⟩,
    located {} {} _ _ (.text "x") countable countable' trivial rfl⟩

end Instances

end State

end SymbolicPaths
