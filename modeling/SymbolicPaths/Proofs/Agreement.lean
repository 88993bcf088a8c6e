import SymbolicPaths.Proofs.Carrier
import SymbolicPaths.Proofs.Counting
/-!
# When states agree

Stores agree if they bind the same names to the same values, in whatever order, and states are equivalent
if moreover their heaps are equal as multisets.  Both are decided by comparing entries as terms, pair by
pair.  Among the terms of a carrier this decides what is meant by it: the bindings of one store are a
permutation of those of the other (`Carrier.same_iff_perm`), and so are the chunks of the heaps
(`Carrier.heapEqual?_eq_ok_true_iff`).

So an agreement is a permutation here, and what programs do to stores is shown to respect it.
-/

namespace SymbolicPaths

variable {V : Type} [Term V]

namespace Carrier

variable {K : Carrier V} {entries es fs : List (V × V)} {e : V × V} {name value : V}

/-! ## Tables -/

namespace Table

theorem nil : K.Table [] := ⟨List.nodup_nil, by simp, by simp⟩

theorem tail (h : K.Table (e :: entries)) : K.Table entries :=
  ⟨(List.nodup_cons.1 h.once).2, fun f hf => h.names f (List.mem_cons_of_mem e hf),
    fun f hf => h.values f (List.mem_cons_of_mem e hf)⟩

/-- The first binding is the only one of its name. -/
theorem name_ne (h : K.Table (e :: entries)) {f : V × V} (hf : f ∈ entries) : f.1 ≠ e.1 := fun hn =>
  (List.nodup_cons.1 h.once).1 (hn ▸ List.mem_map_of_mem hf)

theorem nodup (h : K.Table entries) : entries.Nodup := h.once.of_map _

/-- To look a name up is to find its binding. -/
theorem find?_eq_some_iff (h : K.Table entries) (hn : K.name name) :
    Store.find? ⟨entries⟩ name = some value ↔ (name, value) ∈ entries := by
  induction entries with
  | nil => simp [Store.find?]
  | cons e entries ih =>
    have first := h.names e (List.mem_cons_self ..)
    by_cases he : e.1 = name
    · subst he
      have found : Store.find? ⟨e :: entries⟩ e.1 = some e.2 := by
        simp [Store.find?, K.discrete_name.same_self first]
      rw [found, List.mem_cons]
      constructor
      · intro hv
        exact .inl (Prod.ext rfl (Option.some.inj hv).symm)
      · rintro (hv | hv)
        · exact congrArg some (Prod.ext_iff.1 hv).2.symm
        · exact (h.name_ne hv rfl).elim
    · have passed : Store.find? ⟨e :: entries⟩ name = Store.find? ⟨entries⟩ name := by
        simp [Store.find?, K.discrete_name.same_of_ne first hn he]
      rw [passed, ih h.tail, List.mem_cons, or_iff_right]
      exact fun hv => he (congrArg Prod.fst hv).symm

/-- To bind a name replaces its binding and leaves the others. -/
theorem mem_bindEntry (h : K.Table entries) (hn : K.name name) :
    e ∈ Store.bindEntry name value entries ↔ e = (name, value) ∨ e ∈ entries ∧ e.1 ≠ name := by
  induction entries with
  | nil => simp [Store.bindEntry]
  | cons f entries ih =>
    have first := h.names f (List.mem_cons_self ..)
    rw [Store.bindEntry]
    by_cases hf : f.1 = name
    · subst hf
      rw [if_pos (K.discrete_name.same_self first), List.mem_cons, List.mem_cons]
      constructor
      · rintro (he | he)
        · exact .inl he
        · exact .inr ⟨.inr he, h.name_ne he⟩
      · rintro (he | ⟨he | he, hne⟩)
        · exact .inl he
        · exact absurd (congrArg Prod.fst he) hne
        · exact .inr he
    · rw [if_neg (by simp [K.discrete_name.same_of_ne first hn hf]), List.mem_cons, ih h.tail, List.mem_cons]
      constructor
      · rintro (rfl | he | ⟨he, hne⟩)
        · exact .inr ⟨.inl rfl, hf⟩
        · exact .inl he
        · exact .inr ⟨.inr he, hne⟩
      · rintro (he | ⟨rfl | he, hne⟩)
        · exact .inr (.inl he)
        · exact .inl rfl
        · exact .inr (.inr ⟨he, hne⟩)

theorem bindEntry (h : K.Table entries) (hn : K.name name) (hv : K.held value) :
    K.Table (Store.bindEntry name value entries) := by
  refine ⟨?_, fun e he => ?_, fun e he => ?_⟩
  · induction entries with
    | nil => simp [Store.bindEntry]
    | cons f entries ih =>
      have first := h.names f (List.mem_cons_self ..)
      rw [Store.bindEntry]
      by_cases hf : f.1 = name
      · subst hf
        rw [if_pos (K.discrete_name.same_self first)]
        exact h.once
      · rw [if_neg (by simp [K.discrete_name.same_of_ne first hn hf])]
        refine List.nodup_cons.2 ⟨fun hmem => ?_, ih h.tail⟩
        obtain ⟨g, hg, hgf⟩ := List.mem_map.1 hmem
        rcases (h.tail.mem_bindEntry hn).1 hg with rfl | ⟨hg, -⟩
        · exact hf hgf.symm
        · exact h.name_ne hg hgf
  · rcases (h.mem_bindEntry hn).1 he with rfl | ⟨he, -⟩
    · exact hn
    · exact h.names e he
  · rcases (h.mem_bindEntry hn).1 he with rfl | ⟨he, -⟩
    · exact hv
    · exact h.values e he

end Table

/-- Bindings are the same if their names and their values are. -/
theorem same_entry_iff (hes : K.Table es) (hfs : K.Table fs) (he : e ∈ es) {f : V × V} (hf : f ∈ fs) :
    (Term.same e.1 f.1 && Term.same e.2 f.2) = true ↔ e = f := by
  rw [Bool.and_eq_true, K.discrete_name (hes.names e he) (hfs.names f hf),
    K.discrete_held (hes.values e he) (hfs.values f hf)]
  exact Prod.ext_iff.symm

/-- **Stores of a carrier agree if their bindings are permuted.** -/
theorem same_iff_perm (hes : K.Table es) (hfs : K.Table fs) :
    (⟨es⟩ : Store V).same ⟨fs⟩ = true ↔ es.Perm fs := by
  have decided := lookedUp_iff_perm (f := id) (by rw [List.map_id]; exact hes.nodup)
    fun e he f hf => same_entry_iff hes hfs he hf
  rwa [List.map_id, List.map_id] at decided

/-- Stores of a carrier that agree. -/
structure Agree (K : Carrier V) (s t : Store V) : Prop where
  left : K.Table s.entries
  right : K.Table t.entries
  perm : s.entries.Perm t.entries

namespace Agree

variable {s t : Store V}

theorem same (h : K.Agree s t) : s.same t = true := (same_iff_perm h.left h.right).2 h.perm

theorem of_same (hs : K.Table s.entries) (ht : K.Table t.entries) (h : s.same t = true) : K.Agree s t :=
  ⟨hs, ht, (same_iff_perm hs ht).1 h⟩

theorem find?_eq (h : K.Agree s t) (hn : K.name name) : s.find? name = t.find? name := by
  refine Option.ext fun v => ?_
  rw [h.left.find?_eq_some_iff hn, h.right.find?_eq_some_iff hn]
  exact h.perm.mem_iff

theorem held (h : K.Agree s t) (hn : K.name name) (hv : s.find? name = some value) : K.held value :=
  h.left.values _ ((h.left.find?_eq_some_iff hn).1 hv)

theorem bind (h : K.Agree s t) (hn : K.name name) (hv : K.held value) :
    K.Agree (s.bind name value) (t.bind name value) := by
  have hs := h.left.bindEntry hn hv
  have ht := h.right.bindEntry hn hv
  refine ⟨hs, ht, (List.perm_ext_iff_of_nodup hs.nodup ht.nodup).2 fun e => ?_⟩
  show e ∈ Store.bindEntry name value s.entries ↔ e ∈ Store.bindEntry name value t.entries
  rw [h.left.mem_bindEntry hn, h.right.mem_bindEntry hn, h.perm.mem_iff]

end Agree

/-! ## Multisets -/

/-- Members of a heap that are chunks of the carrier. -/
def Countable (K : Carrier V) (m : Member V) : Prop := ∃ c, K.Claim c ∧ m = .chunk c

/-- Such members are told apart by themselves. -/
theorem labels : Heap.Labels K.Countable id := by
  intro m n hm hn
  obtain ⟨⟨l, v⟩, ⟨hl, hv⟩, rfl⟩ := hm
  obtain ⟨⟨k, w⟩, ⟨hk, hw⟩, rfl⟩ := hn
  rw [Member.same, Chunk.same, Bool.and_eq_true, K.discrete_location hl hk,
    K.discrete_held (K.held_of_value hv) (K.held_of_value hw), id, id, Member.chunk.injEq, Chunk.mk.injEq]

theorem countable_map_chunk {h : List (Chunk V)} (hh : K.Heap h) :
    ∀ m ∈ h.map Member.chunk, K.Countable m := by
  intro m hm
  obtain ⟨c, hc, rfl⟩ := List.mem_map.1 hm
  exact ⟨c, hh c hc, rfl⟩

/-! ## Equivalent states -/

section States

variable {s t : Store V} {h k : List (Chunk V)} (keys : ∀ {v}, K.value v → Term.unhashable? v = none)

include keys

/-- Nothing keeps the chunks of a carrier from being counted if its values can be keys. -/
theorem uncountable?_map_chunk (hh : K.Heap h) : Heap.uncountable? (h.map Member.chunk) = none := by
  refine List.findSome?_eq_none_iff.2 fun m hm => ?_
  obtain ⟨c, hc, rfl⟩ := List.mem_map.1 hm
  obtain ⟨hl, hv⟩ := hh c hc
  simp [Member.unhashable?, Chunk.unhashable?, K.key_location hl, keys hv]

/-- **Heaps of a carrier are equal as multisets if they are permuted.** -/
theorem heapEqual?_eq_ok_true_iff (hh : K.Heap h) (hk : K.Heap k) :
    (State.ofChunks s h).heapEqual? (.ofChunks t k) = .ok true ↔ h.Perm k := by
  have counted : (State.ofChunks s h).heapEqual? (.ofChunks t k) = .ok (Heap.sameCounts
      (Heap.multiset (h.map .chunk)) (Heap.multiset (k.map .chunk))) := by
    simp [State.heapEqual?, State.ofChunks, uncountable?_map_chunk keys hh,
      uncountable?_map_chunk keys hk]
  have injective : Function.Injective (Member.chunk : Chunk V → Member V) := fun _ _ => Member.chunk.inj
  rw [counted, Except.ok.injEq,
    labels.sameCounts_multiset_iff (countable_map_chunk hh) (countable_map_chunk hk), List.map_id, List.map_id]
  exact List.map_perm_map_iff injective

/-- **States of a carrier are equivalent if their bindings and their chunks are permuted.** -/
theorem equivalent?_eq_ok_true_iff (hs : K.Table s.entries) (ht : K.Table t.entries) (hh : K.Heap h)
    (hk : K.Heap k) :
    (State.ofChunks s h).equivalent? (.ofChunks t k) = .ok true ↔ K.Agree s t ∧ h.Perm k := by
  rw [State.equivalent?]
  split
  · rename_i hsame
    rw [heapEqual?_eq_ok_true_iff keys hh hk]
    exact ⟨fun hp => ⟨.of_same hs ht hsame, hp⟩, And.right⟩
  · rename_i hdiffer
    exact ⟨fun he => by simp at he, fun ha => absurd ha.1.same hdiffer⟩

end States

end Carrier

end SymbolicPaths
