import Mathlib.Data.List.Induction
import Mathlib.Data.List.Nodup
import Mathlib.Data.List.Perm.Subperm
import SymbolicPaths.State
/-!
# Counting decides what is equal up to order

Two heaps are compared by counting: each is gone through once, and a member that agrees with an earlier one
counts for that one.  Which members stand for the others depends on what was met first, and the two tables
that come out list them in different orders.  Yet the tables agree just if the members of one heap can be put
into an order in which they agree with those of the other, one by one.

Both sides are brought to the same form by *labels*.  A label is anything that tells members apart just as far
as they do not agree (`Heap.Labels`); where to agree is an equivalence, the class of a member is one.  Then
the tables count labels, to count labels and to list each as often as it is counted undo one another
(`Tally.perm_iff`), and what is equal up to order are the lists of labels.
-/

namespace SymbolicPaths

variable {V W Q α γ : Type}

/-! ## Tables of counts -/

/-- Counts that list each label once, and none that does not occur. -/
structure Tally (counts : List (Q × Nat)) : Prop where
  once : (counts.map Prod.fst).Nodup
  positive : ∀ e ∈ counts, 0 < e.2

namespace Tally

/-- Each label as often as it is counted. -/
def expand (counts : List (Q × Nat)) : List Q := counts.flatMap fun e => List.replicate e.2 e.1

variable {counts left right : List (Q × Nat)} {entry : Q × Nat} {q : Q}

theorem tail (h : Tally (entry :: counts)) : Tally counts :=
  ⟨(List.nodup_cons.1 h.once).2, fun e he => h.positive e (List.mem_cons_of_mem entry he)⟩

theorem mem_expand (h : Tally counts) : q ∈ expand counts ↔ q ∈ counts.map Prod.fst := by
  simp only [expand, List.mem_flatMap, List.mem_replicate, List.mem_map]
  constructor
  · rintro ⟨e, he, -, rfl⟩
    exact ⟨e, he, rfl⟩
  · rintro ⟨e, he, rfl⟩
    exact ⟨e, he, Nat.ne_of_gt (h.positive e he), rfl⟩

/-- A label is counted as often as it occurs. -/
theorem count_expand [DecidableEq Q] (h : Tally counts) (he : entry ∈ counts) :
    (expand counts).count entry.1 = entry.2 := by
  induction counts with
  | nil => cases he
  | cons e counts ih =>
    obtain ⟨hfirst, -⟩ := List.nodup_cons.1 h.once
    rw [expand, List.flatMap_cons, List.count_append, List.count_replicate, ← expand]
    rcases List.mem_cons.1 he with rfl | he
    · have others : (expand counts).count entry.1 = 0 :=
        List.count_eq_zero.2 fun hm => hfirst (h.tail.mem_expand.1 hm)
      simp [others]
    · have hne : e.1 ≠ entry.1 := fun heq => hfirst (heq ▸ List.mem_map_of_mem he)
      simp [hne, ih h.tail he]

/-- **To count and to list undo one another**, up to order. -/
theorem perm_iff (hl : Tally left) (hr : Tally right) :
    (expand left).Perm (expand right) ↔ left.Perm right := by
  refine ⟨fun hp => ?_, fun hp => hp.flatMap_right _⟩
  classical
  -- an entry says how often its label occurs, and both lists have it as often
  have listed : ∀ {left right : List (Q × Nat)}, Tally left → Tally right →
      (expand left).Perm (expand right) → ∀ e ∈ left, e ∈ right := by
    intro left right hl hr hlr e he
    have occurs : e.1 ∈ right.map Prod.fst :=
      hr.mem_expand.1 (hlr.mem_iff.1 (hl.mem_expand.2 (List.mem_map_of_mem he)))
    obtain ⟨f, hf, hfe⟩ := List.mem_map.1 occurs
    have counted := hr.count_expand hf
    rw [hfe, ← hlr.count_eq, hl.count_expand he] at counted
    obtain rfl : e = f := Prod.ext hfe.symm counted
    exact hf
  exact (List.perm_ext_iff_of_nodup (hl.once.of_map _) (hr.once.of_map _)).2 fun e =>
    ⟨listed hl hr hp e, listed hr hl hp.symm e⟩

end Tally

/-- Two tables are compared by looking each entry of the first up in the second.  If the entries are told
apart by labels, and no label stands twice in the first, this decides whether the labels are permuted. -/
theorem lookedUp_iff_perm {r : α → α → Bool} {f : α → γ} {left right : List α}
    (once : (left.map f).Nodup) (labels : ∀ a ∈ left, ∀ b ∈ right, r a b = true ↔ f a = f b) :
    (left.length == right.length && left.all fun a => right.any fun b => r a b) = true
      ↔ (left.map f).Perm (right.map f) := by
  have found : (∀ a ∈ left, ∃ b ∈ right, r a b = true) ↔ left.map f ⊆ right.map f := by
    constructor
    · intro h q hq
      obtain ⟨a, ha, rfl⟩ := List.mem_map.1 hq
      obtain ⟨b, hb, hab⟩ := h a ha
      exact (labels a ha b hb).1 hab ▸ List.mem_map_of_mem hb
    · intro h a ha
      obtain ⟨b, hb, hba⟩ := List.mem_map.1 (h (List.mem_map_of_mem ha))
      exact ⟨b, hb, (labels a ha b hb).2 hba.symm⟩
  simp only [Bool.and_eq_true, beq_iff_eq, List.all_eq_true, List.any_eq_true, found]
  constructor
  · rintro ⟨hlength, hsub⟩
    exact (List.subperm_of_subset once hsub).perm_of_length_le (by simp [hlength])
  · intro hp
    refine ⟨?_, hp.subset⟩
    rw [← List.length_map, hp.length_eq, List.length_map]

/-! ## Labels -/

namespace Heap

variable [Term V]

/-- Labels that tell such members apart just as far as they do not agree. -/
def Labels (C : Member V → Prop) (f : Member V → Q) : Prop :=
  ∀ ⦃m n⦄, C m → C n → (m.same n = true ↔ f m = f n)

/-- A table of counts, with labels in place of the members. -/
def labelled (f : Member V → Q) (counts : List (Member V × Nat)) : List (Q × Nat) :=
  counts.map fun e => (f e.1, e.2)

namespace Labels

variable {C : Member V → Prop} {f : Member V → Q} (labels : Labels C f)
  {counts left right : List (Member V × Nat)} {m : Member V} {h k : List (Member V)}

include labels

/-- One more member is counted once more. -/
theorem expand_addToCounts (members : ∀ e ∈ counts, C e.1) (hm : C m) :
    (Tally.expand (labelled f (addToCounts m counts))).Perm (f m :: Tally.expand (labelled f counts)) := by
  induction counts with
  | nil => exact .refl _
  | cons e counts ih =>
    obtain ⟨he, others⟩ := List.forall_mem_cons.1 members
    rw [addToCounts]
    by_cases hs : e.1.same m = true
    · rw [if_pos hs, ← (labels he hm).1 hs]
      exact .refl _
    · rw [if_neg hs]
      exact ((ih others).append_left _).trans List.perm_middle

omit labels in
/-- The members of a table are those of before and the one that is counted. -/
theorem forall_addToCounts (members : ∀ e ∈ counts, C e.1) (hm : C m) :
    ∀ e ∈ addToCounts m counts, C e.1 := by
  induction counts with
  | nil => exact List.forall_mem_singleton.2 hm
  | cons e counts ih =>
    obtain ⟨he, others⟩ := List.forall_mem_cons.1 members
    rw [addToCounts]
    split
    · exact List.forall_mem_cons.2 ⟨he, others⟩
    · exact List.forall_mem_cons.2 ⟨he, ih others⟩

theorem tally_addToCounts (members : ∀ e ∈ counts, C e.1) (tally : Tally (labelled f counts)) (hm : C m) :
    Tally (labelled f (addToCounts m counts)) := by
  induction counts with
  | nil => exact ⟨List.nodup_singleton _, List.forall_mem_singleton.2 Nat.one_pos⟩
  | cons e counts ih =>
    obtain ⟨he, others⟩ := List.forall_mem_cons.1 members
    have hfirst : f e.1 ∉ (labelled f counts).map Prod.fst := (List.nodup_cons.1 tally.once).1
    obtain ⟨here, behind⟩ := List.forall_mem_cons.1 tally.positive
    rw [addToCounts]
    by_cases hs : e.1.same m = true
    · rw [if_pos hs]
      exact ⟨tally.once, List.forall_mem_cons.2 ⟨Nat.succ_pos _, behind⟩⟩
    · have rest := ih others tally.tail
      have listed : f e.1 ∉ (labelled f (addToCounts m counts)).map Prod.fst := by
        have behindToo : Tally (labelled f counts) := tally.tail
        rw [← rest.mem_expand, (labels.expand_addToCounts others hm).mem_iff, List.mem_cons,
          behindToo.mem_expand]
        exact fun ho => ho.elim (fun heq => hs ((labels he hm).2 heq)) hfirst
      rw [if_neg hs]
      exact ⟨List.nodup_cons.2 ⟨listed, rest.once⟩, List.forall_mem_cons.2 ⟨here, rest.positive⟩⟩

/-- The counts of a heap list the labels of its members. -/
theorem multiset (hC : ∀ m ∈ h, C m) :
    (∀ e ∈ multiset h, C e.1) ∧ Tally (labelled f (Heap.multiset h)) ∧
      (Tally.expand (labelled f (Heap.multiset h))).Perm (h.map f) := by
  induction h using List.reverseRecOn with
  | nil => exact ⟨List.forall_mem_nil _, ⟨List.nodup_nil, List.forall_mem_nil _⟩, .refl _⟩
  | append_singleton h m ih =>
    obtain ⟨hC, last⟩ := List.forall_mem_append.1 hC
    have hm := List.forall_mem_singleton.1 last
    obtain ⟨members, tally, listed⟩ := ih hC
    rw [Heap.multiset_concat, List.map_append]
    refine ⟨forall_addToCounts members hm, labels.tally_addToCounts members tally hm, ?_⟩
    exact (labels.expand_addToCounts members hm).trans
      ((listed.cons (f m)).trans (List.perm_append_singleton _ _).symm)

/-- **Heaps have the same counts if their labels are permuted.** -/
theorem sameCounts_multiset_iff (hh : ∀ m ∈ h, C m) (hk : ∀ m ∈ k, C m) :
    sameCounts (Heap.multiset h) (Heap.multiset k) = true ↔ (h.map f).Perm (k.map f) := by
  obtain ⟨mh, th, eh⟩ := labels.multiset hh
  obtain ⟨mk, tk, ek⟩ := labels.multiset hk
  have compared : sameCounts (Heap.multiset h) (Heap.multiset k) = true
      ↔ (labelled f (Heap.multiset h)).Perm (labelled f (Heap.multiset k)) := by
    refine lookedUp_iff_perm (th.once.of_map _) fun a ha b hb => ?_
    rw [Bool.and_eq_true, beq_iff_eq, labels (mk b hb) (mh a ha), Prod.mk.injEq, eq_comm]
  rw [compared, ← th.perm_iff tk]
  exact ⟨fun hp => eh.symm.trans (hp.trans ek), fun hp => eh.trans (hp.trans ek.symm)⟩

/-- Heaps agree member by member if they have the same labels. -/
theorem same_iff (hh : ∀ m ∈ h, C m) (hk : ∀ m ∈ k, C m) : same h k = true ↔ h.map f = k.map f := by
  induction h generalizing k with
  | nil => cases k <;> simp [same]
  | cons m h ih =>
    cases k with
    | nil => simp [same]
    | cons n k =>
      obtain ⟨hm, hh⟩ := List.forall_mem_cons.1 hh
      obtain ⟨hn, hk⟩ := List.forall_mem_cons.1 hk
      rw [same, Bool.and_eq_true, labels hm hn, ih hh hk, List.map_cons, List.map_cons, List.cons.injEq]

/-- The labels of heaps are permuted if the second heap can be put into an order in which it agrees with the
first, member by member. -/
theorem perm_iff_reordered (hh : ∀ m ∈ h, C m) (hk : ∀ m ∈ k, C m) :
    (h.map f).Perm (k.map f) ↔ ∃ k', k'.Perm k ∧ same h k' = true := by
  have reordered : ∀ {k'}, k'.Perm k → (same h k' = true ↔ h.map f = k'.map f) := fun hp =>
    labels.same_iff hh fun m hm => hk m (hp.mem_iff.1 hm)
  constructor
  · intro hp
    have middle : Relation.Comp (fun qs ms => qs = List.map f ms) List.Perm (h.map f) k := by
      rw [List.eq_map_comp_perm]
      exact hp
    obtain ⟨k', hf, hp⟩ := middle
    exact ⟨k', hp, (reordered hp).2 hf⟩
  · rintro ⟨k', hp, hs⟩
    rw [(reordered hp).1 hs]
    exact hp.map f

end Labels

end Heap

end SymbolicPaths
