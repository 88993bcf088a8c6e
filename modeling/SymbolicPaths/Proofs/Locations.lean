import Mathlib.Data.List.Forall2
import Mathlib.Data.List.Induction
import SymbolicPaths.Proofs.Grouping
/-!
# Two ways to find a location

A read looks for the chunks whose location agrees with the one that is read (`Heap.chunksAt`).  A fusion puts
each chunk to the first group whose location agrees with that of the chunk (`Heap.addToGroups`).  Both find
the same: the chunks at a location are the members of one group and of no other (`Heap.groupsAt_groups`).  So
where a chunk is made of each group, at its location, there is exactly one chunk at a location that was
claimed (`Heap.exists_chunksAt_of_forall₂`).

For this, to agree has to be symmetric and transitive on the locations of the heap.  That a location agrees
with itself is not asked, which sets this apart from `SymbolicPaths.Proofs.Grouping`.
-/

namespace SymbolicPaths

variable {V : Type} [Term V]

namespace Heap

/-- The groups that stand at a location. -/
def groupsAt (l : V) (gs : List (Group V)) : List (Group V) := gs.filter fun g => Term.same g.location l

section Agreeing

variable {P : V → Prop} (agreeing : Term.Agreeing P) {h : List (Chunk V)} {c : Chunk V} {l : V}

include agreeing

/-- **The chunks at a location are one group**, which stands at the location of the first of them. -/
theorem groupsAt_groups : ∀ {h : List (Chunk V)}, Located P h → P l →
    groupsAt l (groups h) = (chunksAt l h).head?.toList.map fun c => ⟨c.location, valuesAt l h⟩
  | [], _, _ => rfl
  | c :: h, located, hl => by
    have hc := located.head
    have behind := groupsAt_groups (located.tail.without c.location) hl
    have split : groups (c :: h) = ⟨c.location,
        c.value :: (h.filter fun d => Term.same c.location d.location).map Chunk.value⟩ ::
          groups (without c.location h) := foldl_addToGroups_cons ⟨c.location, [c.value]⟩ [] h
    rw [split]
    by_cases hcl : Term.same c.location l = true
    · -- all the chunks there are in the group in front, and none is left for the others
      have members : (h.filter fun d => Term.same c.location d.location) = chunksAt l h :=
        List.filter_congr fun d hd => by
          rw [agreeing.same_congr hc hl (located.tail d hd) hcl, agreeing.same_comm hl (located.tail d hd)]
      have here : chunksAt l (c :: h) = c :: chunksAt l h := List.filter_cons_of_pos hcl
      have nothing : groupsAt l (groups (without c.location h)) = [] := by
        rw [behind, chunksAt_without_of_same agreeing hc located.tail hl hcl]
        rfl
      rw [groupsAt, List.filter_cons, if_pos hcl, ← groupsAt, nothing, members, valuesAt, here]
      rfl
    · have here : chunksAt l (c :: h) = chunksAt l h := List.filter_cons_of_neg hcl
      rw [valuesAt, chunksAt_without_of_not_same agreeing hc located.tail hl hcl] at behind
      rw [groupsAt, List.filter_cons, if_neg hcl, ← groupsAt, behind, valuesAt, here]
termination_by h => h.length
decreasing_by exact Nat.lt_succ_of_le (List.length_filter_le ..)

end Agreeing

/-- A group has a value. -/
theorem values_ne_nil_of_mem_groups (h : List (Chunk V)) : ∀ g ∈ groups h, g.values ≠ [] := by
  have added : ∀ (c : Chunk V) (gs : List (Group V)), (∀ g ∈ gs, g.values ≠ []) →
      ∀ g ∈ addToGroups c gs, g.values ≠ [] := by
    intro c gs nonempty
    induction gs with
    | nil => exact List.forall_mem_singleton.2 (List.cons_ne_nil c.value [])
    | cons g rest ih =>
      obtain ⟨here, others⟩ := List.forall_mem_cons.1 nonempty
      rw [addToGroups]
      split
      · exact List.forall_mem_cons.2 ⟨List.append_ne_nil_of_left_ne_nil here _, others⟩
      · exact List.forall_mem_cons.2 ⟨here, ih others⟩
  induction h using List.reverseRecOn with
  | nil => exact fun _ hg => absurd hg List.not_mem_nil
  | append_singleton h c ih =>
    rw [groups_concat]
    exact added c _ ih

/-- What is made of groups one by one, each at its location, can be looked for by location. -/
theorem forall₂_groupsAt {R : Group V → Chunk V → Prop} (hR : ∀ g c, R g c → c.location = g.location)
    {gs : List (Group V)} {found : List (Chunk V)} (h : List.Forall₂ R gs found) (l : V) :
    List.Forall₂ R (groupsAt l gs) (chunksAt l found) := by
  refine List.rel_filter (fun g c hgc => ?_) h
  show _ ↔ Term.same c.location l = true
  rw [hR g c hgc]

section Agreeing

variable {P : V → Prop} (agreeing : Term.Agreeing P) {h found : List (Chunk V)} {l : V}

include agreeing

/-- What is made of the chunks at a location, if there are any, is one chunk. -/
theorem exists_chunksAt_of_forall₂ {R : Group V → Chunk V → Prop}
    (hR : ∀ g c, R g c → c.location = g.location) (located : Located P h) (hl : P l)
    (claimed : chunksAt l h ≠ []) (made : List.Forall₂ R (groups h) found) :
    ∃ k c, R ⟨k, valuesAt l h⟩ c ∧ chunksAt l found = [c] := by
  have there := forall₂_groupsAt hR made l
  rw [groupsAt_groups agreeing located hl] at there
  obtain ⟨d, rest, hd⟩ := List.exists_cons_of_ne_nil claimed
  rw [hd] at there
  obtain ⟨c, others, hc, hrest, hfound⟩ := List.forall₂_cons_left_iff.1 there
  rw [List.forall₂_nil_left_iff.1 hrest] at hfound
  exact ⟨d.location, c, hc, hfound⟩

end Agreeing

end Heap

end SymbolicPaths
