import SymbolicPaths.Proofs.Fusing
/-!
# Overwriting and fusing

A heap is overwritten at a location, and it is fused; both change values and leave to each location that was
claimed a claim.  This file says what the one leaves of the other, and where there is something to be read
afterwards.

* What is overwritten last counts, locations that do not agree are overwritten independently, and a location
  that is not claimed cannot be overwritten.
* A fused heap has one chunk at each location that was claimed, with the value that the claims there settle for
  (`Heap.exists_chunksAt_of_fused`).
* **Overwriting and fusing change places** if the policy takes a value that is claimed throughout
  (`Heap.fused_overwrite`).  All values at the location are the same once it was overwritten, so this is what
  the policy is asked about; without the condition it may answer with something else.
-/

namespace SymbolicPaths

variable {V : Type} [Term V]

namespace Heap

/-! ## Overwriting -/

/-- What is overwritten last counts. -/
theorem overwrite_overwrite (l v w : V) (h : List (Chunk V)) :
    overwrite l w (overwrite l v h) = overwrite l w h := by
  rw [overwrite, overwrite, overwrite, List.map_map]
  refine List.map_congr_left fun c _ => ?_
  rw [Function.comp_apply]
  by_cases hcl : Term.same c.location l = true
  · rw [if_pos hcl, if_pos hcl, Chunk.withValue, if_pos hcl]
    rfl
  · rw [if_neg hcl]

/-- A location that is not claimed is not overwritten. -/
theorem overwrite_of_unclaimed {l : V} {h : List (Chunk V)} (unclaimed : chunksAt l h = []) (v : V) :
    overwrite l v h = h := by
  have elsewhere := List.filter_eq_nil_iff.1 unclaimed
  exact (List.map_congr_left fun c hc => if_neg (elsewhere c hc)).trans (List.map_id h)

/-- What is in an overwritten heap was there before, or has its location from a chunk that was. -/
theorem exists_of_mem_overwrite {l v : V} {h : List (Chunk V)} {c : Chunk V} (hc : c ∈ overwrite l v h) :
    ∃ d ∈ h, c.location = d.location ∧ (c.value = v ∨ c.value = d.value) := by
  obtain ⟨d, hd, rfl⟩ := List.mem_map.1 hc
  by_cases hdl : Term.same d.location l = true
  · rw [if_pos hdl]
    exact ⟨d, hd, rfl, .inl rfl⟩
  · rw [if_neg hdl]
    exact ⟨d, hd, rfl, .inr rfl⟩

section Equivalent

variable {P : V → Prop} (equivalent : Term.Equivalent P) {h m : List (Chunk V)} (located : Located P h)
  {k l : V} (hk : P k) (hl : P l)

include equivalent located hk hl

/-- Locations that agree are claimed by the same chunks. -/
theorem chunksAt_congr (hkl : Term.same k l = true) : chunksAt k h = chunksAt l h :=
  List.filter_congr fun c hc => by
    rw [Bool.eq_iff_iff]
    exact ⟨fun hck => equivalent.trans (located c hc) hk hl hck hkl,
      fun hcl => equivalent.trans (located c hc) hl hk hcl (equivalent.symm hk hl hkl)⟩

/-- Chunks at other locations stay as they are. -/
theorem chunksAt_overwrite_of_not_same (hkl : ¬ Term.same k l = true) (v : V) :
    chunksAt k (overwrite l v h) = chunksAt k h := by
  have apart : ∀ c ∈ chunksAt k h, ¬ Term.same c.location l = true := fun c hc hcl => by
    obtain ⟨hmem, hck⟩ := mem_chunksAt.1 hc
    exact hkl (equivalent.same_of_same_left hk hl (located c hmem) hck hcl)
  rw [chunksAt_overwrite, overwrite]
  exact (List.map_congr_left fun c hc => if_neg (apart c hc)).trans (List.map_id _)

/-- Locations that do not agree are overwritten independently. -/
theorem overwrite_comm (hkl : ¬ Term.same k l = true) (v w : V) :
    overwrite k v (overwrite l w h) = overwrite l w (overwrite k v h) := by
  rw [overwrite, overwrite, overwrite, overwrite, List.map_map, List.map_map]
  refine List.map_congr_left fun c hc => ?_
  rw [Function.comp_apply, Function.comp_apply]
  by_cases hck : Term.same c.location k = true
  · have hcl : ¬ Term.same c.location l = true := fun hcl =>
      hkl (equivalent.same_of_same_left hk hl (located c hc) hck hcl)
    rw [if_neg hcl, if_pos hck]
    exact (if_neg hcl).symm
  · rw [if_neg hck]
    by_cases hcl : Term.same c.location l = true
    · rw [if_pos hcl]
      exact if_neg hck
    · rw [if_neg hcl]
      exact if_neg hck

end Equivalent

/-! ## Fusing -/

/-- A policy that has a value for several values of a kind. -/
def Total (Q : V → Prop) (choice : List V → Except (Fault V) V) : Prop :=
  ∀ vs, 2 ≤ vs.length → (∀ v ∈ vs, Q v) → ∃ v, choice vs = .ok v

/-- A policy that takes a value that is claimed throughout. -/
def Constant (Q : V → Prop) (choice : List V → Except (Fault V) V) : Prop :=
  ∀ v n, Q v → 2 ≤ n → choice (List.replicate n v) = .ok v

omit [Term V] in
/-- A policy that has a value for several values settles for one wherever there are any. -/
theorem Total.exists_settled {Q : V → Prop} {choice : List V → Except (Fault V) V} (total : Total Q choice)
    {vs : List V} (some : vs ≠ []) (hvs : ∀ v ∈ vs, Q v) : ∃ v, settled choice vs = .ok v := by
  match vs with
  | [] => exact absurd rfl some
  | [v] => exact ⟨v, rfl⟩
  | v :: w :: vs => exact total (v :: w :: vs) (Nat.le_add_left 2 vs.length) hvs

omit [Term V] in
/-- What is claimed throughout is settled for. -/
theorem Constant.settled {Q : V → Prop} {choice : List V → Except (Fault V) V} (constant : Constant Q choice)
    {v : V} (hv : Q v) {vs : List V} (some : vs ≠ []) : settled choice (vs.map fun _ => v) = .ok v := by
  rw [List.map_const']
  match vs with
  | [] => exact absurd rfl some
  | [w] => rfl
  | w :: w' :: ws => exact constant v (ws.length + 2) hv (Nat.le_add_left 2 ws.length)

/-- A chunk that a group is fused to: at its location, with the value that its values settle for. -/
structure Settles (choice : List V → Except (Fault V) V) (g : Group V) (c : Chunk V) : Prop where
  location : c.location = g.location
  value : settled choice g.values = .ok c.value

section Equivalent

variable {P Q : V → Prop} (equivalent : Term.Equivalent P) {h m : List (Chunk V)} (located : Located P h)
  {l : V} (hl : P l) {choice : List V → Except (Fault V) V}

include equivalent located

/-- A location that is claimed has values. -/
theorem valuesAt_ne_nil_of_mem_claimed (hc : l ∈ claimed h) : valuesAt l h ≠ [] := by
  rw [← map_location_firsts] at hc
  obtain ⟨c, first, rfl⟩ := List.mem_map.1 hc
  obtain ⟨rest, here⟩ := exists_chunksAt_of_mem_firsts equivalent located first
  rw [valuesAt, here]
  exact List.cons_ne_nil _ _

/-- A fusion settles each group. -/
theorem forall₂_of_fused (hm : fused choice h = .ok m) : List.Forall₂ (Settles choice) (groups h) m := by
  rw [groups_eq equivalent located, List.forall₂_map_left_iff]
  refine (mapM_eq_ok_iff.1 hm).imp fun l c hc => ?_
  cases hs : settled choice (valuesAt l h) with
  | error e =>
    rw [hs] at hc
    cases hc
  | ok v =>
    rw [hs] at hc
    obtain rfl := Except.ok.inj hc
    exact ⟨rfl, hs⟩

include hl in
/-- **A fused heap has one chunk at a location that was claimed**, with what the claims there settle for. -/
theorem exists_chunksAt_of_fused (hm : fused choice h = .ok m) (claims : chunksAt l h ≠ []) :
    ∃ c, chunksAt l m = [c] ∧ settled choice (valuesAt l h) = .ok c.value := by
  obtain ⟨k, c, hc, here⟩ := exists_chunksAt_of_forall₂ equivalent.toAgreeing
    (fun _ _ (hgc : Settles choice _ _) => hgc.location) located hl claims
    (forall₂_of_fused equivalent located hm)
  exact ⟨c, here, hc.value⟩

include hl in
/-- And none at one that was not. -/
theorem chunksAt_of_fused_of_unclaimed (hm : fused choice h = .ok m) (unclaimed : chunksAt l h = []) :
    chunksAt l m = [] := by
  have there := forall₂_groupsAt (fun _ _ (hgc : Settles choice _ _) => hgc.location)
    (forall₂_of_fused equivalent located hm) l
  rw [groupsAt_groups equivalent.toAgreeing located hl, unclaimed] at there
  exact List.forall₂_nil_left_iff.1 there

/-- A policy that has values for all the groups of a heap fuses it. -/
theorem exists_fused (total : Total Q choice) (hQ : ∀ c ∈ h, Q c.value) : ∃ m, fused choice h = .ok m := by
  cases hm : fused choice h with
  | ok m => exact ⟨m, rfl⟩
  | error e =>
    obtain ⟨l, hl, he⟩ := exists_of_mapM_eq_error hm
    have values : ∀ v ∈ valuesAt l h, Q v := fun v hv => by
      obtain ⟨c, hc, rfl⟩ := List.mem_map.1 hv
      exact hQ c (mem_chunksAt.1 hc).1
    obtain ⟨v, hv⟩ := total.exists_settled (valuesAt_ne_nil_of_mem_claimed equivalent located hl) values
    rw [hv] at he
    cases he

include hl in
/-- **Overwriting and fusing change places**, if the policy takes what is claimed throughout. -/
theorem fused_overwrite (constant : Constant Q choice) {v : V} (hv : Q v) (hm : fused choice h = .ok m) :
    fused choice (overwrite l v h) = .ok (overwrite l v m) := by
  obtain ⟨locations, values⟩ := fused_eq_ok_iff.1 hm
  refine fused_eq_ok_iff.2 ⟨by rw [map_location_overwrite, claimed_overwrite, locations], fun c hc => ?_⟩
  obtain ⟨d, hd, rfl⟩ := List.mem_map.1 hc
  have claims : d.location ∈ claimed h := locations ▸ List.mem_map_of_mem hd
  have hPd : P d.location := forall_claimed located d.location claims
  by_cases hdl : Term.same d.location l = true
  · -- one value throughout
    rw [if_pos hdl]
    have overwritten : valuesAt d.location (overwrite l v h) = (valuesAt d.location h).map fun _ => v := by
      rw [valuesAt, valuesAt, chunksAt_overwrite, chunksAt_congr equivalent located hPd hl hdl,
        ← chunksAt_overwrite, ← valuesAt, valuesAt_overwrite_self, valuesAt]
    show settled choice (valuesAt d.location (overwrite l v h)) = .ok v
    rw [overwritten]
    exact constant.settled hv (valuesAt_ne_nil_of_mem_claimed equivalent located claims)
  · rw [if_neg hdl, valuesAt, chunksAt_overwrite_of_not_same equivalent located hPd hl hdl]
    exact values d hd

end Equivalent

end Heap

end SymbolicPaths
