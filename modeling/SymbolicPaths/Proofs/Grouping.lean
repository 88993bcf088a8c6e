import Mathlib.Data.List.Nodup
import Mathlib.Data.List.Perm.Basic
import SymbolicPaths.Unifier
/-!
# What fusing makes of a heap

Fusing gathers chunks by location while it goes through the heap, and asks for a value where it has
gathered several.  What comes out does not depend on how it is gathered: it can be read off the list of
locations, each where it first occurs (`Heap.claimed`), and for each of them the list of the values that
are claimed for it (`Heap.valuesAt`).  Both are plain functions of a heap, with an equation for each thing
that a program does to one: put a chunk in front, overwrite a location, and fuse.

Locations are compared as terms.  To gather them, to agree has to be an equivalence on the locations of the
heap (`Term.Equivalent`), and the location of a group is that of the chunk that comes first.  Where terms are the
same only if they are identical (`Term.Discrete`), which chunk this is does not matter, and the equations speak
of locations as such.
-/

namespace SymbolicPaths

variable {V : Type} [Term V]

/-- Among these terms only identical ones are the same. -/
def Term.Discrete (P : V → Prop) : Prop := ∀ ⦃a b⦄, P a → P b → (Term.same a b = true ↔ a = b)

namespace Term.Discrete

variable {P : V → Prop} (h : Discrete P) {a b : V}

include h

theorem same_self (ha : P a) : Term.same a a = true := (h ha ha).2 rfl

theorem same_of_ne (ha : P a) (hb : P b) (hab : a ≠ b) : Term.same a b = false :=
  Bool.eq_false_iff.2 fun hs => hab ((h ha hb).1 hs)

theorem same_comm (ha : P a) (hb : P b) : Term.same a b = Term.same b a := by
  rw [Bool.eq_iff_iff, h ha hb, h hb ha]
  exact eq_comm

end Term.Discrete

/-- Among these terms, to agree is symmetric and transitive. -/
structure Term.Agreeing (P : V → Prop) : Prop where
  symm : ∀ ⦃a b⦄, P a → P b → Term.same a b = true → Term.same b a = true
  trans : ∀ ⦃a b c⦄, P a → P b → P c → Term.same a b = true → Term.same b c = true →
    Term.same a c = true

namespace Term.Agreeing

variable {P : V → Prop} (agreeing : Agreeing P) {a b l : V}

include agreeing

theorem same_comm (ha : P a) (hb : P b) : Term.same a b = Term.same b a :=
  Bool.eq_iff_iff.2 ⟨agreeing.symm ha hb, agreeing.symm hb ha⟩

/-- Terms that agree with one another agree with the same terms. -/
theorem same_congr (ha : P a) (hb : P b) (hl : P l) (hab : Term.same a b = true) :
    Term.same a l = Term.same b l :=
  Bool.eq_iff_iff.2 ⟨agreeing.trans hb ha hl (agreeing.symm ha hb hab), agreeing.trans ha hb hl hab⟩

/-- Terms that agree with two others bring these together. -/
theorem same_of_same (ha : P a) (hb : P b) (hl : P l) (hal : Term.same a l = true)
    (hbl : Term.same b l = true) : Term.same a b = true :=
  agreeing.trans ha hl hb hal (agreeing.symm hb hl hbl)

/-- So do terms that one and the same term agrees with. -/
theorem same_of_same_left (ha : P a) (hb : P b) (hl : P l) (hla : Term.same l a = true)
    (hlb : Term.same l b = true) : Term.same a b = true :=
  agreeing.trans ha hl hb (agreeing.symm hl ha hla) hlb

end Term.Agreeing

/-- Among these terms, to agree is an equivalence. -/
structure Term.Equivalent (P : V → Prop) : Prop extends Term.Agreeing P where
  refl : ∀ ⦃a⦄, P a → Term.same a a = true

/-- It is where only identical terms agree. -/
theorem Term.Discrete.equivalent {P : V → Prop} (h : Term.Discrete P) : Term.Equivalent P where
  symm _ _ ha hb hab := by rw [← h.same_comm ha hb, hab]
  trans _ _ _ ha hb _ hab hbc := by
    obtain rfl := (h ha hb).1 hab
    exact hbc
  refl _ ha := h.same_self ha

namespace Heap

/-- Every chunk is at one of these locations. -/
def Located (P : V → Prop) (h : List (Chunk V)) : Prop := ∀ c ∈ h, P c.location

/-- The locations that are claimed, each where it first occurs. -/
def claimed : List (Chunk V) → List V
  | [] => []
  | c :: h => c.location :: (claimed h).filter fun l => !Term.same c.location l

/-- The values that are claimed for a location, in heap order. -/
def valuesAt (l : V) (h : List (Chunk V)) : List V := (chunksAt l h).map Chunk.value

@[simp] theorem claimed_nil : claimed ([] : List (Chunk V)) = [] := rfl

theorem chunksAt_cons_of_same {c : Chunk V} {l : V} (hcl : Term.same c.location l = true)
    {h : List (Chunk V)} : chunksAt l (c :: h) = c :: chunksAt l h := List.filter_cons_of_pos hcl

theorem chunksAt_cons_of_not_same {c : Chunk V} {l : V} (hcl : ¬ Term.same c.location l = true)
    {h : List (Chunk V)} : chunksAt l (c :: h) = chunksAt l h := List.filter_cons_of_neg hcl

section Discrete

variable {P : V → Prop} (discrete : Term.Discrete P) {h : List (Chunk V)} {c : Chunk V} {l : V}

omit [Term V] in
theorem Located.tail (located : Located P (c :: h)) : Located P h := fun d hd =>
  located d (List.mem_cons_of_mem c hd)

omit [Term V] in
theorem Located.head (located : Located P (c :: h)) : P c.location := located c (List.mem_cons_self ..)

include discrete

theorem mem_claimed (located : Located P h) (hl : P l) : l ∈ claimed h ↔ ∃ c ∈ h, c.location = l := by
  induction h with
  | nil => simp
  | cons d h ih =>
    rw [claimed, List.mem_cons, List.mem_filter, ih located.tail]
    constructor
    · rintro (rfl | ⟨⟨c, hc, rfl⟩, -⟩)
      · exact ⟨d, List.mem_cons_self .., rfl⟩
      · exact ⟨c, List.mem_cons_of_mem d hc, rfl⟩
    · rintro ⟨c, hc, rfl⟩
      rcases List.mem_cons.1 hc with rfl | hc
      · exact .inl rfl
      · by_cases hd : d.location = c.location
        · exact .inl hd.symm
        · exact .inr ⟨⟨c, hc, rfl⟩, by rw [discrete.same_of_ne located.head hl hd]; rfl⟩

theorem nodup_claimed (located : Located P h) : (claimed h).Nodup := by
  induction h with
  | nil => exact List.nodup_nil
  | cons c h ih =>
    refine List.nodup_cons.2 ⟨fun hc => ?_, (ih located.tail).filter _⟩
    rw [List.mem_filter, discrete.same_self located.head] at hc
    exact absurd hc.2 (by simp)

omit discrete in
theorem forall_claimed (located : Located P h) : ∀ l ∈ claimed h, P l := by
  induction h with
  | nil => simp
  | cons c h ih =>
    intro l hl
    rcases List.mem_cons.1 hl with rfl | hl
    · exact located.head
    · exact ih located.tail l (List.mem_filter.1 hl).1

/-- A location is claimed if there is a value for it. -/
theorem valuesAt_eq_nil_iff (located : Located P h) (hl : P l) : valuesAt l h = [] ↔ l ∉ claimed h := by
  rw [mem_claimed discrete located hl, valuesAt, List.map_eq_nil_iff, chunksAt, List.filter_eq_nil_iff]
  constructor
  · rintro hn ⟨c, hc, rfl⟩
    exact hn c hc (discrete.same_self hl)
  · exact fun hn c hc hs => hn ⟨c, hc, (discrete (located c hc) hl).1 hs⟩

/-! ## One more chunk -/

/-- The values for the location of the chunk in front. -/
theorem valuesAt_cons_self (hc : P c.location) :
    valuesAt c.location (c :: h) = c.value :: valuesAt c.location h :=
  congrArg (List.map Chunk.value) (chunksAt_cons_of_same (discrete.same_self hc))

theorem valuesAt_cons_of_ne (hc : P c.location) (hl : P l) (hne : c.location ≠ l) :
    valuesAt l (c :: h) = valuesAt l h :=
  congrArg (List.map Chunk.value) (chunksAt_cons_of_not_same (by simp [discrete.same_of_ne hc hl hne]))

end Discrete

/-! ## Without a location -/

/-- The chunks at other locations. -/
def without (l : V) (h : List (Chunk V)) : List (Chunk V) := h.filter fun c => !Term.same l c.location

theorem Located.without {P : V → Prop} {h : List (Chunk V)} (located : Located P h) (l : V) :
    Located P (without l h) := fun c hc => located c (List.mem_filter.1 hc).1

section Agreeing

variable {P : V → Prop} (agreeing : Term.Agreeing P) {h : List (Chunk V)} {c : Chunk V} {l : V}

include agreeing

/-- What is not at the location of a chunk may be left out when looking for another location. -/
theorem chunksAt_without_of_not_same (hc : P c.location) (located : Located P h) (hl : P l)
    (hcl : ¬ Term.same c.location l = true) : chunksAt l (without c.location h) = chunksAt l h := by
  rw [chunksAt, without, List.filter_filter]
  refine List.filter_congr fun d hd => ?_
  by_cases hdl : Term.same d.location l = true
  · have hcd : ¬ Term.same c.location d.location = true := fun hcd =>
      hcl (agreeing.trans hc (located d hd) hl hcd hdl)
    simp [hdl, hcd]
  · simp [hdl]

/-- Nothing is at a location without the chunks there. -/
theorem chunksAt_without_of_same (hc : P c.location) (located : Located P h) (hl : P l)
    (hcl : Term.same c.location l = true) : chunksAt l (without c.location h) = [] := by
  rw [chunksAt, without, List.filter_filter, List.filter_eq_nil_iff]
  intro d hd hboth
  obtain ⟨hdl, hcd⟩ := (Bool.and_eq_true _ _).mp hboth
  rw [agreeing.same_of_same hc (located d hd) hl hcl hdl] at hcd
  cases hcd

/-- Without a location the others are claimed that were. -/
theorem claimed_without (located : Located P h) (hl : P l) :
    claimed (without l h) = (claimed h).filter fun k => !Term.same l k := by
  induction h with
  | nil => rfl
  | cons c h ih =>
    by_cases hlc : Term.same l c.location = true
    · -- what agrees with the location of the chunk in front agrees with `l`
      have alike : ∀ k ∈ claimed h, Term.same c.location k = Term.same l k := fun k hk =>
        (agreeing.same_congr hl located.head (forall_claimed located.tail k hk) hlc).symm
      rw [Heap.without, List.filter_cons_of_neg (by simpa using hlc), ← Heap.without, ih located.tail, claimed,
        List.filter_cons_of_neg (by simpa using hlc), List.filter_filter]
      refine List.filter_congr fun k hk => ?_
      rw [alike k hk, Bool.and_self]
    · rw [Heap.without, List.filter_cons_of_pos (by simpa using hlc), ← Heap.without, claimed, ih located.tail,
        claimed, List.filter_cons_of_pos (by simpa using hlc), List.filter_filter, List.filter_filter]
      exact congrArg (c.location :: ·) (List.filter_congr fun k _ => Bool.and_comm ..)

end Agreeing

/-! ## Groups -/

/-- A group takes the values of its location, and leaves the other chunks to the groups behind. -/
theorem foldl_addToGroups_cons (g : Group V) (gs : List (Group V)) (h : List (Chunk V)) :
    h.foldl (fun gs c => addToGroups c gs) (g :: gs)
      = ⟨g.location, g.values ++ (h.filter fun c => Term.same g.location c.location).map Chunk.value⟩
        :: (without g.location h).foldl (fun gs c => addToGroups c gs) gs := by
  induction h generalizing g gs with
  | nil => simp [without]
  | cons c h ih =>
    rw [List.foldl_cons, addToGroups]
    by_cases hc : Term.same g.location c.location = true
    · rw [if_pos hc, ih]
      simp [without, hc]
    · rw [if_neg hc, ih]
      simp [without, hc]

section Equivalent

variable {P : V → Prop} (equivalent : Term.Equivalent P) {h : List (Chunk V)} {c : Chunk V}

include equivalent

theorem groups_cons (located : Located P (c :: h)) :
    groups (c :: h) = ⟨c.location, valuesAt c.location (c :: h)⟩ :: groups (without c.location h) := by
  have same : (h.filter fun d => Term.same c.location d.location) = chunksAt c.location h :=
    List.filter_congr fun d hd => equivalent.same_comm located.head (located.tail d hd)
  show h.foldl (fun gs c => addToGroups c gs) [⟨c.location, [c.value]⟩] = _
  rw [foldl_addToGroups_cons, same, valuesAt, chunksAt_cons_of_same (equivalent.refl located.head)]
  rfl

/-- **The groups of a heap** are its locations, each where it first occurs and with its values. -/
theorem groups_eq : ∀ {h : List (Chunk V)}, Located P h →
    groups h = (claimed h).map fun l => ⟨l, valuesAt l h⟩
  | [], _ => rfl
  | c :: h, located => by
    rw [groups_cons equivalent located, groups_eq (located.tail.without c.location), claimed, List.map_cons,
      claimed_without equivalent.toAgreeing located.tail located.head]
    refine congrArg (_ :: ·) (List.map_congr_left fun l hl => ?_)
    obtain ⟨hmem, hother⟩ := List.mem_filter.1 hl
    have hl := forall_claimed located.tail l hmem
    have other : ¬ Term.same c.location l = true := by simpa using hother
    rw [valuesAt, valuesAt, chunksAt_without_of_not_same equivalent.toAgreeing located.head located.tail hl other,
      chunksAt_cons_of_not_same other]
termination_by h => h.length
decreasing_by exact Nat.lt_succ_of_le (List.length_filter_le ..)

end Equivalent

variable {P : V → Prop} (discrete : Term.Discrete P) {h : List (Chunk V)} {c : Chunk V} {l : V}

include discrete

/-! ## Overwriting -/

omit discrete in
/-- Which locations are claimed, and in what order, is said by the locations of the chunks. -/
theorem claimed_congr {k : List (Chunk V)} (hk : h.map Chunk.location = k.map Chunk.location) :
    claimed h = claimed k := by
  induction h generalizing k with
  | nil => rw [List.map_eq_nil_iff.1 hk.symm]
  | cons c h ih =>
    cases k with
    | nil => cases hk
    | cons d k =>
      obtain ⟨hcd, hrest⟩ := List.cons.inj hk
      rw [claimed, claimed, hcd, ih hrest]

omit discrete in
theorem claimed_overwrite (l v : V) (h : List (Chunk V)) : claimed (overwrite l v h) = claimed h :=
  claimed_congr (map_location_overwrite l v h)

omit discrete in
/-- Overwriting moves no chunk to another location. -/
theorem chunksAt_overwrite (k l v : V) (h : List (Chunk V)) :
    chunksAt k (overwrite l v h) = overwrite l v (chunksAt k h) := by
  rw [chunksAt, Heap.overwrite, List.filter_map]
  refine congrArg (List.map _) (List.filter_congr fun c _ => ?_)
  simp only [Function.comp_apply]
  split <;> rfl

omit discrete in
/-- Every value at the location becomes the new one. -/
theorem valuesAt_overwrite_self (l v : V) (h : List (Chunk V)) :
    valuesAt l (overwrite l v h) = (valuesAt l h).map fun _ => v := by
  rw [valuesAt, chunksAt_overwrite, valuesAt, Heap.overwrite, List.map_map, List.map_map]
  refine List.map_congr_left fun c hc => ?_
  simp only [Function.comp_apply, (mem_chunksAt.1 hc).2, if_true, Chunk.withValue]

/-- The values at other locations stay. -/
theorem valuesAt_overwrite_of_ne (located : Located P h) (hl : P l) {k : V} (hk : P k) (hkl : k ≠ l) (v : V) :
    valuesAt k (overwrite l v h) = valuesAt k h := by
  rw [valuesAt, chunksAt_overwrite, valuesAt, Heap.overwrite, List.map_map]
  refine List.map_congr_left fun c hc => ?_
  obtain ⟨hmem, hck⟩ := mem_chunksAt.1 hc
  obtain rfl := (discrete (located c hmem) hk).1 hck
  simp [discrete.same_of_ne hk hl hkl]

/-! ## One chunk for each location -/

theorem claimed_of_nodup (located : Located P h) (hn : (h.map Chunk.location).Nodup) :
    claimed h = h.map Chunk.location := by
  induction h with
  | nil => rfl
  | cons c h ih =>
    obtain ⟨hc, hrest⟩ := List.nodup_cons.1 hn
    rw [claimed, ih located.tail hrest, List.map_cons]
    refine congrArg (c.location :: ·) (List.filter_eq_self.2 fun l hl => ?_)
    obtain ⟨d, hd, rfl⟩ := List.mem_map.1 hl
    have hne : c.location ≠ d.location := fun he => hc (he ▸ hl)
    rw [discrete.same_of_ne located.head (located.tail d hd) hne]
    rfl

theorem valuesAt_of_nodup (located : Located P h) (hn : (h.map Chunk.location).Nodup) (hc : c ∈ h) :
    valuesAt c.location h = [c.value] := by
  induction h with
  | nil => cases hc
  | cons d h ih =>
    obtain ⟨hd, hrest⟩ := List.nodup_cons.1 hn
    rcases List.mem_cons.1 hc with rfl | hc
    · rw [valuesAt_cons_self discrete located.head]
      refine congrArg (c.value :: ·) ((valuesAt_eq_nil_iff discrete located.tail located.head).2 ?_)
      intro hmem
      rw [claimed_of_nodup discrete located.tail hrest] at hmem
      exact hd hmem
    · have hne : d.location ≠ c.location := fun he => hd (he ▸ List.mem_map_of_mem hc)
      rw [valuesAt_cons_of_ne discrete located.head (located.tail c hc) hne, ih located.tail hrest hc]

end Heap

/-! ## Lists of answers -/

section Answers

variable {α β ε : Type} {f : α → Except ε β} {xs : List α}

theorem mapM_eq_ok_iff {ys : List β} :
    xs.mapM f = .ok ys ↔ List.Forall₂ (fun x y => f x = .ok y) xs ys := by
  induction xs generalizing ys with
  | nil =>
    rw [List.mapM_nil, List.forall₂_nil_left_iff]
    exact ⟨fun h => (Except.ok.inj h).symm, fun h => h ▸ rfl⟩
  | cons x xs ih =>
    rw [List.mapM_cons]
    constructor
    · intro h
      cases hx : f x with
      | error e =>
        rw [hx] at h
        cases h
      | ok y =>
        cases hxs : xs.mapM f with
        | error e =>
          rw [hx, hxs] at h
          cases h
        | ok rest =>
          rw [hx, hxs] at h
          obtain rfl : y :: rest = ys := Except.ok.inj h
          exact .cons hx (ih.1 hxs)
    · rintro (_ | ⟨hx, hrest⟩)
      rw [hx, ih.2 hrest]
      rfl

theorem exists_of_mapM_eq_error {e : ε} (h : xs.mapM f = .error e) : ∃ x ∈ xs, f x = .error e := by
  induction xs with
  | nil => cases h
  | cons x xs ih =>
    rw [List.mapM_cons] at h
    cases hx : f x with
    | error e' =>
      rw [hx] at h
      obtain rfl : e' = e := Except.error.inj h
      exact ⟨x, List.mem_cons_self .., hx⟩
    | ok y =>
      cases hxs : xs.mapM f with
      | error e' =>
        rw [hx, hxs] at h
        obtain rfl : e' = e := Except.error.inj h
        obtain ⟨x', hx', he⟩ := ih hxs
        exact ⟨x', List.mem_cons_of_mem x hx', he⟩
      | ok rest =>
        rw [hx, hxs] at h
        cases h

end Answers

/-! ## Fusing -/

namespace Heap

/-- The value of a location: the only one that is claimed, or what a policy makes of several. -/
def settled (policy : List V → Except (Fault V) V) : List V → Except (Fault V) V
  | [v] => .ok v
  | vs => policy vs

omit [Term V] in
theorem settled_of_two_le {policy : List V → Except (Fault V) V} {vs : List V} (h : 2 ≤ vs.length) :
    settled policy vs = policy vs := by
  match vs with
  | [] => rfl
  | [v] => simp at h
  | _ :: _ :: _ => rfl

/-- The heap with one chunk for each location, or the first fault of the policy. -/
def fused (policy : List V → Except (Fault V) V) (h : List (Chunk V)) : Except (Fault V) (List (Chunk V)) :=
  (claimed h).mapM fun l => (settled policy (valuesAt l h)).map (Chunk.mk l)

theorem fused_eq_ok_iff {policy : List V → Except (Fault V) V} {h g : List (Chunk V)} :
    fused policy h = .ok g ↔ g.map Chunk.location = claimed h ∧
      ∀ c ∈ g, settled policy (valuesAt c.location h) = .ok c.value := by
  have settles : ∀ l (c : Chunk V), (settled policy (valuesAt l h)).map (Chunk.mk l) = .ok c ↔
      c.location = l ∧ settled policy (valuesAt l h) = .ok c.value := by
    intro l c
    cases hs : settled policy (valuesAt l h) with
    | error e => exact ⟨(by cases ·), (by cases ·.2)⟩
    | ok v =>
      constructor
      · intro he
        obtain rfl : ⟨l, v⟩ = c := Except.ok.inj he
        exact ⟨rfl, rfl⟩
      · rintro ⟨rfl, he⟩
        rw [Except.ok.inj he]
        rfl
  rw [fused, mapM_eq_ok_iff]
  simp only [settles]
  generalize claimed h = ls
  induction g generalizing ls with
  | nil =>
    rw [List.forall₂_nil_right_iff]
    exact ⟨fun he => ⟨he ▸ rfl, by simp⟩, fun he => he.1.symm⟩
  | cons c g ih =>
    constructor
    · rintro (_ | ⟨⟨rfl, hc⟩, hrest⟩)
      obtain ⟨rfl, hg⟩ := (ih _).1 hrest
      exact ⟨rfl, List.forall_mem_cons.2 ⟨hc, hg⟩⟩
    · rintro ⟨rfl, hg⟩
      obtain ⟨hc, hg⟩ := List.forall_mem_cons.1 hg
      exact .cons ⟨rfl, hc⟩ ((ih _).2 ⟨rfl, hg⟩)

end Heap

end SymbolicPaths
