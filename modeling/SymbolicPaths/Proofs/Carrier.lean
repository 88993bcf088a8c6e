import SymbolicPaths.Proofs.Grouping
import SymbolicPaths.Proofs.Largest
import SymbolicPaths.Script.Datum.Term
/-!
# Carriers

The library compares terms in two ways, by sameness and by an order, and neither has to fit what the terms
are: different terms may be the same, and two terms may have no order.  Laws about heaps speak of programs
whose terms are better behaved.  A `Carrier` says which terms serve as names, which are held by variables,
and which are the locations and the values of chunks.  Among them the same terms are identical, locations
can be keys, and the values of chunks have a strict total order.

On such values the policy that takes the largest term is a function of what is claimed and not of the order
in which it is claimed (`Unifier.maxAnswer_eq_ok_iff`).
-/

namespace SymbolicPaths

variable {V : Type} [Term V]

namespace Term

/-- A strict total order in which only identical terms are equal. -/
structure Ordered (P : V → Prop) : Prop where
  total : ∀ {a b}, P a → P b → ∃ o, Term.order a b = .ok o
  eq_iff : ∀ {a b}, P a → P b → (Term.order a b = .ok .eq ↔ a = b)
  swap : ∀ {a b} {o : Ordering}, P a → P b → Term.order a b = .ok o → Term.order b a = .ok o.swap
  trans : ∀ {a b c}, P a → P b → P c → Term.order a b = .ok .lt → Term.order b c = .ok .lt →
    Term.order a c = .ok .lt

/-- One term is smaller than another, or is the other. -/
def AtMost (a b : V) : Prop := Term.order a b = .ok .lt ∨ a = b

/-- A term is one of some terms, and the others are smaller. -/
def IsLargest (m : V) (vs : List V) : Prop := m ∈ vs ∧ ∀ v ∈ vs, AtMost v m

/-- Which of some terms is the largest does not depend on how they are listed. -/
theorem isLargest_congr {m : V} {vs ws : List V} (h : ∀ v, v ∈ vs ↔ v ∈ ws) :
    IsLargest m vs ↔ IsLargest m ws := by
  simp only [IsLargest, h]

namespace Ordered

variable {P : V → Prop} (h : Ordered P) {a b c m : V} {vs ws : List V}

include h

theorem atMost_trans (ha : P a) (hb : P b) (hc : P c) (hab : AtMost a b) (hbc : AtMost b c) : AtMost a c := by
  rcases hab with hab | rfl
  · rcases hbc with hbc | rfl
    · exact .inl (h.trans ha hb hc hab hbc)
    · exact .inl hab
  · exact hbc

theorem atMost_antisymm (ha : P a) (hb : P b) (hab : AtMost a b) (hba : AtMost b a) : a = b := by
  rcases hab with hab | rfl
  · rcases hba with hba | rfl
    · have turned := h.swap ha hb hab
      rw [hba] at turned
      cases turned
    · rfl
  · rfl

/-- A term that is not larger is at most the other. -/
theorem atMost_of_order {o : Ordering} (ha : P a) (hb : P b) (ho : Term.order a b = .ok o) (hgt : o ≠ .gt) :
    AtMost a b := by
  cases o with
  | lt => exact .inl ho
  | eq => exact .inr ((h.eq_iff ha hb).1 ho)
  | gt => exact absurd rfl hgt

/-- It is a total preorder all the more. -/
theorem preordered : Preordered fun a b => P a ∧ P b where
  symm _ _ h := h.symm
  total _ _ hab := by
    obtain ⟨o, ho⟩ := h.total hab.1 hab.2
    exact ⟨o, ho, h.swap hab.1 hab.2 ho⟩
  composes a b c o p q hab hbc hac ho hp hq := by
    refine ⟨?_, ?_, ?_⟩
    · rintro rfl
      obtain rfl := (h.eq_iff hab.1 hab.2).1 ho
      exact Except.ok.inj (hq.symm.trans hp)
    · rintro rfl
      obtain rfl := (h.eq_iff hbc.1 hbc.2).1 hp
      exact Except.ok.inj (hq.symm.trans ho)
    · rintro rfl
      cases o with
      | lt => exact Except.ok.inj (hq.symm.trans (h.trans hab.1 hab.2 hbc.2 ho hp))
      | eq =>
        obtain rfl := (h.eq_iff hab.1 hab.2).1 ho
        exact Except.ok.inj (hq.symm.trans hp)
      | gt =>
        -- two steps down are two steps up from the other end
        have up := h.trans hbc.2 hab.2 hab.1 (h.swap hbc.1 hbc.2 hp) (h.swap hab.1 hab.2 ho)
        exact Except.ok.inj (hq.symm.trans (h.swap hac.2 hac.1 up))

/-- The first of the largest terms is the largest one. -/
theorem isLargest_of_first (hv : ∀ v ∈ vs, P v) (first : IsFirstLargest m vs) : IsLargest m vs := by
  refine ⟨first.mem, fun v hvs => ?_⟩
  by_cases hne : m = v
  · exact .inr hne.symm
  · obtain ⟨o, ho, hlt⟩ := first.atLeast_of_ne hvs hne
    have hm := hv m first.mem
    exact h.atMost_of_order (hv v hvs) hm (h.swap hm (hv v hvs) ho) fun hgt => hlt (Ordering.swap_eq_gt.1 hgt)

theorem isLargest_unique (hv : ∀ v ∈ vs, P v) {n : V} (hm : IsLargest m vs) (hn : IsLargest n vs) : m = n :=
  h.atMost_antisymm (hv m hm.1) (hv n hn.1) (hn.2 m hm.1) (hm.2 n hn.1)

/-- The largest of some terms stands for them. -/
theorem isLargest_cons_iff (ha : P a) (hv : ∀ v ∈ vs, P v) {n : V} (hn : IsLargest n vs) :
    IsLargest m (a :: vs) ↔ IsLargest m [a, n] := by
  have hPn := hv n hn.1
  constructor
  · rintro ⟨hmem, hle⟩
    have hnm := hle n (List.mem_cons_of_mem a hn.1)
    have ham := hle a (List.mem_cons_self ..)
    refine ⟨?_, by simp [ham, hnm]⟩
    rcases List.mem_cons.1 hmem with rfl | hmem
    · exact List.mem_cons_self ..
    · -- the largest of all is among the others, and so it is the largest of them
      obtain rfl := h.atMost_antisymm (hv m hmem) hPn (hn.2 m hmem) hnm
      exact List.mem_cons_of_mem a (List.mem_singleton_self m)
  · rintro ⟨hmem, hle⟩
    have hPm : P m := by
      rcases List.mem_cons.1 hmem with rfl | hmem
      · exact ha
      · exact List.mem_singleton.1 hmem ▸ hPn
    refine ⟨?_, fun v hvs => ?_⟩
    · rcases List.mem_cons.1 hmem with rfl | hmem
      · exact List.mem_cons_self ..
      · exact List.mem_cons_of_mem a (List.mem_singleton.1 hmem ▸ hn.1)
    · rcases List.mem_cons.1 hvs with rfl | hvs
      · exact hle v (List.mem_cons_self ..)
      · exact h.atMost_trans (hv v hvs) hPn hPm (hn.2 v hvs) (hle n (by simp))

end Ordered

end Term

namespace Unifier

/-- The answer of the policy that takes the largest term. -/
def maxAnswer (vs : List V) : Except (Fault V) V := (maxTerm vs (.of .guarded) {}).answer

theorem maxAnswer_of_maxTerm {vs : List V} {m : V} (h : maxTerm vs = (pure m : Run V V)) :
    maxAnswer vs = .ok m := by
  rw [maxAnswer, h]
  rfl

/-- The policy is asked only where there are several values, but would answer with a single one as well. -/
theorem settled_maxAnswer (vs : List V) : Heap.settled maxAnswer vs = maxAnswer vs := by
  match vs with
  | [] => rfl
  | [v] => rfl
  | _ :: _ :: _ => rfl

theorem exists_best_eq (so : V) (rest : List V) :
    ∃ r, best larger so rest = Run.ofExcept (r : Except (Fault V) V) := by
  induction rest generalizing so with
  | nil => exact ⟨.ok so, rfl⟩
  | cons v rest ih =>
    rw [best, larger]
    cases Term.more v so with
    | error operands => exact ⟨.error (.defect (.incomparable ">" operands)), rfl⟩
    | ok better =>
      cases better with
      | true => exact ih v
      | false => exact ih so

/-- The largest term is found wherever it is asked for, and nothing else is done. -/
theorem maxTerm_eq (vs : List V) : maxTerm vs = Run.ofExcept (maxAnswer vs) := by
  cases vs with
  | nil => rfl
  | cons v rest =>
    obtain ⟨r, hr⟩ := exists_best_eq v rest
    rw [maxAnswer, maxTerm, hr]
    rfl

section Ordered

variable {P : V → Prop} (ordered : Term.Ordered P) {vs ws : List V} {m : V}

include ordered

theorem exists_largest (hvs : ∀ v ∈ vs, P v) (hne : vs ≠ []) :
    ∃ m, maxAnswer vs = .ok m ∧ Term.IsLargest m vs := by
  have related : vs.Pairwise fun a b => P a ∧ P b :=
    List.pairwise_of_forall_mem_list fun a ha b hb => ⟨hvs a ha, hvs b hb⟩
  obtain ⟨m, hm, first⟩ := exists_maxTerm ordered.preordered hne related
  exact ⟨m, maxAnswer_of_maxTerm hm, ordered.isLargest_of_first hvs first⟩

/-- **The policy finds the largest term.** -/
theorem maxAnswer_eq_ok_iff (hvs : ∀ v ∈ vs, P v) : maxAnswer vs = .ok m ↔ Term.IsLargest m vs := by
  by_cases hne : vs = []
  · subst hne
    exact ⟨(by cases ·), fun h => absurd h.1 (by simp)⟩
  · obtain ⟨n, found, largest⟩ := exists_largest ordered hvs hne
    rw [found]
    constructor
    · intro h
      obtain rfl := Except.ok.inj h
      exact largest
    · exact fun h => congrArg Except.ok (ordered.isLargest_unique hvs largest h)

/-- Some terms have a largest one. -/
theorem exists_maxAnswer (hvs : ∀ v ∈ vs, P v) (hne : vs ≠ []) : ∃ m, maxAnswer vs = .ok m := by
  obtain ⟨m, hm, -⟩ := exists_largest ordered hvs hne
  exact ⟨m, hm⟩

/-- The answer depends on what is claimed and not on the order in which it is claimed. -/
theorem maxAnswer_congr (hvs : ∀ v ∈ vs, P v) (h : ∀ v, v ∈ vs ↔ v ∈ ws) :
    maxAnswer vs = maxAnswer ws := by
  by_cases hne : vs = []
  · subst hne
    cases ws with
    | nil => rfl
    | cons w ws => exact absurd ((h w).2 (List.mem_cons_self ..)) (by simp)
  · obtain ⟨m, hm⟩ := exists_maxAnswer ordered hvs hne
    have hws : ∀ v ∈ ws, P v := fun v hv => hvs v ((h v).2 hv)
    have largest := (maxAnswer_eq_ok_iff ordered hvs).1 hm
    rw [hm, (maxAnswer_eq_ok_iff ordered hws).2 ((Term.isLargest_congr h).1 largest)]

/-- One more claim goes together with the answer for the others. -/
theorem maxAnswer_cons_congr {v : V} (hv : P v) (hvs : ∀ v ∈ vs, P v) (hws : ∀ v ∈ ws, P v)
    (h : maxAnswer vs = maxAnswer ws) :
    maxAnswer (v :: vs) = maxAnswer (v :: ws) := by
  by_cases hne : vs = []
  · by_cases hne' : ws = []
    · rw [hne, hne']
    · obtain ⟨m, hm⟩ := exists_maxAnswer ordered hws hne'
      rw [hm, hne] at h
      cases h
  · obtain ⟨n, hn⟩ := exists_maxAnswer ordered hvs hne
    have hn' := h.symm.trans hn
    obtain ⟨m, hm⟩ := exists_maxAnswer ordered (List.forall_mem_cons.2 ⟨hv, hvs⟩) (List.cons_ne_nil v vs)
    have whole := (maxAnswer_eq_ok_iff ordered (List.forall_mem_cons.2 ⟨hv, hvs⟩)).1 hm
    rw [hm, (maxAnswer_eq_ok_iff ordered (List.forall_mem_cons.2 ⟨hv, hws⟩)).2]
    rw [ordered.isLargest_cons_iff hv hws ((maxAnswer_eq_ok_iff ordered hws).1 hn')]
    exact (ordered.isLargest_cons_iff hv hvs ((maxAnswer_eq_ok_iff ordered hvs).1 hn)).1 whole

end Ordered

end Unifier

/-! ## Carriers -/

/-- Terms on which laws about heaps can rely. -/
structure Carrier (V : Type) [Term V] where
  /-- What variables are called. -/
  name : V → Prop
  /-- What variables hold. -/
  held : V → Prop
  /-- Where chunks are. -/
  location : V → Prop
  /-- What chunks hold. -/
  value : V → Prop
  held_of_value : ∀ {v}, value v → held v
  discrete_name : Term.Discrete name
  discrete_held : Term.Discrete held
  discrete_location : Term.Discrete location
  key_location : ∀ {l}, location l → Term.unhashable? l = none
  ordered : Term.Ordered value

namespace Carrier

variable (K : Carrier V)

/-- A chunk with its location and its value in the carrier. -/
def Claim (c : Chunk V) : Prop := K.location c.location ∧ K.value c.value

/-- A heap of such chunks. -/
def Heap (h : List (Chunk V)) : Prop := ∀ c ∈ h, K.Claim c

/-- Bindings that name each variable once, with names and values in the carrier. -/
structure Table (entries : List (V × V)) : Prop where
  once : (entries.map Prod.fst).Nodup
  names : ∀ e ∈ entries, K.name e.1
  values : ∀ e ∈ entries, K.held e.2

/-- Several values, which is what policies are asked about. -/
structure Several (vs : List V) : Prop where
  values : ∀ v ∈ vs, K.value v
  several : 2 ≤ vs.length

variable {K} {h g : List (Chunk V)} {l v : V} {c : Chunk V}

/-- The policy that takes the largest term has an answer for several values. -/
theorem Several.exists_maxAnswer {vs : List V} (h : K.Several vs) :
    ∃ m, Unifier.maxAnswer vs = .ok m ∧ K.value m := by
  have hlength := h.several
  obtain ⟨m, hm⟩ := Unifier.exists_maxAnswer K.ordered h.values (List.ne_nil_of_length_pos (by omega))
  exact ⟨m, hm, h.values m ((Unifier.maxAnswer_eq_ok_iff K.ordered h.values).1 hm).1⟩

namespace Heap

theorem cons (hh : K.Heap h) (hc : K.Claim c) : K.Heap (c :: h) := List.forall_mem_cons.2 ⟨hc, hh⟩

theorem perm (hh : K.Heap h) (hp : h.Perm g) : K.Heap g := fun c hc => hh c (hp.mem_iff.2 hc)

theorem located (hh : K.Heap h) : Heap.Located K.location h := fun c hc => (hh c hc).1

theorem values (hh : K.Heap h) (l : V) : ∀ v ∈ Heap.valuesAt l h, K.value v := by
  intro v hv
  obtain ⟨c, hc, rfl⟩ := List.mem_map.1 hv
  exact (hh c (Heap.mem_chunksAt.1 hc).1).2

theorem overwritten (hh : K.Heap h) (hv : K.value v) (l : V) : K.Heap (Heap.overwrite l v h) := by
  intro d hd
  obtain ⟨c, hc, rfl⟩ := List.mem_map.1 hd
  obtain ⟨hl, hw⟩ := hh c hc
  split
  · exact ⟨hl, hv⟩
  · exact ⟨hl, hw⟩

/-- For a location that is claimed there is one value or there are several. -/
theorem one_or_several (hh : K.Heap h) (hl : l ∈ Heap.claimed h) :
    (∃ v, Heap.valuesAt l h = [v]) ∨ K.Several (Heap.valuesAt l h) := by
  have hvalues := hh.values l
  have hne := mt (Heap.valuesAt_eq_nil_iff K.discrete_location hh.located
    (Heap.forall_claimed hh.located l hl)).1 (not_not_intro hl)
  match hvs : Heap.valuesAt l h, hne with
  | [v], _ => exact .inl ⟨v, rfl⟩
  | v :: w :: vs, _ => exact .inr ⟨hvs ▸ hvalues, by simp⟩

/-- A heap of a carrier is fused to one, if policies answer with values. -/
theorem compressed (hh : K.Heap h) {choice : List V → Except (Fault V) V}
    (hchoice : ∀ vs v, K.Several vs → choice vs = .ok v → K.value v) (hg : Heap.fused choice h = .ok g) :
    K.Heap g := by
  obtain ⟨hlocations, hvalues⟩ := Heap.fused_eq_ok_iff.1 hg
  intro c hc
  have hl : c.location ∈ Heap.claimed h := hlocations ▸ List.mem_map_of_mem hc
  have hv := hvalues c hc
  refine ⟨Heap.forall_claimed hh.located _ hl, ?_⟩
  rcases hh.one_or_several hl with ⟨v, hone⟩ | several
  · have only := hh.values c.location v (by rw [hone]; exact List.mem_singleton_self v)
    rw [hone] at hv
    exact Except.ok.inj hv ▸ only
  · rw [Heap.settled_of_two_le several.several] at hv
    exact hchoice _ _ several hv

/-- Where fusing ends in an error, the policy does, asked about several values. -/
theorem exists_of_fused_eq_error (hh : K.Heap h) {choice : List V → Except (Fault V) V} {e : Fault V}
    (he : Heap.fused choice h = .error e) : ∃ vs, K.Several vs ∧ choice vs = .error e := by
  obtain ⟨l, hl, hsettled⟩ := exists_of_mapM_eq_error he
  rcases hh.one_or_several hl with ⟨v, hone⟩ | several
  · rw [hone] at hsettled
    cases hsettled
  · rw [Heap.settled_of_two_le several.several] at hsettled
    refine ⟨_, several, ?_⟩
    cases hc : choice (Heap.valuesAt l h) with
    | ok v =>
      rw [hc] at hsettled
      cases hsettled
    | error e' =>
      rw [hc] at hsettled
      exact congrArg _ (Except.error.inj hsettled)

end Heap

end Carrier

/-! ## Texts and numbers -/

namespace Script.Datum

variable {P : Type}

theorem same_text_iff {a b : String} : Term.same (text a : Datum P) (text b) = true ↔ a = b := by
  show (a == b) = true ↔ a = b
  exact beq_iff_eq

theorem same_int_iff {a b : Int} : Term.same (int a : Datum P) (int b) = true ↔ a = b := by
  show (some b == some a) = true ↔ a = b
  rw [beq_iff_eq, Option.some.injEq]
  exact eq_comm

theorem same_location_iff {r f r' f' : String} :
    Term.same (location (text r) (text f) : Datum P) (location (text r') (text f')) = true ↔
      r = r' ∧ f = f' := by
  show (Term.same (text r : Datum P) (text r') && Term.same (text f : Datum P) (text f')) = true ↔ _
  rw [Bool.and_eq_true, same_text_iff, same_text_iff]

/-- Numbers are ordered by size. -/
theorem ordered_int : Term.Ordered fun v : Datum P => ∃ n, v = int n where
  total := by
    rintro _ _ ⟨a, rfl⟩ ⟨b, rfl⟩
    exact ⟨compare a b, rfl⟩
  eq_iff := by
    rintro _ _ ⟨a, rfl⟩ ⟨b, rfl⟩
    show (.ok (compare a b) : Except Incomparable Ordering) = .ok .eq ↔ _
    rw [Except.ok.injEq, Std.compare_eq_iff_eq, int.injEq]
  swap := by
    rintro _ _ o ⟨a, rfl⟩ ⟨b, rfl⟩ h
    obtain rfl : compare a b = o := Except.ok.inj h
    exact congrArg Except.ok Std.OrientedCmp.eq_swap
  trans := by
    rintro _ _ _ ⟨a, rfl⟩ ⟨b, rfl⟩ ⟨c, rfl⟩ hab hbc
    have hab : compare a b = .lt := Except.ok.inj hab
    have hbc : compare b c = .lt := Except.ok.inj hbc
    exact congrArg Except.ok (Std.TransCmp.lt_trans hab hbc)

/-- The carrier in which texts name variables and fields, and everything else is a number. -/
def plain : Carrier (Datum P) where
  name v := ∃ s, v = text s
  held v := ∃ n, v = int n
  location v := ∃ r f, v = location (text r) (text f)
  value v := ∃ n, v = int n
  held_of_value := id
  discrete_name := by
    rintro _ _ ⟨a, rfl⟩ ⟨b, rfl⟩
    rw [same_text_iff, text.injEq]
  discrete_held := by
    rintro _ _ ⟨a, rfl⟩ ⟨b, rfl⟩
    rw [same_int_iff, int.injEq]
  discrete_location := by
    rintro _ _ ⟨r, f, rfl⟩ ⟨r', f', rfl⟩
    rw [same_location_iff, location.injEq, text.injEq, text.injEq]
  key_location := by
    rintro _ ⟨r, f, rfl⟩
    rfl
  ordered := ordered_int

end Script.Datum

end SymbolicPaths
