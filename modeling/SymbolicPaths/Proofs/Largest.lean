import Mathlib.Data.Fintype.Defs
import Mathlib.Data.List.Pairwise
import SymbolicPaths.Unifier
/-!
# The first of the largest terms

The policy in force goes through terms, keeps the best so far, and replaces it only by a larger one.  This file
says what it ends with where the terms can be compared with each other but need not be told apart by their order:
the first of the largest ones (`Term.IsFirstLargest`).

What is known of the order is `Term.Preordered`: it is total and transitive.  This is known for any two terms in
some relation, which itself need not be transitive: an empty sequence can be compared with all sequences, and these
not with one another.  So the terms are asked to be related pairwise.

Transitivity is stated of three answers (`Composes`).  This says at once that equal terms stand to others in the
same way and that steps in one direction add up, and it is in this form that it passes to sequences.

The first of the largest terms is one place in a list (`Term.IsFirstLargest.unique`), and it can be found in
parts of the list first (`Term.IsFirstLargest.append`).  If the list is reordered another term may come first, one
that is equal to it (`Term.IsFirstLargest.eq_or_order_eq`).
-/

namespace SymbolicPaths

/-! ## Three answers -/

/-- How the first of three things stands to the last, if it stands to the one between them as `o`, and this one
to the last as `p`.  Nothing is said if there is one step up and one step down. -/
structure Composes (o p q : Ordering) : Prop where
  left : o = .eq → q = p
  right : p = .eq → q = o
  both : o = p → q = o

namespace Composes

instance (o p q : Ordering) : Decidable (Composes o p q) :=
  decidable_of_iff ((o = .eq → q = p) ∧ (p = .eq → q = o) ∧ (o = p → q = o))
    ⟨fun ⟨left, right, both⟩ => ⟨left, right, both⟩, fun h => ⟨h.left, h.right, h.both⟩⟩

theorem of_below (p : Ordering) : Composes .lt p .lt := ⟨nofun, fun _ => rfl, fun _ => rfl⟩

theorem of_above (o : Ordering) : Composes o .gt .gt := ⟨fun _ => rfl, nofun, Eq.symm⟩

theorem of_above_below (q : Ordering) : Composes .gt .lt q := ⟨nofun, nofun, nofun⟩

/-- The linear orders of numbers and of texts compose. -/
theorem of_compare {α : Type} [Ord α] [Std.TransOrd α] (a b c : α) :
    Composes (compare a b) (compare b c) (compare a c) where
  left h := Std.TransCmp.congr_left h
  right h := (Std.TransCmp.congr_right h).symm
  both h := by
    cases hab : compare a b with
    | lt => exact Std.TransCmp.lt_trans hab (h ▸ hab)
    | eq => exact (Std.TransCmp.congr_left hab).trans (h ▸ hab)
    | gt => exact Std.TransCmp.gt_trans hab (h ▸ hab)

/-- **Answers for the front and for what is behind it compose** to those for the whole. -/
theorem lex : ∀ {o p q o' p' q' : Ordering}, Composes o p q → Composes o' p' q' →
    Composes (o.then o') (p.then p') (q.then q') := by
  decide +kernel

end Composes

variable {V : Type} [Term V]

namespace Term

/-- On terms that are related, the order is a total preorder. -/
structure Preordered (R : V → V → Prop) : Prop where
  symm : ∀ ⦃a b⦄, R a b → R b a
  total : ∀ ⦃a b⦄, R a b → ∃ o, Term.order a b = .ok o ∧ Term.order b a = .ok o.swap
  composes : ∀ ⦃a b c o p q⦄, R a b → R b c → R a c →
    Term.order a b = .ok o → Term.order b c = .ok p → Term.order a c = .ok q → Composes o p q

/-- One term is larger than another. -/
def Above (a b : V) : Prop := Term.order a b = .ok .gt

/-- One term is larger than another or equal to it. -/
def AtLeast (a b : V) : Prop := ∃ o, Term.order a b = .ok o ∧ o ≠ .lt

/-- Among some terms, none is larger than this one, and those in front of it are smaller. -/
inductive IsFirstLargest (m : V) : List V → Prop where
  | head {rest : List V} (others : ∀ v ∈ rest, AtLeast m v) : IsFirstLargest m (m :: rest)
  | cons {v : V} {rest : List V} (smaller : Above m v) (behind : IsFirstLargest m rest) :
      IsFirstLargest m (v :: rest)

theorem Above.atLeast {a b : V} (h : Above a b) : AtLeast a b := ⟨.gt, h, nofun⟩

namespace IsFirstLargest

variable {m : V} {vs : List V}

theorem mem (h : IsFirstLargest m vs) : m ∈ vs := by
  induction h with
  | head => exact List.mem_cons_self ..
  | cons _ _ ih => exact List.mem_cons_of_mem _ ih

/-- It is larger than any other, or equal to it. -/
theorem atLeast_of_ne {v : V} (h : IsFirstLargest m vs) (hv : v ∈ vs) (hne : m ≠ v) : AtLeast m v := by
  induction h with
  | head others => exact others v ((List.mem_cons.1 hv).resolve_left hne.symm)
  | cons smaller _ ih =>
    rcases List.mem_cons.1 hv with rfl | hv
    · exact smaller.atLeast
    · exact ih hv

end IsFirstLargest

namespace Preordered

variable {R : V → V → Prop} (ordered : Preordered R) {a b c m n : V} {vs ws : List V}

include ordered

theorem not_above_of_atLeast (hab : R a b) (h : AtLeast a b) : ¬ Above b a := by
  intro hba
  obtain ⟨o, ho, hlt⟩ := h
  obtain ⟨p, hp, turned⟩ := ordered.total hab
  obtain rfl := Except.ok.inj (ho.symm.trans hp)
  -- turned around, the answer that `b` is larger says that `a` is smaller
  have swapped : o.swap = .gt := Except.ok.inj (turned.symm.trans hba)
  exact hlt (Ordering.swap_eq_gt.1 swapped)

theorem atLeast_of_not_above (hab : R a b) (h : ¬ Above a b) : AtLeast b a := by
  obtain ⟨o, ho, turned⟩ := ordered.total hab
  exact ⟨o.swap, turned, fun hlt => h (ho.trans (congrArg Except.ok (Ordering.swap_eq_lt.1 hlt)))⟩

/-- Terms of which none is larger are equal. -/
theorem order_eq_of_atLeast (hab : R a b) (h : AtLeast a b) (h' : AtLeast b a) : Term.order a b = .ok .eq := by
  obtain ⟨o, ho, hlt⟩ := h
  cases o with
  | lt => exact absurd rfl hlt
  | eq => exact ho
  | gt => exact absurd ho (ordered.not_above_of_atLeast (ordered.symm hab) h')

theorem above_trans (hab : R a b) (hbc : R b c) (hac : R a c) (h : Above a b) (h' : AtLeast b c) :
    Above a c := by
  obtain ⟨p, hp, hlt⟩ := h'
  obtain ⟨q, hq, -⟩ := ordered.total hac
  have composes := ordered.composes hab hbc hac h hp hq
  cases p with
  | lt => exact absurd rfl hlt
  | eq => exact hq.trans (congrArg Except.ok (composes.right rfl))
  | gt => exact hq.trans (congrArg Except.ok (composes.both rfl))

theorem atLeast_trans (hab : R a b) (hbc : R b c) (hac : R a c) (h : AtLeast a b) (h' : AtLeast b c) :
    AtLeast a c := by
  obtain ⟨o, ho, hlt⟩ := h
  obtain ⟨p, hp, hlt'⟩ := id h'
  obtain ⟨q, hq, -⟩ := ordered.total hac
  cases o with
  | lt => exact absurd rfl hlt
  | eq => exact ⟨p, (ordered.composes hab hbc hac ho hp hq).left rfl ▸ hq, hlt'⟩
  | gt => exact (ordered.above_trans hab hbc hac ho h').atLeast

/-- Different terms of a list are related. -/
theorem related (hvs : vs.Pairwise R) (ha : a ∈ vs) (hb : b ∈ vs) (hne : a ≠ b) : R a b :=
  have : Std.Symm R := ⟨ordered.symm⟩
  hvs.forall ha hb hne

end Preordered

namespace IsFirstLargest

variable {R : V → V → Prop} (ordered : Preordered R) {a b m n : V} {vs ws : List V}

include ordered

/-- What is larger than the first of the largest is larger than all of them. -/
theorem above (hb : IsFirstLargest b vs) (hvs : vs.Pairwise R) (ha : ∀ v ∈ vs, R a v) (hab : Above a b) :
    ∀ v ∈ vs, Above a v := by
  intro v hv
  rcases eq_or_ne b v with rfl | hne
  · exact hab
  · exact ordered.above_trans (ha b hb.mem) (ordered.related hvs hb.mem hv hne) (ha v hv) hab
      (hb.atLeast_of_ne hv hne)

/-- What is not smaller than it is not smaller than any of them. -/
theorem atLeast (hb : IsFirstLargest b vs) (hvs : vs.Pairwise R) (ha : ∀ v ∈ vs, R a v) (hab : AtLeast a b) :
    ∀ v ∈ vs, AtLeast a v := by
  intro v hv
  rcases eq_or_ne b v with rfl | hne
  · exact hab
  · exact ordered.atLeast_trans (ha b hb.mem) (ordered.related hvs hb.mem hv hne) (ha v hv) hab
      (hb.atLeast_of_ne hv hne)

/-- **Only one term is the first of the largest.** -/
theorem unique (hvs : vs.Pairwise R) (hm : IsFirstLargest m vs) (hn : IsFirstLargest n vs) : m = n := by
  -- if only one of the two is in front, the other one would have to be above it
  induction hm with
  | head others =>
    cases hn with
    | head => rfl
    | cons larger behind =>
      have hmn := (List.pairwise_cons.1 hvs).1 n behind.mem
      exact absurd larger (ordered.not_above_of_atLeast hmn (others n behind.mem))
  | cons larger behind ih =>
    obtain ⟨across, hrest⟩ := List.pairwise_cons.1 hvs
    cases hn with
    | head others =>
      have hnm := across m behind.mem
      exact absurd larger (ordered.not_above_of_atLeast hnm (others m behind.mem))
    | cons _ behind' => exact ih hrest behind'

/-- **Reordered**, the terms have a first of the largest that is equal to the one that they had. -/
theorem eq_or_order_eq (hvs : vs.Pairwise R) (hm : IsFirstLargest m vs) (hn : IsFirstLargest n ws)
    (h : ∀ v, v ∈ vs ↔ v ∈ ws) : m = n ∨ (R m n ∧ Term.order m n = .ok .eq) := by
  have hnvs : n ∈ vs := (h n).2 hn.mem
  have hmws : m ∈ ws := (h m).1 hm.mem
  rcases eq_or_ne m n with rfl | hne
  · exact .inl rfl
  · have related := ordered.related hvs hm.mem hnvs hne
    exact .inr ⟨related, ordered.order_eq_of_atLeast related (hm.atLeast_of_ne hnvs hne)
      (hn.atLeast_of_ne hmws hne.symm)⟩

omit ordered in
/-- What is smaller in front changes nothing. -/
theorem append_left (h : IsFirstLargest m ws) (smaller : ∀ v ∈ vs, Above m v) : IsFirstLargest m (vs ++ ws) := by
  induction vs with
  | nil => exact h
  | cons v vs ih =>
    obtain ⟨here, others⟩ := List.forall_mem_cons.1 smaller
    exact .cons here (ih others)

omit ordered in
/-- Neither does behind what is not larger. -/
theorem append_right (h : IsFirstLargest m vs) (others : ∀ w ∈ ws, AtLeast m w) :
    IsFirstLargest m (vs ++ ws) := by
  induction h with
  | head here => exact .head fun v hv => (List.mem_append.1 hv).elim (here v) (others v)
  | cons smaller _ ih => exact .cons smaller ih

/-- **In parts**: the first of the largest of two lists is the one of both together. -/
theorem append (hvw : (vs ++ ws).Pairwise R) (ha : IsFirstLargest a vs) (hb : IsFirstLargest b ws)
    (hm : IsFirstLargest m [a, b]) : IsFirstLargest m (vs ++ ws) := by
  obtain ⟨hvs, hws, across⟩ := List.pairwise_append.1 hvw
  cases hm with
  | head others =>
    exact ha.append_right (hb.atLeast ordered hws (across _ ha.mem) (others b (List.mem_singleton_self b)))
  | cons larger behind =>
    obtain rfl : m = b := List.mem_singleton.1 behind.mem
    exact hb.append_left (ha.above ordered hvs (fun v hv => ordered.symm (across v hv _ hb.mem)) larger)

/-- A candidate that is larger than the best so far takes its place. -/
theorem replace {so v : V} (hvs : (so :: v :: vs).Pairwise R) (larger : Above v so)
    (h : IsFirstLargest m (v :: vs)) : IsFirstLargest m (so :: v :: vs) := by
  obtain ⟨hso, hrest⟩ := List.pairwise_cons.1 hvs
  refine .cons ?_ h
  cases h with
  | head => exact larger
  | cons smaller behind =>
    have hvm := (List.pairwise_cons.1 hrest).1 m behind.mem
    have hsov := hso v (List.mem_cons_self ..)
    have hsom := hso m (List.mem_cons_of_mem v behind.mem)
    exact ordered.above_trans (ordered.symm hvm) (ordered.symm hsov) (ordered.symm hsom) smaller larger.atLeast

/-- And one that is not larger can be left out. -/
theorem keep {so v : V} (hvs : (so :: v :: vs).Pairwise R) (others : AtLeast so v)
    (h : IsFirstLargest m (so :: vs)) : IsFirstLargest m (so :: v :: vs) := by
  obtain ⟨hso, hrest⟩ := List.pairwise_cons.1 hvs
  cases h with
  | head here => exact .head (List.forall_mem_cons.2 ⟨others, here⟩)
  | cons smaller behind =>
    have hvm := (List.pairwise_cons.1 hrest).1 m behind.mem
    have hsov := hso v (List.mem_cons_self ..)
    have hsom := hso m (List.mem_cons_of_mem v behind.mem)
    exact .cons smaller
      (.cons (ordered.above_trans (ordered.symm hsom) hsov (ordered.symm hvm) smaller others) behind)

end IsFirstLargest

end Term

/-! ## What the policy finds -/

namespace Unifier

open Term

variable {R : V → V → Prop} (ordered : Preordered R) {a b m : V} {vs ws : List V}

include ordered

theorem exists_best (so : V) (rest : List V) (hvs : (so :: rest).Pairwise R) :
    ∃ m, best larger so rest = (pure m : Run V V) ∧ IsFirstLargest m (so :: rest) := by
  induction rest generalizing so with
  | nil => exact ⟨so, rfl, .head (List.forall_mem_nil _)⟩
  | cons v rest ih =>
    have related : R so v := (List.pairwise_cons.1 hvs).1 v (List.mem_cons_self ..)
    obtain ⟨o, ho, -⟩ := ordered.total (ordered.symm related)
    have asked : larger v so = (pure (o == .gt) : Run V Bool) := by
      rw [larger, Term.more, ho]
      rfl
    rw [best, asked, pure_bind]
    by_cases hgt : o = .gt
    · subst hgt
      obtain ⟨m, hm, first⟩ := ih v (List.pairwise_cons.1 hvs).2
      exact ⟨m, hm, first.replace ordered hvs ho⟩
    · have others : AtLeast so v := ordered.atLeast_of_not_above (ordered.symm related) fun h =>
        hgt (Except.ok.inj (ho.symm.trans h))
      obtain ⟨m, hm, first⟩ := ih so (hvs.sublist ((List.sublist_cons_self v rest).cons_cons so))
      rw [if_neg (by simpa using hgt)]
      exact ⟨m, hm, first.keep ordered hvs others⟩

/-- **The policy finds the first of the largest terms.** -/
theorem exists_maxTerm (hne : vs ≠ []) (hvs : vs.Pairwise R) :
    ∃ m, maxTerm vs = (pure m : Run V V) ∧ IsFirstLargest m vs := by
  cases vs with
  | nil => exact absurd rfl hne
  | cons v rest => exact exists_best ordered v rest hvs

/-- **The policy can be asked in parts.** -/
theorem maxTerm_append (hne : vs ≠ []) (hne' : ws ≠ []) (hvw : (vs ++ ws).Pairwise R) :
    ∃ a b m, maxTerm vs = (pure a : Run V V) ∧ maxTerm ws = (pure b : Run V V) ∧
      maxTerm [a, b] = (pure m : Run V V) ∧ maxTerm (vs ++ ws) = (pure m : Run V V) := by
  obtain ⟨hvs, hws, across⟩ := List.pairwise_append.1 hvw
  obtain ⟨a, ha, firstA⟩ := exists_maxTerm ordered hne hvs
  obtain ⟨b, hb, firstB⟩ := exists_maxTerm ordered hne' hws
  have hab : [a, b].Pairwise R := List.pairwise_pair.2 (across a firstA.mem b firstB.mem)
  obtain ⟨m, hm, first⟩ := exists_maxTerm ordered (List.cons_ne_nil a [b]) hab
  obtain ⟨n, hn, whole⟩ := exists_maxTerm ordered (by simp [hne]) hvw
  obtain rfl := whole.unique ordered hvw (firstA.append ordered hvw firstB first)
  exact ⟨a, b, n, ha, hb, hm, hn⟩

end Unifier

end SymbolicPaths
