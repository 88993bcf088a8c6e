import SymbolicPaths.Term
/-!
# Sorting with an order that may be refused

Items of different kinds can have no order between them, and a sort is refused as soon as it compares
two such items.  Which two it meets first depends on the sort, so the sort is part of what can be
observed: first the longest run at the front is taken, ascending or strictly descending, and the
latter is turned round; then every other item is put into its place by halving.  The later of two
items is always asked whether it is less than the earlier one.

Sorting neither loses nor invents items (`perm_of_sortBy?`), and it is stable for an order that is
never refused.
-/

namespace SymbolicPaths

namespace Sorting

variable {ε : Type} (less : ε → ε → Except Incomparable Bool)

/-- The items that go on from `last` as long as each one follows the one before it, and the rest. -/
def takeRun (follows : ε → ε → Except Incomparable Bool) (last : ε) :
    List ε → Except Incomparable (List ε × List ε)
  | [] => .ok ([], [])
  | e :: rest => do
    if ← follows last e then
      let (run, others) ← takeRun follows e rest
      return (e :: run, others)
    else return ([], e :: rest)

/-- Whether an item may stand behind another in an ascending run. -/
def ascends (last next : ε) : Except Incomparable Bool := do return !(← less next last)

/-- Whether an item may stand behind another in a strictly descending run. -/
def descends (last next : ε) : Except Incomparable Bool := less next last

/-- The longest run at the front in ascending order, and the rest.  A run that strictly descends is
turned round. -/
def firstRun : List ε → Except Incomparable (List ε × List ε)
  | [] => .ok ([], [])
  | [e] => .ok ([e], [])
  | e :: f :: rest => do
    if ← less f e then
      let (run, others) ← takeRun (descends less) f rest
      return ((e :: f :: run).reverse, others)
    else
      let (run, others) ← takeRun (ascends less) f rest
      return (e :: f :: run, others)

/-- Puts an item into a sorted list, behind the items that it is not less than, by halving. -/
def insert (e : ε) (sorted : List ε) : Except Incomparable (List ε) :=
  match _half : sorted.drop (sorted.length / 2) with
  | [] => .ok (sorted ++ [e])
  | middle :: after => do
    if ← less e middle then return (← insert e (sorted.take (sorted.length / 2))) ++ middle :: after
    else return sorted.take (sorted.length / 2) ++ middle :: (← insert e after)
termination_by sorted.length
decreasing_by
  · have := congrArg List.length _half
    simp only [List.length_drop, List.length_cons] at this
    simp only [List.length_take]
    omega
  · have := congrArg List.length _half
    simp only [List.length_drop, List.length_cons] at this
    omega

end Sorting

/-- Items sorted, equal ones in their own order. -/
def sortBy? {ε : Type} (less : ε → ε → Except Incomparable Bool) (items : List ε) :
    Except Incomparable (List ε) := do
  let (run, rest) ← Sorting.firstRun less items
  rest.foldlM (fun sorted e => Sorting.insert less e sorted) run

namespace Sorting

variable {ε : Type} {less : ε → ε → Except Incomparable Bool}

/-- A run and the rest are all the items. -/
theorem append_of_takeRun {follows : ε → ε → Except Incomparable Bool} {last : ε}
    {items run others : List ε} (h : takeRun follows last items = .ok (run, others)) :
    run ++ others = items := by
  induction items generalizing last run others with
  | nil =>
    simp only [takeRun, Except.ok.injEq, Prod.mk.injEq] at h
    simp [← h.1, ← h.2]
  | cons e rest ih =>
    rcases hf : follows last e with _ | _ | _
    · simp [takeRun, hf, bind, Except.bind] at h
    · simp only [takeRun, hf, bind, Except.bind, pure, Except.pure, Bool.false_eq_true,
        if_false, Except.ok.injEq, Prod.mk.injEq] at h
      simp [← h.1, ← h.2]
    · rcases hr : takeRun follows e rest with _ | ⟨tail, more⟩
      · simp [takeRun, hf, hr, bind, Except.bind] at h
      · simp only [takeRun, hf, hr, bind, Except.bind, pure, Except.pure, if_true, Except.ok.injEq,
          Prod.mk.injEq] at h
        simp [← h.1, ← h.2, ih hr]

/-- The first run and the rest are all the items. -/
theorem perm_of_firstRun {items run others : List ε} (h : firstRun less items = .ok (run, others)) :
    (run ++ others).Perm items := by
  match items with
  | [] =>
    simp only [firstRun, Except.ok.injEq, Prod.mk.injEq] at h
    simp [← h.1, ← h.2]
  | [e] =>
    simp only [firstRun, Except.ok.injEq, Prod.mk.injEq] at h
    simp [← h.1, ← h.2]
  | e :: f :: rest =>
    rcases hf : less f e with _ | _ | _
    · simp [firstRun, hf, bind, Except.bind] at h
    · rcases hr : takeRun (ascends less) f rest with _ | ⟨tail, more⟩
      · simp [firstRun, hf, hr, bind, Except.bind] at h
      · simp only [firstRun, hf, hr, bind, Except.bind, pure, Except.pure, Bool.false_eq_true,
          if_false, Except.ok.injEq, Prod.mk.injEq] at h
        simp [← h.1, ← h.2, append_of_takeRun hr]
    · rcases hr : takeRun (descends less) f rest with _ | ⟨tail, more⟩
      · simp [firstRun, hf, hr, bind, Except.bind] at h
      · simp only [firstRun, hf, hr, bind, Except.bind, pure, Except.pure, if_true, Except.ok.injEq,
          Prod.mk.injEq] at h
        rw [← h.1, ← h.2, ← append_of_takeRun hr]
        exact (List.reverse_perm _).append_right more

/-- An item that is put into a list is one more. -/
theorem perm_of_insert {e : ε} {sorted out : List ε} (h : insert less e sorted = .ok out) :
    out.Perm (e :: sorted) := by
  fun_induction insert less e sorted generalizing out with
  | case1 sorted half =>
    simp only [Except.ok.injEq] at h
    exact h ▸ List.perm_append_singleton e sorted
  | case2 sorted middle after half ih1 ih2 =>
    have whole : sorted.take (sorted.length / 2) ++ middle :: after = sorted := by
      rw [← half]
      exact List.take_append_drop _ _
    rcases hm : less e middle with _ | _ | _
    · simp [hm, bind, Except.bind] at h
    · rcases hi : insert less e after with _ | inner
      · simp [hm, hi, bind, Except.bind] at h
      · simp only [hm, hi, bind, Except.bind, pure, Except.pure, Bool.false_eq_true, if_false,
          Except.ok.injEq] at h
        have tail := ((ih2 hi).cons middle).trans (List.Perm.swap e middle after)
        have all := (tail.append_left (sorted.take (sorted.length / 2))).trans List.perm_middle
        rwa [whole, h] at all
    · rcases hi : insert less e (sorted.take (sorted.length / 2)) with _ | inner
      · simp [hm, hi, bind, Except.bind] at h
      · simp only [hm, hi, bind, Except.bind, pure, Except.pure, if_true, Except.ok.injEq] at h
        have all := (ih1 hi).append_right (middle :: after)
        rwa [List.cons_append, whole, h] at all

/-- Items put in one after the other are all there. -/
theorem perm_of_foldlM_insert {items sorted out : List ε}
    (h : items.foldlM (fun sorted e => insert less e sorted) sorted = .ok out) :
    out.Perm (sorted ++ items) := by
  induction items generalizing sorted with
  | nil =>
    simp only [List.foldlM_nil, pure, Except.pure, Except.ok.injEq] at h
    simp [h]
  | cons e rest ih =>
    rcases hi : insert less e sorted with _ | next
    · simp [List.foldlM_cons, hi, bind, Except.bind] at h
    · simp only [List.foldlM_cons, hi, bind, Except.bind] at h
      exact (ih h).trans (((perm_of_insert hi).append_right rest).trans List.perm_middle.symm)

end Sorting

/-- Sorting only rearranges. -/
theorem perm_of_sortBy? {ε : Type} {less : ε → ε → Except Incomparable Bool} {items out : List ε}
    (h : sortBy? less items = .ok out) : out.Perm items := by
  rcases hr : Sorting.firstRun less items with _ | ⟨run, rest⟩
  · simp [sortBy?, hr, bind, Except.bind] at h
  · simp only [sortBy?, hr, bind, Except.bind] at h
    exact (Sorting.perm_of_foldlM_insert h).trans (Sorting.perm_of_firstRun hr)

end SymbolicPaths
