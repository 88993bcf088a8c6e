import Mathlib.Data.List.Pairwise
import SymbolicPaths.Layout
import SymbolicPaths.Proofs.Building
/-!
# When branches can be set out

To set a branch out its variables are sorted by name, and names, values and chunks are written.  Each of
these can be refused.  Among names that have an order and a text (`Term.Legible`) the names are no obstacle:

* A sort asks for the order of items at different places only (`sortBy?_congr`).  Where every name stands once,
  two values are never compared, however ties between names would be broken (`Store.Named.sorted?_eq`), and
  the sort is not refused (`Store.Named.exists_sorted`).
* So a branch with a sound state can be set out exactly if its result can be written and what its variables and
  its chunks hold (`Branch.exists_layoutAll_iff`).
-/

namespace SymbolicPaths

/-! ## Sorting -/

namespace Sorting

variable {ε : Type} {less less' : ε → ε → Except Incomparable Bool}

theorem takeRun_congr {follows follows' : ε → ε → Except Incomparable Bool} {last : ε} {items : List ε}
    (h : (last :: items).Pairwise fun e f => follows e f = follows' e f) :
    takeRun follows last items = takeRun follows' last items := by
  induction items generalizing last with
  | nil => rfl
  | cons e rest ih =>
    obtain ⟨first, others⟩ := List.pairwise_cons.1 h
    rw [takeRun, takeRun, first e (List.mem_cons_self ..), ih others]

theorem firstRun_congr {items : List ε} (h : items.Pairwise fun e f => less f e = less' f e) :
    firstRun less items = firstRun less' items := by
  match items with
  | [] => rfl
  | [e] => rfl
  | e :: f :: rest =>
    obtain ⟨first, others⟩ := List.pairwise_cons.1 h
    have ascending : takeRun (ascends less) f rest = takeRun (ascends less') f rest :=
      takeRun_congr (others.imp fun hef => by rw [ascends, ascends, hef])
    have descending : takeRun (descends less) f rest = takeRun (descends less') f rest :=
      takeRun_congr others
    rw [firstRun, firstRun, first f (List.mem_cons_self ..), ascending, descending]

theorem insert_congr {e : ε} {sorted : List ε} (h : ∀ f ∈ sorted, less e f = less' e f) :
    insert less e sorted = insert less' e sorted := by
  fun_induction insert less e sorted with
  | case1 sorted half =>
    rw [insert]
    split
    · rfl
    · rename_i middle after half'
      rw [half] at half'
      cases half'
  | case2 sorted middle after half ih1 ih2 =>
    have whole : sorted = sorted.take (sorted.length / 2) ++ middle :: after := by
      rw [← half, List.take_append_drop]
    rw [whole] at h
    obtain ⟨front, back⟩ := List.forall_mem_append.1 h
    obtain ⟨here, behind⟩ := List.forall_mem_cons.1 back
    rw [insert.eq_def less']
    split
    · rename_i half'
      rw [half] at half'
      cases half'
    · rename_i middle' after' half'
      rw [half] at half'
      obtain ⟨rfl, rfl⟩ := List.cons.inj half'
      rw [here, ih1 front, ih2 behind]

/-- Two questions have the same answer for two items, whichever is asked about first. -/
def Agree (less less' : ε → ε → Except Incomparable Bool) (e f : ε) : Prop :=
  less e f = less' e f ∧ less f e = less' f e

theorem foldlM_insert_congr {items sorted : List ε} (h : (sorted ++ items).Pairwise (Agree less less')) :
    items.foldlM (fun sorted e => insert less e sorted) sorted
      = items.foldlM (fun sorted e => insert less' e sorted) sorted := by
  induction items generalizing sorted with
  | nil => rfl
  | cons e rest ih =>
    obtain ⟨-, -, across⟩ := List.pairwise_append.1 h
    rw [List.foldlM_cons, List.foldlM_cons,
      insert_congr fun f hf => (across f hf e (List.mem_cons_self ..)).2]
    cases hi : insert less' e sorted with
    | error operands => rfl
    | ok next =>
      -- the item that was put in is among the sorted ones now, and pairs agree in any order
      have moved : (next ++ rest).Perm (sorted ++ e :: rest) :=
        ((perm_of_insert hi).append_right rest).trans List.perm_middle.symm
      exact ih ((moved.pairwise_iff fun hef => ⟨hef.2, hef.1⟩).2 h)

/-- A run is taken wherever no question is refused. -/
theorem exists_takeRun {follows : ε → ε → Except Incomparable Bool}
    (h : ∀ e f, ∃ b, follows e f = .ok b) (last : ε) (items : List ε) :
    ∃ split, takeRun follows last items = .ok split := by
  induction items generalizing last with
  | nil => exact ⟨_, rfl⟩
  | cons e rest ih =>
    obtain ⟨b, hb⟩ := h last e
    obtain ⟨split, hs⟩ := ih e
    rw [takeRun, hb, hs]
    cases b <;> exact ⟨_, rfl⟩

theorem exists_firstRun (h : ∀ e f, ∃ b, less e f = .ok b) (items : List ε) :
    ∃ split, firstRun less items = .ok split := by
  match items with
  | [] => exact ⟨_, rfl⟩
  | [e] => exact ⟨_, rfl⟩
  | e :: f :: rest =>
    obtain ⟨b, hb⟩ := h f e
    have descending : ∀ e f, ∃ b, descends less e f = .ok b := fun e f => h f e
    have ascending : ∀ e f, ∃ b, ascends less e f = .ok b := by
      intro e f
      obtain ⟨b, hb⟩ := h f e
      exact ⟨!b, by rw [ascends, hb]; rfl⟩
    obtain ⟨down, hdown⟩ := exists_takeRun descending f rest
    obtain ⟨up, hup⟩ := exists_takeRun ascending f rest
    rw [firstRun, hb, hdown, hup]
    cases b <;> exact ⟨_, rfl⟩

theorem exists_insert (h : ∀ e f, ∃ b, less e f = .ok b) (e : ε) (sorted : List ε) :
    ∃ out, insert less e sorted = .ok out := by
  fun_induction insert less e sorted with
  | case1 sorted half => exact ⟨_, rfl⟩
  | case2 sorted middle after half ih1 ih2 =>
    obtain ⟨b, hb⟩ := h e middle
    obtain ⟨front, hfront⟩ := ih1
    obtain ⟨back, hback⟩ := ih2
    rw [hb, hfront, hback]
    cases b <;> exact ⟨_, rfl⟩

theorem exists_foldlM_insert (h : ∀ e f, ∃ b, less e f = .ok b) (items sorted : List ε) :
    ∃ out, items.foldlM (fun sorted e => insert less e sorted) sorted = .ok out := by
  induction items generalizing sorted with
  | nil => exact ⟨sorted, rfl⟩
  | cons e rest ih =>
    obtain ⟨next, hn⟩ := exists_insert h e sorted
    rw [List.foldlM_cons, hn]
    exact ih next

end Sorting

section Sorts

variable {ε : Type} {less less' : ε → ε → Except Incomparable Bool} {items : List ε}

/-- **A sort asks for the order of items at different places only.** -/
theorem sortBy?_congr (h : items.Pairwise (Sorting.Agree less less')) :
    sortBy? less items = sortBy? less' items := by
  rw [sortBy?, sortBy?, Sorting.firstRun_congr (h.imp And.right)]
  cases hr : Sorting.firstRun less' items with
  | error operands => rfl
  | ok split =>
    exact Sorting.foldlM_insert_congr
      (((Sorting.perm_of_firstRun hr).pairwise_iff fun hef => ⟨hef.2, hef.1⟩).2 h)

/-- A sort is not refused if no question about two of the items is. -/
theorem exists_sortBy? (h : ∀ e ∈ items, ∀ f ∈ items, ∃ b, less e f = .ok b) :
    ∃ out, sortBy? less items = .ok out := by
  -- an order that is refused nowhere, and that agrees with this one about the items
  let total : ε → ε → Except Incomparable Bool := fun e f => .ok ((less e f).toOption.getD false)
  have answered : ∀ e f, ∃ b, total e f = .ok b := fun e f => ⟨_, rfl⟩
  have same : ∀ e ∈ items, ∀ f ∈ items, less e f = total e f := by
    intro e he f hf
    obtain ⟨b, hb⟩ := h e he f hf
    show less e f = .ok ((less e f).toOption.getD false)
    rw [hb]
    rfl
  have agree : items.Pairwise (Sorting.Agree less total) :=
    List.pairwise_of_forall_mem_list fun e he f hf => ⟨same e he f hf, same f hf e he⟩
  obtain ⟨split, hs⟩ := Sorting.exists_firstRun answered items
  rw [sortBy?_congr agree, sortBy?, hs]
  exact Sorting.exists_foldlM_insert answered split.2 split.1

end Sorts

variable {V α : Type} [Term V] {N : V → Prop}

/-! ## Names -/

/-- Names that have an order and a text; to agree is symmetric among them. -/
structure Term.Legible (N : V → Prop) : Prop where
  ordered : ∀ {a b}, N a → N b → ∃ o, Term.order a b = .ok o
  shown : ∀ {a}, N a → ∃ text, Term.shown? a = .ok text
  symm : ∀ {a b}, N a → N b → Term.same a b = true → Term.same b a = true

namespace Store.Named

variable (legible : Term.Legible N) {s : Store V}

include legible

/-- Bindings are sorted by such names. -/
theorem exists_sorted (h : s.Named N) : ∃ sorted, s.sorted? = .ok sorted := by
  refine exists_sortBy? fun e he f hf => ?_
  obtain ⟨o, ho⟩ := legible.ordered (h.names e he) (h.names f hf)
  exact ⟨o == .lt, by rw [Term.less, ho]; rfl⟩

/-- **Two values are never compared**: whatever would break a tie between names, the bindings are sorted the
same. -/
theorem sorted?_eq (h : s.Named N) (breaks : V → V → Except Incomparable Bool) :
    s.sorted? = sortBy? (fun e f => if Term.same e.1 f.1 then breaks e.2 f.2 else Term.less e.1 f.1)
      s.entries := by
  refine sortBy?_congr (h.distinct.imp_of_mem fun {e f} he hf apart => ?_)
  have turned : Term.same f.1 e.1 = false := by
    refine Bool.eq_false_iff.2 fun hs => ?_
    rw [legible.symm (h.names f hf) (h.names e he) hs] at apart
    cases apart
  constructor
  · show Term.less e.1 f.1 = if Term.same e.1 f.1 then _ else _
    rw [apart]
    rfl
  · show Term.less f.1 e.1 = if Term.same f.1 e.1 then _ else _
    rw [turned]
    rfl

end Store.Named

/-! ## States and branches -/

section Answers

variable {β γ δ ε : Type} {x : Except ε β} {y : Except ε γ}

/-- To make something of an answer takes an answer. -/
theorem exists_bind_pure_iff {g : β → γ} : (∃ c, (do return g (← x)) = .ok c) ↔ ∃ b, x = .ok b := by
  cases x with
  | error e =>
    constructor
    · rintro ⟨c, h⟩
      cases h
    · rintro ⟨b, h⟩
      cases h
  | ok b => exact ⟨fun _ => ⟨b, rfl⟩, fun _ => ⟨_, rfl⟩⟩

/-- To make something of two answers takes both. -/
theorem exists_both_iff {g : β → γ → δ} :
    (∃ c, (do return g (← x) (← y)) = .ok c) ↔ (∃ b, x = .ok b) ∧ ∃ c, y = .ok c := by
  cases x with
  | error e =>
    constructor
    · rintro ⟨c, h⟩
      cases h
    · rintro ⟨⟨b, h⟩, -⟩
      cases h
  | ok b => exact exists_bind_pure_iff.trans ⟨fun h => ⟨⟨b, rfl⟩, h⟩, And.right⟩

/-- Items are dealt with if each of them is. -/
theorem exists_mapM_iff {f : β → Except ε γ} {items : List β} :
    (∃ found, items.mapM f = .ok found) ↔ ∀ i ∈ items, ∃ a, f i = .ok a := by
  induction items with
  | nil => exact ⟨fun _ => List.forall_mem_nil _, fun _ => ⟨[], rfl⟩⟩
  | cons i rest ih =>
    rw [List.mapM_cons, List.forall_mem_cons, ← ih]
    exact exists_both_iff

end Answers

/-- What the variables of a state hold can be written, and its heap: what its chunks hold can be, and there is
nothing else in it. -/
structure State.Writable (s : State V) : Prop where
  bindings : ∀ e ∈ s.store.entries, ∃ text, Written.written? e.2 = .ok text
  heap : ∀ m ∈ s.heap, ∃ c, m = .chunk c ∧
    (∃ text, Written.written? c.location = .ok text) ∧ ∃ text, Written.written? c.value = .ok text

/-- The result of a branch can be written, and its state. -/
structure Branch.Writable [Written α] (b : Branch V α) : Prop where
  value : ∃ text, Written.written? b.value = .ok text
  state : ∀ s, b.state = .state s → s.Writable

theorem State.exists_memberLine_iff {m : Member V} : (∃ text, memberLine? m = .ok text) ↔
    ∃ c, m = .chunk c ∧
      (∃ text, Written.written? c.location = .ok text) ∧ ∃ text, Written.written? c.value = .ok text := by
  cases m with
  | foreign v =>
    constructor
    · rintro ⟨text, h⟩
      cases h
    · rintro ⟨c, h, -⟩
      cases h
  | chunk c =>
    refine exists_both_iff.trans ⟨fun h => ⟨c, rfl, h⟩, ?_⟩
    rintro ⟨d, hd, h⟩
    obtain rfl := Member.chunk.inj hd
    exact h

/-- The line of a binding. -/
def State.bindingLine? (e : V × V) : Except Unwritable String := do
  return (← Term.shown? e.1) ++ " = " ++ (← Written.written? e.2)

/-- A state is set out if its variables can be sorted and each of its lines can be written. -/
theorem State.exists_layout_iff_lines {s : State V} {sorted : List (V × V)} (h : s.store.sorted? = .ok sorted)
    (indent : String) : (∃ text, s.layout? indent = .ok text) ↔
      (∃ lines, sorted.mapM bindingLine? = .ok lines) ∧ ∃ lines, s.heap.mapM memberLine? = .ok lines := by
  rw [State.layout?, h]
  exact exists_both_iff

section Legible

variable (legible : Term.Legible N)

include legible

/-- A state with such names is set out if it can be written. -/
theorem State.exists_layout_iff {s : State V} (h : s.store.Named N) (indent : String) :
    (∃ text, s.layout? indent = .ok text) ↔ s.Writable := by
  obtain ⟨sorted, hsorted⟩ := h.exists_sorted legible
  have permuted : sorted.Perm s.store.entries := perm_of_sortBy? hsorted
  have bindings : (∃ lines, sorted.mapM bindingLine? = .ok lines)
      ↔ ∀ e ∈ s.store.entries, ∃ text, Written.written? e.2 = .ok text := by
    rw [exists_mapM_iff]
    refine forall_congr' fun e => ?_
    rw [permuted.mem_iff]
    exact imp_congr_right fun he => exists_both_iff.trans (and_iff_right (legible.shown (h.names e he)))
  have members : (∃ lines, s.heap.mapM memberLine? = .ok lines) ↔ ∀ m ∈ s.heap, ∃ c, m = .chunk c ∧
      (∃ text, Written.written? c.location = .ok text) ∧ ∃ text, Written.written? c.value = .ok text := by
    rw [exists_mapM_iff]
    exact forall_congr' fun m => imp_congr_right fun _ => exists_memberLine_iff
  rw [exists_layout_iff_lines hsorted, bindings, members]
  exact ⟨fun h => ⟨h.1, h.2⟩, fun h => ⟨h.bindings, h.heap⟩⟩

/-- **Branches with sound states can be set out exactly if each of them can be written.** -/
theorem Branch.exists_layoutAll_iff [Written α] {branches : List (Branch V α)}
    (h : ∀ b ∈ branches, b.state.Sound N) :
    (∃ text, Branch.layoutAll? branches = .ok text) ↔ ∀ b ∈ branches, b.Writable := by
  have each : ∀ b ∈ branches, ∀ i, (∃ text, b.layout? i = .ok text) ↔ b.Writable := by
    intro b hb i
    obtain ⟨s, hs, named⟩ := h b hb
    have laidOut := State.exists_layout_iff legible named "  "
    refine exists_both_iff.trans ?_
    rw [hs]
    constructor
    · rintro ⟨value, state⟩
      exact ⟨value, fun t ht => Subject.state.inj (hs.symm.trans ht) ▸ laidOut.1 state⟩
    · rintro ⟨value, state⟩
      exact ⟨value, laidOut.2 (state s hs)⟩
  have blocks : (∃ text, Branch.layoutAll? branches = .ok text)
      ↔ ∃ found, branches.zipIdx.mapM (fun b => b.1.layout? b.2) = .ok found := exists_bind_pure_iff
  rw [blocks, exists_mapM_iff]
  constructor
  · intro h b hb
    obtain ⟨i, hi, rfl⟩ := List.mem_iff_getElem.1 hb
    exact (each _ hb i).1 (h (branches[i], i) (List.mk_mem_zipIdx_iff_getElem?.2 (List.getElem?_eq_getElem hi)))
  · rintro h ⟨b, i⟩ hb
    have hb' : b ∈ branches := List.fst_mem_of_mem_zipIdx hb
    exact (each b hb' i).2 (h b hb')

end Legible

end SymbolicPaths
