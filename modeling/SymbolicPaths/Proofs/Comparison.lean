import Mathlib.Data.List.Zip
import Mathlib.Order.Basic
import SymbolicPaths.Proofs.Equality
import SymbolicPaths.Proofs.Largest
/-!
# Data that can be compared

Numbers can be compared with numbers and texts with texts, and sequences of one kind if their items can be
compared at every place that both have (`Script.Datum.Comparable`).  This file shows that among such data the
order of data is what one expects of an order: it is never refused, it turns around with its operands, it says
that two data are equal just if they agree (`Script.Datum.Comparable.exists_stands`), and it is transitive
(`Script.Datum.Comparable.composesBy`).

## Why agreement has to be carried along

Sequences are ordered by their items at the first place where these do not agree, and which place this is says
agreement and not the order.  So it is not enough to know the order of the items.  What is carried through the
recursion is that a datum *stands* to another in a certain way, which says both at once: what the order answers,
and that they agree just if the answer is that they are equal.

## Transitivity

Of three sequences the first two may part at another place than the last two.  In front of this place two of
them are equal and stand to the third in the same way, which is a case of its own.  All cases together say how
answers compose (`Composes`), and this passes from the items at one place and from those behind it to the
sequences (`Composes.lex`).
-/

namespace SymbolicPaths

namespace Script.Datum

variable {P : Type}

/-! ## Comparable data -/

/-- Data that can be compared with each other. -/
inductive Comparable : Datum P → Datum P → Prop where
  /-- Numbers can, truth values among them. -/
  | numbers {a b : Datum P} {m n : Int} (ha : a.number? = some m) (hb : b.number? = some n) : Comparable a b
  | texts (s t : String) : Comparable (text s) (text t)
  /-- Tuples can if their items can, at every place that both have. -/
  | tuples {a b : Datum P} {as bs : List (Datum P)} (ha : a.fields? = some as) (hb : b.fields? = some bs)
      (items : ∀ r ∈ as.zip bs, Comparable r.1 r.2) : Comparable a b
  /-- And so can lists. -/
  | lists {as bs : List (Datum P)} (items : ∀ r ∈ as.zip bs, Comparable r.1 r.2) :
      Comparable (list as) (list bs)

/-- Tuples stand for no number. -/
theorem number?_of_fields {a : Datum P} {as : List (Datum P)} (h : a.fields? = some as) : a.number? = none := by
  cases a with
  | tuple | branch | delimited => rfl
  | _ => cases h

/-- What holds of the items at each place holds of them in the other order. -/
theorem forall_mem_zip_swap {p : Datum P → Datum P → Prop} {as bs : List (Datum P)}
    (h : ∀ r ∈ as.zip bs, p r.2 r.1) : ∀ r ∈ bs.zip as, p r.1 r.2 := by
  rw [← List.zip_swap as bs]
  exact List.forall_mem_map.2 h

namespace Comparable

variable {a b c : Datum P}

theorem symm (h : Comparable a b) : Comparable b a := by
  induction h with
  | numbers ha hb => exact .numbers hb ha
  | texts s t => exact .texts t s
  | tuples ha hb _ ih => exact .tuples hb ha (forall_mem_zip_swap ih)
  | lists _ ih => exact .lists (forall_mem_zip_swap ih)

/-- A number can be compared with numbers only. -/
theorem exists_number {m : Int} (h : Comparable a b) (ha : a.number? = some m) : ∃ n, b.number? = some n := by
  cases h with
  | numbers _ hb => exact ⟨_, hb⟩
  | texts | lists => cases ha
  | tuples hf =>
    rw [number?_of_fields hf] at ha
    cases ha

theorem exists_text {s : String} (h : Comparable (text s) b) : ∃ t, b = text t := by
  cases h with
  | numbers ha | tuples ha => cases ha
  | texts _ t => exact ⟨t, rfl⟩

/-- A tuple can be compared with tuples only. -/
theorem exists_fields {as : List (Datum P)} (h : Comparable a b) (ha : a.fields? = some as) :
    ∃ bs, b.fields? = some bs ∧ ∀ r ∈ as.zip bs, Comparable r.1 r.2 := by
  cases h with
  | numbers hn =>
    rw [number?_of_fields ha] at hn
    cases hn
  | texts | lists => cases ha
  | tuples hf hb items =>
    obtain rfl := Option.some.inj (hf.symm.trans ha)
    exact ⟨_, hb, items⟩

theorem exists_list {as : List (Datum P)} (h : Comparable (list as) b) :
    ∃ bs, b = list bs ∧ ∀ r ∈ as.zip bs, Comparable r.1 r.2 := by
  cases h with
  | numbers ha | tuples ha => cases ha
  | lists items => exact ⟨_, rfl, items⟩

end Comparable

/-! ## What data are ordered by -/

theorem orderFrom_of_number {a : Datum P} {m : Int} (h : a.number? = some m) (turned : Bool) (b : Datum P) :
    orderFrom turned a b = match b.number? with
      | some n => .ok (compare m n)
      | none => incomparable turned a b := by
  cases a with
  | bool | int =>
    obtain rfl := Option.some.inj h
    cases b <;> rfl
  | _ => cases h

/-- Tuples are ordered by their fields, and so are branches and pairs of branch lists. -/
theorem orderFrom_of_fields {a b : Datum P} {as bs : List (Datum P)} (ha : a.fields? = some as)
    (hb : b.fields? = some bs) (turned : Bool) :
    orderFrom turned a b = orderItems (turnedInside turned a b) as bs := by
  cases a with
  | tuple items =>
    obtain rfl := Option.some.inj ha
    rw [orderFrom, hb]
  | branch x y | delimited x y =>
    obtain rfl := Option.some.inj ha
    rw [orderFrom, hb]
    rcases bs with _ | ⟨x', _ | ⟨y', more⟩⟩
    · rfl
    · simp only [orderItems]
    · cases more <;> simp only [orderItems] <;> rfl
  | _ => cases ha

/-! ## How data stand to each other -/

/-- A datum stands to another as `o`: this is their order, and they agree just if it says that they are equal. -/
structure Stands (a b : Datum P) (o : Ordering) : Prop where
  order : ∀ turned, orderFrom turned a b = .ok o
  same : same a b = o.isEq

/-- Items stand to others by the first place at which they are not equal, and a list in front of a longer one. -/
inductive StandItems : List (Datum P) → List (Datum P) → Ordering → Prop where
  | nil : StandItems [] [] .eq
  | shorter (b : Datum P) (bs : List (Datum P)) : StandItems [] (b :: bs) .lt
  | longer (a : Datum P) (as : List (Datum P)) : StandItems (a :: as) [] .gt
  | cons {a b : Datum P} {as bs : List (Datum P)} {o p : Ordering} (here : Stands a b o)
      (behind : StandItems as bs p) : StandItems (a :: as) (b :: bs) (o.then p)

variable {a b c : Datum P} {as bs cs : List (Datum P)} {o p q : Ordering}

theorem StandItems.orderItems_eq (h : StandItems as bs o) (turned : Bool) :
    orderItems turned as bs = .ok o := by
  induction h with
  | nil | shorter | longer => rfl
  | @cons _ _ _ _ o _ here _ ih =>
    rw [orderItems, here.same, here.order, ih]
    cases o <;> rfl

theorem StandItems.sameItems_eq (h : StandItems as bs o) : sameItems as bs = o.isEq := by
  induction h with
  | nil | shorter | longer => rfl
  | @cons _ _ _ _ o _ here _ ih =>
    rw [sameItems, here.same, ih]
    cases o <;> rfl

namespace Stands

theorem unique (h : Stands a b o) (h' : Stands a b p) : o = p :=
  Except.ok.inj ((h.order false).symm.trans (h'.order false))

theorem of_numbers {m n : Int} (ha : a.number? = some m) (hb : b.number? = some n) :
    Stands a b (compare m n) where
  order turned := by rw [orderFrom_of_number ha, hb]
  same := by
    rw [same_of_number ha, hb, Bool.eq_iff_iff, beq_iff_eq, Option.some_inj, Ordering.isEq_iff_eq_eq,
      compare_eq_iff_eq, eq_comm]

theorem of_texts (s t : String) : Stands (text s : Datum P) (text t) (compare s t) where
  order turned := by rw [orderFrom]
  same := by
    rw [Datum.same, Bool.eq_iff_iff, beq_iff_eq, Ordering.isEq_iff_eq_eq, Std.LawfulEqOrd.compare_eq_iff_eq]

theorem of_fields (ha : a.fields? = some as) (hb : b.fields? = some bs) (h : StandItems as bs o) :
    Stands a b o where
  order turned := by rw [orderFrom_of_fields ha hb, h.orderItems_eq]
  same := by rw [same_of_fields ha, hb, ← h.sameItems_eq]

theorem of_lists (h : StandItems as bs o) : Stands (list as) (list bs) o where
  order turned := by rw [orderFrom, h.orderItems_eq]
  same := by rw [Datum.same, h.sameItems_eq]

end Stands

/-! ## Comparable data stand to each other in one way -/

/-- If the items at every place that both have stand to each other, in both directions, so do the lists. -/
theorem exists_standItems
    (h : ∀ r ∈ as.zip bs, ∃ o, Stands r.1 r.2 o ∧ Stands r.2 r.1 o.swap) :
    ∃ o, StandItems as bs o ∧ StandItems bs as o.swap := by
  induction as generalizing bs with
  | nil =>
    cases bs with
    | nil => exact ⟨.eq, .nil, .nil⟩
    | cons b bs => exact ⟨.lt, .shorter b bs, .longer b bs⟩
  | cons a as ih =>
    cases bs with
    | nil => exact ⟨.gt, .longer a as, .shorter a as⟩
    | cons b bs =>
      rw [List.zip_cons_cons, List.forall_mem_cons] at h
      obtain ⟨o, here, back⟩ := h.1
      obtain ⟨p, behind, behindBack⟩ := ih h.2
      refine ⟨o.then p, .cons here behind, ?_⟩
      rw [Ordering.swap_then]
      exact .cons back behindBack

namespace Comparable

/-- **The order of comparable data is never refused**, it turns around with them, and it says that they are
equal just if they agree. -/
theorem exists_stands (h : Comparable a b) : ∃ o, Stands a b o ∧ Stands b a o.swap := by
  induction h with
  | @numbers a b m n ha hb =>
    refine ⟨compare m n, .of_numbers ha hb, ?_⟩
    rw [← Std.OrientedCmp.eq_swap]
    exact .of_numbers hb ha
  | texts s t =>
    refine ⟨compare s t, .of_texts s t, ?_⟩
    rw [← Std.OrientedCmp.eq_swap]
    exact .of_texts t s
  | tuples ha hb _ ih =>
    obtain ⟨o, there, back⟩ := exists_standItems ih
    exact ⟨o, .of_fields ha hb there, .of_fields hb ha back⟩
  | lists _ ih =>
    obtain ⟨o, there, back⟩ := exists_standItems ih
    exact ⟨o, .of_lists there, .of_lists back⟩

theorem standItems_of_fields (items : ∀ r ∈ as.zip bs, Comparable r.1 r.2) (ha : a.fields? = some as)
    (hb : b.fields? = some bs) (h : Stands a b o) : StandItems as bs o := by
  obtain ⟨p, hp, -⟩ := exists_standItems fun r hr => (items r hr).exists_stands
  obtain rfl := h.unique (.of_fields ha hb hp)
  exact hp

theorem standItems_of_lists (items : ∀ r ∈ as.zip bs, Comparable r.1 r.2)
    (h : Stands (list as) (list bs) o) : StandItems as bs o := by
  obtain ⟨p, hp, -⟩ := exists_standItems fun r hr => (items r hr).exists_stands
  obtain rfl := h.unique (.of_lists hp)
  exact hp

end Comparable

/-! ## Transitivity -/

/-- From `a` by way of `b` the answers compose, wherever one goes from there. -/
def ComposesBy (a b : Datum P) : Prop :=
  ∀ ⦃c : Datum P⦄ ⦃o p q : Ordering⦄, Comparable b c → Comparable a c →
    Stands a b o → Stands b c p → Stands a c q → Composes o p q

theorem composes_items (items : ∀ r ∈ as.zip bs, ComposesBy r.1 r.2)
    (hbc : ∀ r ∈ bs.zip cs, Comparable r.1 r.2) (hac : ∀ r ∈ as.zip cs, Comparable r.1 r.2)
    (h : StandItems as bs o) (h' : StandItems bs cs p) (h'' : StandItems as cs q) : Composes o p q := by
  induction h generalizing cs p q with
  -- as long as one of the three lists has ended, it is lengths that are compared
  | nil => cases h' <;> cases h'' <;> decide
  | shorter =>
    cases h' with
    | longer =>
      cases h''
      decide
    | cons =>
      cases h''
      exact .of_below _
  | longer =>
    cases h' with
    | nil =>
      cases h''
      decide
    | shorter => exact .of_above_below _
  | cons here behind ih =>
    rw [List.zip_cons_cons, List.forall_mem_cons] at items
    cases h' with
    | longer =>
      cases h''
      exact .of_above _
    | cons here' behind' =>
      cases h'' with
      | cons here'' behind'' =>
      rw [List.zip_cons_cons, List.forall_mem_cons] at hbc hac
      exact (items.1 hbc.1 hac.1 here here' here'').lex (ih items.2 hbc.2 hac.2 behind' behind'')

namespace Comparable

theorem composesBy (h : Comparable a b) : ComposesBy a b := by
  induction h with
  | numbers ha hb =>
    intro c o p q hbc hac h h' h''
    obtain ⟨_, hc⟩ := hbc.exists_number hb
    obtain rfl := h.unique (.of_numbers ha hb)
    obtain rfl := h'.unique (.of_numbers hb hc)
    obtain rfl := h''.unique (.of_numbers ha hc)
    exact .of_compare _ _ _
  | texts s t =>
    intro c o p q hbc hac h h' h''
    obtain ⟨_, rfl⟩ := hbc.exists_text
    obtain rfl := h.unique (.of_texts _ _)
    obtain rfl := h'.unique (.of_texts _ _)
    obtain rfl := h''.unique (.of_texts _ _)
    exact .of_compare _ _ _
  | tuples ha hb items ih =>
    intro c o p q hbc hac h h' h''
    obtain ⟨cs, hc, hbc⟩ := hbc.exists_fields hb
    obtain ⟨cs', hc', hac⟩ := hac.exists_fields ha
    obtain rfl := Option.some.inj (hc.symm.trans hc')
    exact composes_items ih hbc hac (standItems_of_fields items ha hb h) (standItems_of_fields hbc hb hc h')
      (standItems_of_fields hac ha hc h'')
  | lists items ih =>
    intro c o p q hbc hac h h' h''
    obtain ⟨cs, rfl, behind⟩ := hbc.exists_list
    obtain ⟨_, same, whole⟩ := hac.exists_list
    obtain rfl := list.inj same
    exact composes_items ih behind whole (standItems_of_lists items h) (standItems_of_lists behind h')
      (standItems_of_lists whole h'')

theorem stands_of_order (h : Comparable a b) (ho : order a b = .ok o) : Stands a b o := by
  obtain ⟨p, hp, -⟩ := h.exists_stands
  obtain rfl := Except.ok.inj ((hp.order false).symm.trans ho)
  exact hp

/-- Data that are equal agree. -/
theorem same_of_order_eq (h : Comparable a b) (heq : order a b = .ok .eq) : Datum.same a b = true :=
  (h.stands_of_order heq).same

end Comparable

/-- **Among data that can be compared the order is a total preorder.** -/
theorem preordered_comparable : Term.Preordered (Comparable (P := P)) where
  symm _ _ h := h.symm
  total _ _ h := by
    obtain ⟨o, there, back⟩ := h.exists_stands
    exact ⟨o, there.order false, back.order false⟩
  composes _ _ _ _ _ _ hab hbc hac ho hp hq :=
    hab.composesBy hbc hac (hab.stands_of_order ho) (hbc.stands_of_order hp) (hac.stands_of_order hq)

end Script.Datum

end SymbolicPaths
