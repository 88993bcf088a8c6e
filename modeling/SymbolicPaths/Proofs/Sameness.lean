import SymbolicPaths.Script.Datum.Term
/-!
# Data that agree

Data agree if they hold the same, and to agree is more than to be written in the same way: a truth value
agrees with a number, a branch with the tuple of its parts, a table with a frozen one.  So that it is
transitive has to be shown.  It is what lets a location be recognised across several steps that each
recognise it.

The proof goes by what a datum is compared by: the number that it stands for, its fields, or its entries.
All kinds that are compared in the same way share one lemma, and the recursion over data at the end has a
case for each of the other kinds.
-/

namespace SymbolicPaths

/-- Whatever agrees with something that a term agrees with, the term agrees with. -/
def Term.Transitive (V : Type) [Term V] : Prop :=
  ∀ ⦃a b c : V⦄, Term.same a b = true → Term.same b c = true → Term.same a c = true

namespace Script.Datum

variable {P : Type}

/-- Whatever agrees with something that `a` agrees with, `a` agrees with. -/
def Passes (a : Datum P) : Prop := ∀ ⦃b c : Datum P⦄, same a b = true → same b c = true → same a c = true

/-! ## What data are compared by -/

theorem same_of_number {a : Datum P} {n : Int} (h : a.number? = some n) (b : Datum P) :
    same a b = (b.number? == some n) := by
  cases a with
  | bool | int =>
    obtain rfl := Option.some.inj h
    cases b <;> rfl
  | _ => cases h

theorem sameItems_pair (x y : Datum P) (bs : List (Datum P)) : sameItems [x, y] bs = match bs with
    | [x', y'] => same x x' && same y y'
    | _ => false := by
  match bs with
  | [] => rfl
  | [_] => simp [sameItems]
  | [_, _] => simp [sameItems]
  | _ :: _ :: _ :: _ => simp [sameItems]

theorem same_of_fields {a : Datum P} {as : List (Datum P)} (h : a.fields? = some as) (b : Datum P) :
    same a b = match b.fields? with
      | some bs => sameItems as bs
      | none => false := by
  cases a with
  | tuple =>
    obtain rfl := Option.some.inj h
    cases b <;> rfl
  | branch x y | delimited x y =>
    obtain rfl := Option.some.inj h
    have pair : ∀ bs, sameItems [x, y] bs = _ := sameItems_pair x y
    cases b with
    | tuple items =>
      simp only [same, fields?, pair]
      -- only a tuple with two items is compared item by item
      rcases items with _ | ⟨_, _ | ⟨_, _ | _⟩⟩ <;> rfl
    | _ => simp only [same, fields?, pair]
  | _ => cases h

theorem same_of_entries {a : Datum P} {es : List (Datum P × Datum P)} (h : a.entries? = some es)
    (b : Datum P) : same a b = match b.entries? with
      | some fs => es.length == fs.length && entriesWithin es fs
      | none => false := by
  cases a with
  | dict | frozenDict =>
    obtain rfl := Option.some.inj h
    cases b <;> rfl
  | _ => cases h

/-! ## Items and entries -/

theorem sameItems_trans {as bs cs : List (Datum P)} (ih : ∀ a ∈ as, a.Passes)
    (h : sameItems as bs = true) (h' : sameItems bs cs = true) : sameItems as cs = true := by
  induction as generalizing bs cs with
  | nil =>
    cases bs with
    | nil => exact h'
    | cons => cases h
  | cons a as step =>
    cases bs with
    | nil => cases h
    | cons b bs =>
      cases cs with
      | nil => cases h'
      | cons c cs =>
        obtain ⟨here, others⟩ := List.forall_mem_cons.1 ih
        rw [sameItems, Bool.and_eq_true] at h h' ⊢
        exact ⟨here h.1 h'.1, step others h.2 h'.2⟩

theorem entriesWithin_iff {es fs : List (Datum P × Datum P)} : entriesWithin es fs = true ↔
    ∀ e ∈ es, ∃ f ∈ fs, same e.1 f.1 = true ∧ same e.2 f.2 = true := by
  induction es with
  | nil => exact ⟨fun _ _ he => (nomatch he), fun _ => rfl⟩
  | cons e rest ih =>
    simp only [entriesWithin, Bool.and_eq_true, List.any_eq_true, List.forall_mem_cons, ih]

theorem entriesWithin_trans {es fs gs : List (Datum P × Datum P)}
    (ih : ∀ e ∈ es, e.1.Passes ∧ e.2.Passes) (h : entriesWithin es fs = true)
    (h' : entriesWithin fs gs = true) : entriesWithin es gs = true := by
  refine entriesWithin_iff.2 fun e he => ?_
  obtain ⟨f, hf, hk, hv⟩ := entriesWithin_iff.1 h e he
  obtain ⟨g, hg, hk', hv'⟩ := entriesWithin_iff.1 h' f hf
  exact ⟨g, hg, (ih e he).1 hk hk', (ih e he).2 hv hv'⟩

/-! ## Transitivity -/

theorem passes_of_number {a : Datum P} {n : Int} (ha : a.number? = some n) : a.Passes := by
  intro b c h h'
  rw [same_of_number ha] at h ⊢
  rw [same_of_number (beq_iff_eq.1 h)] at h'
  exact h'

theorem passes_of_fields {a : Datum P} {as : List (Datum P)} (ha : a.fields? = some as)
    (ih : ∀ x ∈ as, x.Passes) : a.Passes := by
  intro b c h h'
  rw [same_of_fields ha] at h ⊢
  cases hb : b.fields? with
  | none =>
    rw [hb] at h
    cases h
  | some bs =>
    rw [hb] at h
    rw [same_of_fields hb] at h'
    cases hc : c.fields? with
    | none =>
      rw [hc] at h'
      cases h'
    | some cs =>
      rw [hc] at h'
      exact sameItems_trans ih h h'

theorem passes_of_entries {a : Datum P} {es : List (Datum P × Datum P)} (ha : a.entries? = some es)
    (ih : ∀ e ∈ es, e.1.Passes ∧ e.2.Passes) : a.Passes := by
  intro b c h h'
  rw [same_of_entries ha] at h ⊢
  cases hb : b.entries? with
  | none =>
    rw [hb] at h
    cases h
  | some fs =>
    rw [hb] at h
    rw [same_of_entries hb] at h'
    cases hc : c.entries? with
    | none =>
      rw [hc] at h'
      cases h'
    | some gs =>
      rw [hc] at h'
      rw [Bool.and_eq_true, beq_iff_eq] at h h' ⊢
      exact ⟨h.1.trans h'.1, entriesWithin_trans ih h.2 h'.2⟩

mutual

/-- **To agree is transitive.** -/
theorem passes (a : Datum P) : a.Passes := by
  cases a with
  | bool | int => exact passes_of_number rfl
  | tuple items => exact passes_of_fields rfl (passes_items items)
  | branch x y | delimited x y =>
    exact passes_of_fields rfl (List.forall_mem_cons.2 ⟨passes x, List.forall_mem_singleton.2 (passes y)⟩)
  | dict entries | frozenDict entries => exact passes_of_entries rfl (passes_entries entries)
  -- data of the other kinds agree with data of their own kind only
  | null =>
    intro b c h h'
    cases b <;> try cases h
    exact h'
  | text s =>
    intro b c h h'
    cases b <;> try cases h
    obtain rfl := beq_iff_eq.1 h
    exact h'
  | list items =>
    intro b c h h'
    cases b <;> try cases h
    cases c <;> try cases h'
    exact sameItems_trans (passes_items items) h h'
  | location x y | chunk x y | settings x y | dropped x y =>
    intro b c h h'
    cases b <;> try cases h
    cases c <;> try cases h'
    rw [same, Bool.and_eq_true] at h h' ⊢
    exact ⟨passes x h.1 h'.1, passes y h.2 h'.2⟩
  | state entries heap =>
    intro b c h h'
    cases b <;> try cases h
    cases c <;> try cases h'
    simp only [same, Bool.and_eq_true, beq_iff_eq] at h h' ⊢
    exact ⟨⟨h.1.1.trans h'.1.1, entriesWithin_trans (passes_entries entries) h.1.2 h'.1.2⟩,
      sameItems_trans (passes_items heap) h.2 h'.2⟩
  | exploration branches failures truncated =>
    intro b c h h'
    cases b <;> try cases h
    cases c <;> try cases h'
    simp only [same, Bool.and_eq_true, beq_iff_eq] at h h' ⊢
    exact ⟨⟨sameItems_trans (passes_items branches) h.1.1 h'.1.1,
      sameItems_trans (passes_items failures) h.1.2 h'.1.2⟩, h.2.trans h'.2⟩
  | error | object =>
    intro b c h h'
    cases b <;> try cases h
    cases c <;> try cases h'
    simp only [same, beq_iff_eq, decide_eq_true_eq] at h h' ⊢
    exact h.trans h'
  | wrapper header inner payload =>
    intro b c h h'
    cases b <;> try cases h
    cases c <;> try cases h'
    simp only [same, Bool.and_eq_true, beq_iff_eq] at h h' ⊢
    exact ⟨h.1.trans h'.1, passes inner h.2 h'.2⟩
  | method f r =>
    intro b c h h'
    cases b <;> try cases h
    cases c <;> try cases h'
    simp only [same, Bool.and_eq_true, beq_iff_eq] at h h' ⊢
    exact ⟨⟨h.1.1.trans h'.1.1, passes r h.1.2 h'.1.2⟩, passes f h.2 h'.2⟩
termination_by structural a

theorem passes_items (items : List (Datum P)) : ∀ a ∈ items, a.Passes := by
  cases items with
  | nil => exact fun _ h => nomatch h
  | cons a rest => exact List.forall_mem_cons.2 ⟨passes a, passes_items rest⟩
termination_by structural items

theorem passes_entries (entries : List (Datum P × Datum P)) :
    ∀ e ∈ entries, e.1.Passes ∧ e.2.Passes := by
  cases entries with
  | nil => exact fun _ h => nomatch h
  | cons e rest =>
    obtain ⟨k, v⟩ := e
    exact List.forall_mem_cons.2 ⟨⟨passes k, passes v⟩, passes_entries rest⟩
termination_by structural entries

end

theorem transitive : Term.Transitive (Datum P) := passes

end Script.Datum

end SymbolicPaths
