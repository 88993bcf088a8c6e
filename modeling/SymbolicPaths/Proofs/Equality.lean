import SymbolicPaths.Proofs.Locations
import SymbolicPaths.Proofs.Sameness
/-!
# To agree is an equivalence

Among data in whose tables no key stands twice (`Script.Datum.WellKeyed`), to agree is an equivalence.  The
condition says no more than what a table is: a key that has an entry already gets no second one.

That it is transitive is shown in `SymbolicPaths.Proofs.Sameness`, and that every datum agrees with itself
needs one look at each of its parts.  Symmetry is the one that needs the keys: a table agrees with another if
they have as many entries and every entry of the first is in the second.  This says nothing yet about the
entries of the second one, unless no two entries of the first are found at the same place
(`Script.Datum.entriesWithin_symm`).
-/

namespace SymbolicPaths.Script.Datum

variable {P : Type}

/-- No key stands twice in the entries of a table. -/
def DistinctKeys (entries : List (Datum P × Datum P)) : Prop :=
  entries.Pairwise fun e f => same e.1 f.1 = false

mutual

/-- In no table in a datum a key stands twice. -/
def WellKeyed : Datum P → Prop
  | tuple items | list items => WellKeyedItems items
  | dict entries | frozenDict entries => DistinctKeys entries ∧ WellKeyedEntries entries
  | location a b | chunk a b | branch a b | delimited a b | settings a b | dropped a b | method a b =>
    WellKeyed a ∧ WellKeyed b
  | state entries heap => (DistinctKeys entries ∧ WellKeyedEntries entries) ∧ WellKeyedItems heap
  | exploration branches failures _ => WellKeyedItems branches ∧ WellKeyedItems failures
  | wrapper _ inner _ => WellKeyed inner
  | _ => True
termination_by structural d => d

/-- Each item is well keyed. -/
def WellKeyedItems : List (Datum P) → Prop
  | [] => True
  | d :: rest => WellKeyed d ∧ WellKeyedItems rest
termination_by structural items => items

/-- Each key and each value is well keyed. -/
def WellKeyedEntries : List (Datum P × Datum P) → Prop
  | [] => True
  | (k, v) :: rest => (WellKeyed k ∧ WellKeyed v) ∧ WellKeyedEntries rest
termination_by structural entries => entries

end

theorem wellKeyedItems_iff {items : List (Datum P)} : WellKeyedItems items ↔ ∀ d ∈ items, d.WellKeyed := by
  induction items with
  | nil => exact ⟨fun _ => List.forall_mem_nil _, fun _ => trivial⟩
  | cons d rest ih => rw [WellKeyedItems, ih, List.forall_mem_cons]

theorem wellKeyedEntries_iff {entries : List (Datum P × Datum P)} :
    WellKeyedEntries entries ↔ ∀ e ∈ entries, e.1.WellKeyed ∧ e.2.WellKeyed := by
  induction entries with
  | nil => exact ⟨fun _ => List.forall_mem_nil _, fun _ => trivial⟩
  | cons e rest ih => rw [WellKeyedEntries, ih, List.forall_mem_cons]

/-- The fields of what is well keyed are. -/
theorem WellKeyed.of_fields {a : Datum P} {as : List (Datum P)} (ha : a.WellKeyed)
    (h : a.fields? = some as) : ∀ x ∈ as, x.WellKeyed := by
  cases a with
  | tuple items =>
    obtain rfl := Option.some.inj h
    exact wellKeyedItems_iff.1 ha
  | branch x y | delimited x y =>
    obtain rfl := Option.some.inj h
    exact List.forall_mem_cons.2 ⟨ha.1, List.forall_mem_singleton.2 ha.2⟩
  | _ => cases h

/-- And so are the keys and the values of its entries. -/
theorem WellKeyed.of_entries {a : Datum P} {es : List (Datum P × Datum P)} (ha : a.WellKeyed)
    (h : a.entries? = some es) : DistinctKeys es ∧ ∀ e ∈ es, e.1.WellKeyed ∧ e.2.WellKeyed := by
  cases a with
  | dict entries | frozenDict entries =>
    obtain rfl := Option.some.inj h
    exact ⟨ha.1, wellKeyedEntries_iff.1 ha.2⟩
  | _ => cases h

/-! ## Every datum agrees with itself -/

theorem sameItems_self {as : List (Datum P)} (ih : ∀ a ∈ as, same a a = true) : sameItems as as = true := by
  induction as with
  | nil => rfl
  | cons a as step =>
    obtain ⟨here, others⟩ := List.forall_mem_cons.1 ih
    rw [sameItems, here, step others]
    rfl

theorem entriesWithin_self {es : List (Datum P × Datum P)}
    (ih : ∀ e ∈ es, same e.1 e.1 = true ∧ same e.2 e.2 = true) : entriesWithin es es = true :=
  entriesWithin_iff.2 fun e he => ⟨e, he, ih e he⟩

mutual

/-- To agree is reflexive. -/
theorem same_self (a : Datum P) : same a a = true := by
  cases a with
  | null => rfl
  | bool | int => exact beq_self_eq_true _
  | text s => exact beq_self_eq_true s
  | tuple items | list items => exact sameItems_self (same_self_items items)
  | dict entries | frozenDict entries =>
    show (entries.length == entries.length && entriesWithin entries entries) = true
    rw [beq_self_eq_true, entriesWithin_self (same_self_entries entries)]
    rfl
  | location x y | chunk x y | branch x y | delimited x y | settings x y | dropped x y =>
    show (same x x && same y y) = true
    rw [same_self x, same_self y]
    rfl
  | state entries heap =>
    rw [same, beq_self_eq_true, entriesWithin_self (same_self_entries entries),
      sameItems_self (same_self_items heap)]
    rfl
  | exploration branches failures truncated =>
    rw [same, sameItems_self (same_self_items branches), sameItems_self (same_self_items failures),
      beq_self_eq_true]
    rfl
  | error tag => exact beq_self_eq_true tag.identity
  | object header => exact decide_eq_true rfl
  | wrapper header inner payload =>
    rw [same, beq_self_eq_true, same_self inner]
    rfl
  | method f r =>
    rw [same, beq_self_eq_true, same_self r, same_self f]
    rfl
termination_by structural a

theorem same_self_items (items : List (Datum P)) : ∀ a ∈ items, same a a = true := by
  cases items with
  | nil => exact fun _ h => nomatch h
  | cons a rest => exact List.forall_mem_cons.2 ⟨same_self a, same_self_items rest⟩
termination_by structural items

theorem same_self_entries (entries : List (Datum P × Datum P)) :
    ∀ e ∈ entries, same e.1 e.1 = true ∧ same e.2 e.2 = true := by
  cases entries with
  | nil => exact fun _ h => nomatch h
  | cons e rest =>
    obtain ⟨k, v⟩ := e
    exact List.forall_mem_cons.2 ⟨⟨same_self k, same_self v⟩, same_self_entries rest⟩
termination_by structural entries

end

/-! ## Symmetry -/

/-- Whatever `a` agrees with agrees with it. -/
def Mirrors (a : Datum P) : Prop := ∀ ⦃b : Datum P⦄, b.WellKeyed → same a b = true → same b a = true

theorem sameItems_symm {as bs : List (Datum P)} (ih : ∀ a ∈ as, a.Mirrors) (hbs : ∀ b ∈ bs, b.WellKeyed)
    (h : sameItems as bs = true) : sameItems bs as = true := by
  induction as generalizing bs with
  | nil =>
    cases bs with
    | nil => rfl
    | cons => cases h
  | cons a as step =>
    cases bs with
    | nil => cases h
    | cons b bs =>
      obtain ⟨here, others⟩ := List.forall_mem_cons.1 ih
      obtain ⟨hb, hbs⟩ := List.forall_mem_cons.1 hbs
      rw [sameItems, Bool.and_eq_true] at h ⊢
      exact ⟨here hb h.1, step others hbs h.2⟩

/-- **Of two tables with as many entries, each holds the entries of the other** if the keys of one are
distinct. -/
theorem entriesWithin_symm {es fs : List (Datum P × Datum P)} (distinct : DistinctKeys es)
    (length : es.length = fs.length) (ih : ∀ e ∈ es, e.1.Mirrors ∧ e.2.Mirrors)
    (hfs : ∀ f ∈ fs, f.1.WellKeyed ∧ f.2.WellKeyed) (h : entriesWithin es fs = true) :
    entriesWithin fs es = true := by
  induction es generalizing fs with
  | nil =>
    obtain rfl := List.length_eq_zero_iff.1 length.symm
    rfl
  | cons e es step =>
    obtain ⟨apart, distinct⟩ := List.pairwise_cons.1 distinct
    obtain ⟨⟨hk, hv⟩, others⟩ := List.forall_mem_cons.1 ih
    rw [entriesWithin_iff, List.forall_mem_cons] at h
    obtain ⟨⟨f, hf, hkey, hvalue⟩, found⟩ := h
    obtain ⟨front, back, rfl⟩ := List.append_of_mem hf
    -- no other entry is found where the first one is, so the others are in the rest of the second table
    have elsewhere : ∀ e' ∈ es, ∃ f' ∈ front ++ back, same e'.1 f'.1 = true ∧ same e'.2 f'.2 = true := by
      intro e' he'
      obtain ⟨f', hf', hkey', hvalue'⟩ := found e' he'
      rcases List.mem_append.1 hf' with hf' | hf'
      · exact ⟨f', List.mem_append_left back hf', hkey', hvalue'⟩
      rcases List.mem_cons.1 hf' with rfl | hf'
      · have both := passes e.1 hkey ((others e' he').1 (hfs f' hf).1 hkey')
        rw [apart e' he'] at both
        cases both
      · exact ⟨f', List.mem_append_right front hf', hkey', hvalue'⟩
    have shorter : es.length = (front ++ back).length := by
      simp only [List.length_cons, List.length_append] at length ⊢
      omega
    have hrest : ∀ f' ∈ front ++ back, f' ∈ front ++ f :: back := fun f' hf' =>
      (List.mem_append.1 hf').elim (List.mem_append_left _) fun hb =>
        List.mem_append_right front (List.mem_cons_of_mem f hb)
    have rest := step distinct shorter others (fun f' hf' => hfs f' (hrest f' hf'))
      (entriesWithin_iff.2 elsewhere)
    have back' : ∀ f' ∈ front ++ back, ∃ e' ∈ e :: es, same f'.1 e'.1 = true ∧ same f'.2 e'.2 = true :=
      fun f' hf' => by
        obtain ⟨e', he', hsame⟩ := entriesWithin_iff.1 rest f' hf'
        exact ⟨e', List.mem_cons_of_mem e he', hsame⟩
    obtain ⟨inFront, inBack⟩ := List.forall_mem_append.1 back'
    obtain ⟨hf1, hf2⟩ := hfs f hf
    exact entriesWithin_iff.2 (List.forall_mem_append.2 ⟨inFront, List.forall_mem_cons.2
      ⟨⟨e, List.mem_cons_self .., hk hf1 hkey, hv hf2 hvalue⟩, inBack⟩⟩)

theorem mirrors_of_number {a : Datum P} {n : Int} (ha : a.number? = some n) : a.Mirrors := by
  intro b _ h
  rw [same_of_number ha] at h
  rw [same_of_number (beq_iff_eq.1 h), ha]
  exact beq_self_eq_true _

theorem mirrors_of_fields {a : Datum P} {as : List (Datum P)} (ha : a.fields? = some as)
    (ih : ∀ x ∈ as, x.Mirrors) : a.Mirrors := by
  intro b hb h
  rw [same_of_fields ha] at h
  cases hbs : b.fields? with
  | none =>
    rw [hbs] at h
    cases h
  | some bs =>
    rw [hbs] at h
    rw [same_of_fields hbs, ha]
    exact sameItems_symm ih (hb.of_fields hbs) h

theorem mirrors_of_entries {a : Datum P} {es : List (Datum P × Datum P)} (ha : a.entries? = some es)
    (distinct : DistinctKeys es) (ih : ∀ e ∈ es, e.1.Mirrors ∧ e.2.Mirrors) : a.Mirrors := by
  intro b hb h
  rw [same_of_entries ha] at h
  cases hfs : b.entries? with
  | none =>
    rw [hfs] at h
    cases h
  | some fs =>
    rw [hfs, Bool.and_eq_true, beq_iff_eq] at h
    rw [same_of_entries hfs, ha, Bool.and_eq_true, beq_iff_eq]
    exact ⟨h.1.symm, entriesWithin_symm distinct h.1 ih (hb.of_entries hfs).2 h.2⟩

mutual

/-- **To agree is symmetric** where no key stands twice in a table. -/
theorem mirrors (a : Datum P) (ha : a.WellKeyed) : a.Mirrors := by
  cases a with
  | bool | int => exact mirrors_of_number rfl
  | tuple items => exact mirrors_of_fields rfl (mirrors_items items ha)
  | branch x y | delimited x y =>
    exact mirrors_of_fields rfl
      (List.forall_mem_cons.2 ⟨mirrors x ha.1, List.forall_mem_singleton.2 (mirrors y ha.2)⟩)
  | dict entries | frozenDict entries => exact mirrors_of_entries rfl ha.1 (mirrors_entries entries ha.2)
  -- data of the other kinds agree with data of their own kind only
  | null =>
    intro b _ h
    cases b <;> try cases h
    rfl
  | text s =>
    intro b _ h
    cases b <;> try cases h
    obtain rfl := beq_iff_eq.1 h
    exact h
  | list items =>
    intro b hb h
    cases b <;> try cases h
    exact sameItems_symm (mirrors_items items ha) (wellKeyedItems_iff.1 hb) h
  | location x y | chunk x y | settings x y | dropped x y =>
    intro b hb h
    cases b <;> try cases h
    rw [same, Bool.and_eq_true] at h ⊢
    exact ⟨mirrors x ha.1 hb.1 h.1, mirrors y ha.2 hb.2 h.2⟩
  | state entries heap =>
    intro b hb h
    cases b <;> try cases h
    simp only [same, Bool.and_eq_true, beq_iff_eq] at h ⊢
    exact ⟨⟨h.1.1.symm, entriesWithin_symm ha.1.1 h.1.1 (mirrors_entries entries ha.1.2)
      (wellKeyedEntries_iff.1 hb.1.2) h.1.2⟩,
      sameItems_symm (mirrors_items heap ha.2) (wellKeyedItems_iff.1 hb.2) h.2⟩
  | exploration branches failures truncated =>
    intro b hb h
    cases b <;> try cases h
    simp only [same, Bool.and_eq_true, beq_iff_eq] at h ⊢
    exact ⟨⟨sameItems_symm (mirrors_items branches ha.1) (wellKeyedItems_iff.1 hb.1) h.1.1,
      sameItems_symm (mirrors_items failures ha.2) (wellKeyedItems_iff.1 hb.2) h.1.2⟩, h.2.symm⟩
  | error | object =>
    intro b _ h
    cases b <;> try cases h
    simp only [same, beq_iff_eq, decide_eq_true_eq] at h ⊢
    exact h.symm
  | wrapper header inner payload =>
    intro b hb h
    cases b <;> try cases h
    simp only [same, Bool.and_eq_true, beq_iff_eq] at h ⊢
    exact ⟨h.1.symm, mirrors inner ha hb h.2⟩
  | method f r =>
    intro b hb h
    cases b <;> try cases h
    simp only [same, Bool.and_eq_true, beq_iff_eq] at h ⊢
    exact ⟨⟨h.1.1.symm, mirrors r ha.2 hb.2 h.1.2⟩, mirrors f ha.1 hb.1 h.2⟩
termination_by structural a

theorem mirrors_items (items : List (Datum P)) (h : WellKeyedItems items) : ∀ a ∈ items, a.Mirrors := by
  cases items with
  | nil => exact fun _ h => nomatch h
  | cons a rest => exact List.forall_mem_cons.2 ⟨mirrors a h.1, mirrors_items rest h.2⟩
termination_by structural items

theorem mirrors_entries (entries : List (Datum P × Datum P)) (h : WellKeyedEntries entries) :
    ∀ e ∈ entries, e.1.Mirrors ∧ e.2.Mirrors := by
  cases entries with
  | nil => exact fun _ h => nomatch h
  | cons e rest =>
    obtain ⟨k, v⟩ := e
    exact List.forall_mem_cons.2 ⟨⟨mirrors k h.1.1, mirrors v h.1.2⟩, mirrors_entries rest h.2⟩
termination_by structural entries

end

/-- **Among well keyed data, to agree is an equivalence.** -/
theorem equivalent_wellKeyed : Term.Equivalent (WellKeyed (P := P)) where
  refl a _ := same_self a
  symm a _ ha hb h := mirrors a ha hb h
  trans a _ _ _ _ _ h h' := passes a h h'

end SymbolicPaths.Script.Datum
