import SymbolicPaths.Proofs.Wrapping
/-!
# Arguments in portions

An arrow can be given its arguments a portion at a time.  Each portion puts a function around the arrow
that merges what it has with what comes later, and a delay around its computation; what the innermost
function is invoked with has passed through all of them, merged from the last portion inwards.

* Merging is associative for arguments with every keyword once (`Args.merge_assoc`), so the portions may
  as well be joined from the first on (`Args.joined`).  Positions stand one after the other, and a keyword
  has the value of the last portion that gives it one.
* Each delay is around a known computation, and is one more look at the settings after a success
  (`Comp.defer_apply_of_known`).  By induction over the portions the whole tower comes to the arrow called
  once with everything, and then as many looks as there are portions (`Arrow.applied_partials`).
-/

namespace SymbolicPaths

variable {V α : Type}

namespace Args

/-! ## Keywords -/

/-- What a list of keywords is after others have been set, one after the other. -/
def overridden (named more : List (String × V)) : List (String × V) :=
  more.foldl (fun named e => setNamed e.1 e.2 named) named

section Keywords

variable {named more : List (String × V)} {name other key : String} {v w : V} {e : String × V}

theorem lookup_cons (key : String) (e : String × V) (rest : List (String × V)) :
    (e :: rest).lookup key = if key = e.1 then some e.2 else rest.lookup key := by
  by_cases here : key = e.1
  · subst here
    rw [List.lookup_cons_self, if_pos rfl]
  · rw [List.lookup_cons, beq_false_of_ne here, if_neg here]

theorem mem_keys_setNamed :
    key ∈ (setNamed name v named).map Prod.fst ↔ key = name ∨ key ∈ named.map Prod.fst := by
  induction named with
  | nil => simp [setNamed]
  | cons e rest ih =>
    rw [setNamed]
    split <;> rename_i same
    · simp [← same]
    · simp only [List.map_cons, List.mem_cons, ih]
      exact or_left_comm

theorem nodup_setNamed (h : (named.map Prod.fst).Nodup) :
    ((setNamed name v named).map Prod.fst).Nodup := by
  induction named with
  | nil => simp [setNamed]
  | cons e rest ih =>
    obtain ⟨fresh, apart⟩ := List.nodup_cons.1 h
    rw [setNamed]
    split <;> rename_i different
    · exact h
    · refine List.nodup_cons.2 ⟨fun among => ?_, ih apart⟩
      exact (mem_keys_setNamed.1 among).elim different fresh

theorem lookup_setNamed (name key : String) (v : V) (named : List (String × V)) :
    (setNamed name v named).lookup key = if key = name then some v else named.lookup key := by
  induction named with
  | nil => rw [setNamed, lookup_cons]
  | cons e rest ih =>
    rw [setNamed]
    split <;> rename_i same
    · rw [lookup_cons, lookup_cons, same]
      split <;> rfl
    · rw [lookup_cons, lookup_cons, ih]
      by_cases here : key = e.1 <;> simp [here, same]

/-- A new keyword is the last. -/
theorem setNamed_of_absent (h : name ∉ named.map Prod.fst) :
    setNamed name v named = named ++ [(name, v)] := by
  induction named with
  | nil => rfl
  | cons e rest ih =>
    obtain ⟨different, absent⟩ := not_or.1 (mt List.mem_cons.2 h)
    rw [setNamed, if_neg (Ne.symm different), ih absent]
    rfl

/-- A keyword that is set twice is set as the second time. -/
theorem setNamed_setNamed (name : String) (v w : V) (named : List (String × V)) :
    setNamed name w (setNamed name v named) = setNamed name w named := by
  induction named with
  | nil => simp [setNamed]
  | cons e rest ih =>
    by_cases here : e.1 = name
    · simp [setNamed, here]
    · simp [setNamed, here, ih]

/-- A keyword that is there keeps its place, so it does not matter whether another is set before it. -/
theorem setNamed_comm (h : other ≠ name) (there : name ∈ named.map Prod.fst) :
    setNamed name v (setNamed other w named) = setNamed other w (setNamed name v named) := by
  induction named with
  | nil => cases there
  | cons e rest ih =>
    by_cases here : e.1 = name
    · subst here
      simp [setNamed, Ne.symm h]
    · have later : name ∈ rest.map Prod.fst :=
        (List.mem_cons.1 there).resolve_left fun first => here first.symm
      by_cases place : e.1 = other
      · subst place
        simp [setNamed, here]
      · simp [setNamed, here, place, ih later]

theorem overridden_cons (named : List (String × V)) (e : String × V) (rest : List (String × V)) :
    overridden named (e :: rest) = overridden (setNamed e.1 e.2 named) rest := rfl

theorem mem_keys_overridden : key ∈ (overridden named more).map Prod.fst ↔
    key ∈ named.map Prod.fst ∨ key ∈ more.map Prod.fst := by
  induction more generalizing named with
  | nil => simp [overridden]
  | cons e rest ih =>
    rw [overridden_cons, ih, mem_keys_setNamed, List.map_cons, List.mem_cons, or_assoc, or_left_comm]

theorem nodup_overridden (h : (named.map Prod.fst).Nodup) :
    ((overridden named more).map Prod.fst).Nodup := by
  induction more generalizing named with
  | nil => exact h
  | cons e rest ih => exact ih (nodup_setNamed h)

/-- Of two values for a keyword the later counts. -/
theorem lookup_overridden (h : (more.map Prod.fst).Nodup) (key : String) :
    (overridden named more).lookup key = (more.lookup key).or (named.lookup key) := by
  induction more generalizing named with
  | nil => rfl
  | cons e rest ih =>
    obtain ⟨fresh, apart⟩ := List.nodup_cons.1 h
    rw [overridden_cons, ih apart, lookup_setNamed, lookup_cons]
    by_cases here : key = e.1
    · have gone : rest.lookup e.1 = none := List.lookup_eq_none_iff.2 fun p hp =>
        bne_iff_ne.2 fun same => fresh (same ▸ List.mem_map_of_mem hp)
      simp [here, gone]
    · simp [here]

/-- Keywords that are all new are joined as they are. -/
theorem overridden_of_nodup (h : ((named ++ more).map Prod.fst).Nodup) :
    overridden named more = named ++ more := by
  induction more generalizing named with
  | nil => exact (List.append_nil named).symm
  | cons e rest ih =>
    have onward : named ++ [e] ++ rest = named ++ e :: rest := List.append_assoc ..
    have new : e.1 ∉ named.map Prod.fst := fun among => by
      rw [List.map_append, List.nodup_append] at h
      exact h.2.2 _ among _ List.mem_cons_self rfl
    rw [overridden_cons, setNamed_of_absent new, ih (onward ▸ h), onward]

/-- A keyword that is there may be set before others or after them. -/
theorem setNamed_overridden (there : name ∈ named.map Prod.fst) (absent : name ∉ more.map Prod.fst) :
    setNamed name v (overridden named more) = overridden (setNamed name v named) more := by
  induction more generalizing named with
  | nil => rfl
  | cons e rest ih =>
    obtain ⟨different, absent⟩ := not_or.1 (mt List.mem_cons.2 absent)
    rw [overridden_cons, overridden_cons, ih (mem_keys_setNamed.2 (.inr there)) absent,
      setNamed_comm (Ne.symm different) there]

/-- To set a keyword after others is to set it among them: if it is one of them it has its place from the
first time on, and else it is the last. -/
theorem overridden_setNamed (h : (more.map Prod.fst).Nodup) :
    overridden named (setNamed name v more) = setNamed name v (overridden named more) := by
  induction more generalizing named with
  | nil => rfl
  | cons e rest ih =>
    obtain ⟨fresh, apart⟩ := List.nodup_cons.1 h
    by_cases here : e.1 = name
    · subst here
      have first : e.1 ∈ (setNamed e.1 e.2 named).map Prod.fst := mem_keys_setNamed.2 (.inl rfl)
      rw [overridden_cons, setNamed_overridden first fresh, setNamed_setNamed, setNamed, if_pos rfl,
        overridden_cons]
    · rw [setNamed, if_neg here, overridden_cons, overridden_cons]
      exact ih apart

/-- Keywords may be set one list after the other or joined beforehand. -/
theorem overridden_assoc (first : List (String × V)) (h : (named.map Prod.fst).Nodup) :
    overridden (overridden first named) more = overridden first (overridden named more) := by
  induction more generalizing named with
  | nil => rfl
  | cons e rest ih =>
    rw [overridden_cons, overridden_cons, ← ih (nodup_setNamed h), overridden_setNamed h]

end Keywords

/-! ## Portions -/

/-- Every keyword stands once. -/
def Distinct (args : Args V) : Prop := (args.named.map Prod.fst).Nodup

instance : DecidablePred (Distinct (V := V)) := fun _ => inferInstanceAs (Decidable (List.Nodup _))

/-- The arguments of several calls together, from the first on. -/
def joined (portions : List (Args V)) : Args V := portions.foldl merge {}

variable {a b g : Args V} {portions : List (Args V)}

theorem named_merge (a b : Args V) : (a.merge b).named = overridden a.named b.named := rfl

theorem Distinct.merge (h : a.Distinct) (b : Args V) : (a.merge b).Distinct := nodup_overridden h

theorem accepted_iff : a.Accepted ↔ "self" ∉ a.named.map Prod.fst := by
  rw [Accepted, List.any_eq_false, List.mem_map]
  simp only [beq_iff_eq, not_exists, not_and]

theorem Accepted.merge (ha : a.Accepted) (hb : b.Accepted) : (a.merge b).Accepted :=
  accepted_iff.2 fun among => (mem_keys_overridden.1 among).elim (accepted_iff.1 ha) (accepted_iff.1 hb)

/-- **Merging is associative.** -/
theorem merge_assoc (a : Args V) (h : b.Distinct) (g : Args V) :
    (a.merge b).merge g = a.merge (b.merge g) :=
  congrArg₂ Args.mk (List.append_assoc ..) (overridden_assoc a.named h)

theorem merge_empty (a : Args V) : a.merge {} = a :=
  congrArg₂ Args.mk (List.append_nil _) rfl

theorem empty_merge (h : a.Distinct) : ({} : Args V).merge a = a := by
  have keywords : overridden [] a.named = a.named := overridden_of_nodup h
  exact congrArg₂ Args.mk rfl keywords

theorem foldl_merge (h : ∀ g ∈ portions, g.Distinct) (a : Args V) :
    portions.foldl merge a = a.merge (joined portions) := by
  induction portions generalizing a with
  | nil => exact (merge_empty a).symm
  | cons g rest ih =>
    obtain ⟨hg, h⟩ := List.forall_mem_cons.1 h
    have folded : joined (g :: rest) = g.merge (joined rest) := by
      rw [joined, List.foldl_cons, ih h, empty_merge hg]
    rw [List.foldl_cons, ih h, merge_assoc a hg, folded]

/-- So the first portion may be merged with all the others joined. -/
theorem joined_cons (h : ∀ g ∈ a :: portions, g.Distinct) :
    joined (a :: portions) = a.merge (joined portions) := by
  obtain ⟨ha, h⟩ := List.forall_mem_cons.1 h
  rw [joined, List.foldl_cons, foldl_merge h, empty_merge ha]

theorem distinct_joined (h : ∀ g ∈ portions, g.Distinct) : (joined portions).Distinct := by
  cases portions with
  | nil => exact List.nodup_nil
  | cons g rest =>
    rw [joined_cons h]
    exact (h g List.mem_cons_self).merge _

theorem accepted_joined (h : ∀ g ∈ portions, g.Distinct) (accepted : ∀ g ∈ portions, g.Accepted) :
    (joined portions).Accepted := by
  induction portions with
  | nil => rfl
  | cons g rest ih =>
    rw [joined_cons h]
    obtain ⟨first, others⟩ := List.forall_mem_cons.1 accepted
    exact first.merge (ih (List.forall_mem_cons.1 h).2 others)

/-- **Arguments by position stand in the order of the portions.** -/
theorem positional_joined (h : ∀ g ∈ portions, g.Distinct) :
    (joined portions).positional = portions.flatMap (·.positional) := by
  induction portions with
  | nil => rfl
  | cons g rest ih =>
    rw [joined_cons h, positional_merge, ih (List.forall_mem_cons.1 h).2, List.flatMap_cons]

/-- **A keyword has the value of the last portion that has one for it.** -/
theorem lookup_joined (h : ∀ g ∈ portions, g.Distinct) (key : String) :
    (joined portions).named.lookup key = (portions.filterMap (·.named.lookup key)).getLast? := by
  induction portions with
  | nil => rfl
  | cons g rest ih =>
    have others := (List.forall_mem_cons.1 h).2
    rw [joined_cons h, named_merge, lookup_overridden (distinct_joined others), ih others,
      List.filterMap_cons]
    cases g.named.lookup key with
    | none => exact Option.or_none
    | some v => rw [List.getLast?_cons]; cases (rest.filterMap _).getLast? <;> rfl

end Args

/-! ## Looks at the settings -/

/-- The looks at the settings that delays with these names take at branches that come through. -/
def Run.settleAll [Term V] (names : List String) (branches : List (Branch V α)) :
    Run V (List (Branch V α)) :=
  names.foldlM (fun branches n => Run.settle n (some branches)) branches

section Settling

variable [Term V]

/-- Where runs are served the looks cannot be seen. -/
theorem Run.settleAll_alike (names : List String) (branches : List (Branch V α)) :
    (Run.settleAll names branches).Alike (pure branches) := by
  induction names generalizing branches with
  | nil => exact Run.steady_pure branches
  | cons n rest ih =>
    have looked := (Run.settle_alike n (some branches)).bind (f := Run.settleAll rest) fun found _ =>
      (ih found).steady_left
    exact looked.trans (ih branches)

/-- In the raw mode there are none. -/
theorem Run.settleAll_apply_of_raw {σ : Scope V} (hm : σ.mode = .raw) (names : List String)
    (branches : List (Branch V α)) (c : Context V) :
    Run.settleAll names branches σ c = (pure branches : Run V _) σ c := by
  induction names with
  | nil => rfl
  | cons n rest ih =>
    have looked := Run.settle_apply_of_raw hm n branches c
    exact (Run.bind_apply_congr_left (y := pure branches) looked (Run.settleAll rest)).trans ih

end Settling

namespace Arrow

variable [Term V] {k : Arrow V α} {portions : List (Args V)} {b : Args V} {s : Subject V}

/-- An arrow that is given portions of its arguments one after the other. -/
def partials (k : Arrow V α) (portions : List (Args V)) : Arrow V α := portions.foldl partialApply k

/-- The names of the arrows that this makes, from the first on. -/
def partialNames (k : Arrow V α) : List (Args V) → List String
  | [] => []
  | g :: rest => (k.partialApply g).name :: (k.partialApply g).partialNames rest

/-- A tower of delays is the delay of the arrow that is called with everything, looked at once more for
each portion. -/
theorem deferred_partials (k : Arrow V α) (portions : List (Args V)) {b : Args V}
    (accepted : ∀ g ∈ portions ++ [b], g.Accepted) (distinct : ∀ g ∈ portions ++ [b], g.Distinct)
    (s : Subject V) :
    ((k.partials portions).deferred b).apply s
      = (k.deferred (.joined (portions ++ [b]))).apply s >>= Run.settleAll (k.partialNames portions) := by
  induction portions generalizing k with
  | nil =>
    have whole : Args.joined [b] = b := Args.empty_merge (distinct b List.mem_cons_self)
    rw [List.nil_append, whole]
    exact (bind_pure _).symm
  | cons g rest ih =>
    rw [List.cons_append] at accepted distinct ⊢
    have merged := Args.joined_cons distinct
    have invoked : (k.partialApply g).invoke (.joined (rest ++ [b]))
        = pure (k.deferred (g.merge (.joined (rest ++ [b])))) :=
      call_of_accepted (merged ▸ Args.accepted_joined distinct accepted) k
    have layer := Comp.defer_apply_of_known invoked (k.partialApply g).name s
    have inner := ih (k.partialApply g) (List.forall_mem_cons.1 accepted).2
      (List.forall_mem_cons.1 distinct).2
    calc ((k.partials (g :: rest)).deferred b).apply s
        = ((k.partialApply g).deferred (.joined (rest ++ [b]))).apply s
            >>= Run.settleAll ((k.partialApply g).partialNames rest) := inner
      _ = ((k.deferred (g.merge (.joined (rest ++ [b])))).apply s
            >>= fun branches => Run.settle (k.partialApply g).name (some branches))
            >>= Run.settleAll ((k.partialApply g).partialNames rest) := by rw [deferred, layer]
      _ = _ := by
        rw [bind_assoc, merged]
        rfl

/-- Run raw, nothing is left of the tower. -/
theorem runRaw_deferred_partials (k : Arrow V α) (portions : List (Args V)) {b : Args V}
    (accepted : ∀ g ∈ portions ++ [b], g.Accepted) (distinct : ∀ g ∈ portions ++ [b], g.Distinct)
    (s : Subject V) :
    ((k.partials portions).deferred b).runRaw s
      = (k.deferred (.joined (portions ++ [b]))).runRaw s := by
  funext σ c
  rw [Comp.runRaw_apply, Comp.runRaw_apply, deferred_partials k portions accepted distinct]
  refine (Run.bind_apply_congr (g := pure) fun branches _ => ?_).trans (by rw [bind_pure])
  exact Run.settleAll_apply_of_raw rfl _ branches _

/-- **Portions come to one call with all the arguments.**  Let an arrow be given any portions of its
arguments and then be called, every keyword standing once in each portion and none taking the place of the
arrow.

* All the arguments together are those by position in the order of the portions, and by keyword those of
  the last portion that has the keyword.
* Run raw, the function inside is invoked with them, and this is all that is done.
* Applied, the arrow of all the portions is the arrow itself called with everything at once, looked at
  once more for each portion.
* So the two cannot be told apart if runs are served where the single call leaves off.
* After the call, what the arrow was before any of the portions, and with any number of them, is still
  what it was. -/
theorem applied_partials (k : Arrow V α) (portions : List (Args V)) (b : Args V)
    (accepted : ∀ g ∈ portions ++ [b], g.Accepted) (distinct : ∀ g ∈ portions ++ [b], g.Distinct)
    (s : Subject V) (σ : Scope V) (c : Context V) :
    ((Args.joined (portions ++ [b])).positional = (portions ++ [b]).flatMap (·.positional) ∧
      (Args.joined (portions ++ [b])).Distinct ∧
      ∀ key, (Args.joined (portions ++ [b])).named.lookup key
        = ((portions ++ [b]).filterMap (·.named.lookup key)).getLast?) ∧
    (do (← (k.partials portions).call b).runRaw s : Run V _)
      = Run.inMode .raw (do (← k.invoke (.joined (portions ++ [b]))).apply s) ∧
    (k.partials portions).applied b s
      = k.applied (.joined (portions ++ [b])) s >>= Run.settleAll (k.partialNames portions) ∧
    (σ.Serves (k.applied (.joined (portions ++ [b])) s σ c).context →
      Outcome.Alike σ ((k.partials portions).applied b s σ c)
        (k.applied (.joined (portions ++ [b])) s σ c)) ∧
    ∀ i b' s', (do
        let _ ← (k.partials portions).call b
        (k.partials (portions.take i)).applied b' s' : Run V _)
      = (k.partials (portions.take i)).applied b' s' := by
  have last : b.Accepted := accepted b (List.mem_append_right _ List.mem_cons_self)
  have whole : (Args.joined (portions ++ [b])).Accepted := Args.accepted_joined distinct accepted
  have once : (k.partials portions).applied b s
      = k.applied (.joined (portions ++ [b])) s >>= Run.settleAll (k.partialNames portions) := by
    rw [applied_of_accepted last, applied_of_accepted whole]
    exact deferred_partials k portions accepted distinct s
  refine ⟨⟨Args.positional_joined distinct, Args.distinct_joined distinct, Args.lookup_joined distinct⟩,
    ?_, once, fun served => ?_, fun i b' s' => ?_⟩
  · rw [call_of_accepted last, pure_bind, runRaw_deferred_partials k portions accepted distinct]
    rfl
  · rw [once]
    have settled := (Outcome.Alike.refl_of_serves served).bind (g := pure) fun branches _ =>
      Run.settleAll_alike (k.partialNames portions) branches
    rwa [bind_pure] at settled
  · rw [call_of_accepted last, pure_bind]

section Instances

open Script

/-- An arrow that gives back its arguments, first those by position and then those by keyword, and that
fails if there are none. -/
def echo : Arrow (Datum Empty) (Datum Empty) := ofFunction ⟨some "echo", none⟩ fun args =>
  if args.positional.isEmpty && args.named.isEmpty then Run.stop (.failure (.abandoned [.int 0]))
  else pure (Comp.pure (.list (args.positional ++ args.named.map fun e => .tuple [.text e.1, e.2])))

/-- Two portions, with a keyword in both. -/
def twoPortions : List (Args (Datum Empty)) :=
  [⟨[.int 1], [("a", .int 1), ("b", .int 1)]⟩, ⟨[.int 2], [("b", .int 2)]⟩]

/-- Two portions and a call: the positions stand one after the other, and a keyword that is given again
keeps its place and has its last value.  The arrow with the first portion alone is afterwards what it was
before. -/
theorem applied_partials_echo :
    ((echo.partials twoPortions).applied ⟨[.int 3], [("c", .int 3), ("a", .int 3)]⟩ (.state .empty)
        (.of .guarded) {}).answer
      = .ok [⟨.state .empty, .list [.int 1, .int 2, .int 3, .tuple [.text "a", .int 3],
          .tuple [.text "b", .int 2], .tuple [.text "c", .int 3]]⟩] ∧
    ((do
        let _ ← (echo.partials twoPortions).call ⟨[.int 3], [("c", .int 3), ("a", .int 3)]⟩
        (echo.partials (twoPortions.take 1)).applied {} (.state .empty) : Run (Datum Empty) _)
        (.of .guarded) {}).answer
      = .ok [⟨.state .empty, .list [.int 1, .tuple [.text "a", .int 1], .tuple [.text "b", .int 1]]⟩] := by
  obtain ⟨-, -, -, alike, unaffected⟩ := applied_partials echo twoPortions
    ⟨[.int 3], [("c", .int 3), ("a", .int 3)]⟩ (by decide +kernel) (by decide +kernel) (.state .empty)
    (.of .guarded) {}
  refine ⟨(alike (.of_loadable .guarded ⟨.loaded {}, false, rfl, rfl⟩)).answer.trans rfl, ?_⟩
  rw [unaffected 1]
  rfl

/-- **What is assumed is needed.**  Where no settings can be read a call that fails has no branches, and
after a portion without any arguments it ends in a defect: around the failure that is a success which looks
for settings.  And the function inside accepts a keyword that takes the place of the arrow, but is not
invoked with it: the call that the portion makes is refused. -/
theorem applied_partials_need_settings_and_keywords :
    ¬ ((echo.partials [{}]).applied {} (.state .empty) (.of .guarded) .misconfigured).SameRun
        (echo.applied (.joined [{}, {}]) (.state .empty) (.of .guarded) .misconfigured) ∧
    ((do (← echo.invoke (.joined [{ named := [("self", .int 1)] }, {}])).apply (.state .empty) :
        Run (Datum Empty) _) (.of .guarded) {}).answer
      = .ok [⟨.state .empty, .list [.tuple [.text "self", .int 1]]⟩] ∧
    ((echo.partials [{ named := [("self", .int 1)] }]).applied {} (.state .empty) (.of .guarded) {}).answer
      = .error (.defect .arrowGivenTwice) := by
  refine ⟨fun h => ?_, rfl, rfl⟩
  have refused : (echo.applied (.joined [{}, {}]) (.state .empty) (.of .guarded) .misconfigured).answer
      = .ok [] := rfl
  have looked : ((echo.partials [{}]).applied {} (.state .empty) (.of .guarded) .misconfigured).answer
      = .error (.defect (.settings (.malformedCap "abc"))) := rfl
  exact absurd (looked.symm.trans (h.1.trans refused)) (by simp)

end Instances

end Arrow

end SymbolicPaths
