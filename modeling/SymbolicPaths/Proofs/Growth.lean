import SymbolicPaths.Proofs.Program
import SymbolicPaths.Proofs.Primitives
/-!
# Runs and trees

`Run.Grows c x tree` says that a guarded run `x` is accounted for by the leaves of a tree: when it
answers, the tree is finite and free of defects, the answer is what its leaves leave to go on from, in
order, and the dropped branches are its failures, in some order.  The lemmas say how trees are put together
as runs are: a sequence grows trees on the leaves of another one.

## What happens at a guard

A part that stands right under a guard may end in a failure, which is one more leaf: the one whose
state the guard reports.  `Run.Bears` says that a part is accounted for in this case too, and
`Run.Bears.caught` is the only place where a failure becomes a dropped branch.  All other runs that are
put together here do not fail while guarded, so a failure is reported once and by the innermost guard.

## Where settings cannot be read

Nothing is assumed about the settings.  Where they cannot be read every guarded success ends in a
defect, and there is no answer to account for; a run that answers without one left the context as it
was.
-/

namespace SymbolicPaths

variable {V α β γ ι : Type} [Term V]

namespace Run

/-! ## Runs that only look -/

/-- A plain run that leaves the context as it is. -/
structure Looks (x : Run V α) : Prop where
  plain : x.Plain
  still : ∀ σ c, (x σ c).context = c

namespace Looks

/-- Only to look is inherited by sequences. -/
theorem family : Family (V := V) Looks where
  pure a := ⟨.pure a, fun _ _ => rfl⟩
  stop e := ⟨.stop e, fun _ _ => rfl⟩
  log e := by
    refine ⟨.log e, fun σ c => ?_⟩
    rw [Run.log, emitIf]
    split <;> rfl
  bind h hf := by
    refine ⟨h.plain.bind fun a ha => (hf a ha).plain, fun σ c => ?_⟩
    cases hx : (_ : Outcome V _).answer with
    | ok a => rw [context_bind_of_ok hx, (hf a (answers_of_answer hx)).still, h.still]
    | error e => rw [context_bind_of_error hx, h.still]

/-- So does a body that only looks. -/
theorem asBody {x : Run V α} (h : x.Looks) : (Run.asBody x).Looks := ⟨h.plain.asBody, h.still⟩

/-- A run that only looks answers the same in contexts that cannot be told apart: either the settings
can be read, or the contexts are the same. -/
theorem answer_eq {x : Run V α} (h : x.Looks) {c d : Context V} (hcd : c.primed = d.primed) :
    (x (.of .guarded) c).answer = (x (.of .guarded) d).answer := by
  by_cases hc : c.Loadable
  · exact (h.plain.steady (.of_loadable .guarded hc) hcd).answer
  · rw [Context.eq_of_not_loadable hc hcd]

end Looks

/-! ## Being accounted for -/

/-- The branches `bs` and the dropped branches `ds` are those of a tree. -/
def Told (tree : Option (List (Leaf V β))) (bs : List β) (ds : List (Dropped V)) : Prop :=
  ∃ leaves, tree = some leaves ∧ bs = Leaf.endings leaves ∧ ds.Perm (Leaf.failures leaves)

/-- Wherever a guarded run answers in a context like `c`, a tree accounts for it, and the context is
like `c` afterwards. -/
def Grows (c : Context V) (x : Run V (List β)) (tree : Option (List (Leaf V β))) : Prop :=
  ∀ ⦃d⦄, d.primed = c.primed → ∀ ⦃bs⦄, (x (.of .guarded) d).answer = .ok bs →
    Told tree bs (x (.of .guarded) d).dropped ∧ (x (.of .guarded) d).context.primed = c.primed

/-- What stands under a guard that reports the subject `s` is accounted for, also where it fails. -/
structure Bears (c : Context V) (s : Subject V) (x : Run V (List β))
    (tree : Option (List (Leaf V β))) : Prop where
  grows : x.Grows c tree
  fails : ∀ ⦃d⦄, d.primed = c.primed → ∀ ⦃f⦄, (x (.of .guarded) d).answer = .error (.failure f) →
    tree = some [.failed ⟨s, f⟩] ∧ (x (.of .guarded) d).dropped = [] ∧
      (x (.of .guarded) d).context.primed = c.primed

variable {c : Context V} {s : Subject V}

namespace Bears

omit [Term V] in
theorem ofContained {x : Run V (List β)} {tree : Option (List (Leaf V β))} (h : x.Grows c tree)
    (hx : x.Contained) : x.Bears c s tree :=
  ⟨h, fun _ _ _ hf => absurd hf (hx rfl _ _)⟩

/-- What only looks is accounted for by what it says. -/
theorem ofLooks {x : Run V (List β)} (h : x.Looks) :
    x.Bears c s (Leaf.ofAnswer s (x (.of .guarded) c).answer) := by
  refine ⟨fun d hd bs hbs => ⟨⟨bs.map .ended, ?_, ?_, ?_⟩, ?_⟩, fun d hd f hf => ⟨?_, ?_, ?_⟩⟩
  · rw [← h.answer_eq hd, hbs]
    rfl
  · rw [Leaf.endings_map_ended]
  · rw [h.plain.quiet, Leaf.failures_map_ended]
  · rw [h.still, hd]
  · rw [← h.answer_eq hd, hf]
    rfl
  · rw [h.plain.quiet]
  · rw [h.still, hd]

omit [Term V] in
/-- **At a guard a failure becomes a dropped branch**, with the subject that the guard reports. -/
theorem caught {x : Run V (List β)} {tree : Option (List (Leaf V β))} (h : x.Bears c s tree)
    (n : String) : (Run.caught n s x).Grows c tree := by
  intro d hd bs hbs
  by_cases hfail : ∃ f, (x (.of .guarded) d).answer = .error (.failure f)
  · obtain ⟨f, hf⟩ := hfail
    obtain ⟨leaf, clean, context⟩ := h.fails hd hf
    have reported := caught_apply_of_failure rfl hf n s
    rw [bind_apply_of_ok (confine_apply_of_failure hf)] at reported
    rw [reported] at hbs ⊢
    obtain rfl : [] = bs := Except.ok.inj hbs
    refine ⟨⟨[.failed ⟨s, f⟩], leaf, rfl, ?_⟩, context⟩
    show ((x (.of .guarded) d).events ++ _).filterMap Event.pending? |>.Perm _
    rw [List.filterMap_append]
    show ((x (.of .guarded) d).dropped ++ [(⟨s, f⟩ : Dropped V)]).Perm _
    rw [clean]
    exact .refl _
  · have unfailing := caught_apply_of_unfailing (fun _ f hf => hfail ⟨f, hf⟩) n s
    rw [unfailing] at hbs ⊢
    exact h.grows hd hbs

end Bears

namespace Grows

protected theorem pure (bs : List β) : (pure bs : Run V (List β)).Grows c (some (bs.map .ended)) :=
  (Bears.ofLooks (s := .state .empty) (Looks.family.pure bs)).grows

omit [Term V] in
/-- **To go on from the branches of a run grows trees on its leaves.**  It is enough that what follows
is accounted for by the trees of these branches. -/
protected theorem bind {x : Run V (List β)} {f : List β → Run V (List γ)}
    {tree : Option (List (Leaf V β))} {next : β → Option (List (Leaf V γ))} (h : x.Grows c tree)
    (hf : ∀ bs, (f bs).Grows c (Leaf.grow next (bs.map .ended))) :
    (x >>= f).Grows c (do Leaf.grow next (← tree)) := by
  intro d hd bs hbs
  obtain ⟨first, hfirst, hrest⟩ := exists_of_answer_bind_ok hbs
  obtain ⟨⟨leaves, hleaves, rfl, dropped⟩, context⟩ := h hd hfirst
  obtain ⟨⟨grown, hgrown, rfl, dropped'⟩, context'⟩ := hf _ context hrest
  obtain ⟨all, hall, sameEndings, sameFailures⟩ := Leaf.grow_endings hgrown
  refine ⟨⟨all, ?_, sameEndings.symm, ?_⟩, ?_⟩
  · rw [hleaves]
    exact hall
  · rw [dropped_bind_of_ok hfirst]
    exact (dropped.append dropped').trans sameFailures.symm
  · rw [context_bind_of_ok hfirst, context']

/-- A look beforehand adds nothing. -/
theorem skip {x : Run V α} {y : Run V (List β)} {tree : Option (List (Leaf V β))} (hx : x.Looks)
    (hy : y.Grows c tree) : (x >>= fun _ => y).Grows c tree := by
  intro d hd bs hbs
  obtain ⟨a, ha, hbs⟩ := exists_of_answer_bind_ok hbs
  rw [hx.still] at hbs
  rw [dropped_bind_of_ok ha, context_bind_of_ok ha, hx.plain.quiet, hx.still]
  exact hy hd hbs

omit [Term V] in
/-- Branches that are read as something else. -/
theorem map {x : Run V (List β)} {tree : Option (List (Leaf V β))} (h : x.Grows c tree) (g : β → γ) :
    (do return (← x).map g : Run V (List γ)).Grows c (do return (← tree).map (.map g)) := by
  intro d hd bs hbs
  obtain ⟨first, hfirst, hrest⟩ := exists_of_answer_bind_ok hbs
  obtain ⟨⟨leaves, hleaves, rfl, dropped⟩, context⟩ := h hd hfirst
  obtain rfl : (Leaf.endings leaves).map g = bs := Except.ok.inj hrest
  refine ⟨⟨leaves.map (.map g), ?_, ?_, ?_⟩, ?_⟩
  · rw [hleaves]
    rfl
  · rw [Leaf.endings_map]
  · rw [dropped_bind_of_ok hfirst, Leaf.failures_map]
    show ((x (.of .guarded) d).dropped ++ []).Perm _
    rw [List.append_nil]
    exact dropped
  · rw [context_bind_of_ok hfirst]
    exact context

/-- Items that are gone on from one by one. -/
theorem flatMap {next : β → Option (List (Leaf V γ))} {k : β → Run V (List γ)}
    (hk : ∀ b, (k b).Grows c (next b)) (bs : List β) :
    (Run.flatMap bs k).Grows c (Leaf.grow next (bs.map .ended)) := by
  induction bs with
  | nil => exact Grows.pure []
  | cons b rest ih =>
    intro d hd all hall
    obtain ⟨here, hhere, hall⟩ := exists_of_answer_bind_ok hall
    obtain ⟨others, hothers, hall⟩ := exists_of_answer_bind_ok hall
    obtain rfl : here ++ others = all := Except.ok.inj hall
    obtain ⟨⟨first, hfirst, rfl, dropped⟩, context⟩ := hk b hd hhere
    obtain ⟨⟨later, hlater, rfl, dropped'⟩, context'⟩ := ih context hothers
    rw [flatMap_cons]
    refine ⟨⟨first ++ later, ?_, ?_, ?_⟩, ?_⟩
    · rw [List.map_cons, Leaf.grow_ended, hfirst, hlater]
      rfl
    · rw [Leaf.endings_append]
    · rw [dropped_bind_of_ok hhere, dropped_bind_of_ok hothers, Leaf.failures_append]
      refine dropped.append ?_
      show (_ ++ []).Perm _
      rw [List.append_nil]
      exact dropped'
    · rw [context_bind_of_ok hhere, context_bind_of_ok hothers]
      exact context'

end Grows

/-! ## Applications -/

omit [Term V] in
/-- Settings that were looked at are those that can be read. -/
theorem installed_of_settings {σ : Scope V} {d : Context V} {i : Installed V}
    (h : (settings σ d).answer = .ok i) : d.primed.settings = some i := by
  cases hd : d.settings with
  | some j =>
    rw [settings_apply_of_installed hd] at h
    rw [Context.primed_of_installed hd, hd]
    exact congrArg some (Except.ok.inj h)
  | none =>
    cases hs : Settings.ofEnvironment d.environment with
    | ok s =>
      have hp := Context.primed_of_readable hd hs
      have read : d.primed.settings = some (.loaded s) := by rw [hp]
      rw [settings_apply_of_primed read] at h
      rw [read]
      exact congrArg some (Except.ok.inj h)
    | error p =>
      rw [settings, context_bind, hd] at h
      obtain ⟨k, hk, h⟩ := exists_of_answer_bind_ok h
      obtain rfl : d = k := Except.ok.inj hk
      obtain ⟨s, hs', -⟩ := exists_of_answer_bind_ok h
      rw [load, hs] at hs'
      cases hs'

/-- Whoever was told whether steps are logged had settings to read. -/
theorem loadable_of_debugging {σ : Scope V} {d : Context V} {on : Bool}
    (h : (debugging σ d).answer = .ok on) : d.Loadable := by
  obtain ⟨i, hi, h⟩ := exists_of_answer_bind_ok h
  refine ⟨i, on, installed_of_settings hi, ?_⟩
  cases hon : i.debug? with
  | ok b =>
    rw [hon] at h
    exact congrArg Except.ok (Except.ok.inj h)
  | error kind =>
    rw [hon] at h
    cases h

/-- An application that answers does so with the branches that its guard let through, and drops
nothing more. -/
theorem settle_told {n : String} {r : Option (List (Branch V α))} {d : Context V}
    {bs : List (Branch V α)} (h : (settle n r (.of .guarded) d).answer = .ok bs) :
    bs = r.getD [] ∧ (settle n r (.of .guarded) d).dropped = [] ∧
      (settle n r (.of .guarded) d).context.primed = d.primed := by
  cases r with
  | none => exact ⟨(Except.ok.inj h).symm, rfl, rfl⟩
  | some branches =>
    have announced : settle n (some branches) (.of .guarded) d
        = (announce n branches.length >>= fun _ => pure branches) (.of .guarded) d := rfl
    have h' := h
    rw [announced] at h'
    obtain ⟨_, said, -⟩ := exists_of_answer_bind_ok h'
    obtain ⟨on, asked, -⟩ := exists_of_answer_bind_ok said
    have alike := settle_alike n (some branches)
      (.of_loadable .guarded (loadable_of_debugging asked)) (rfl : d.primed = d.primed)
    rw [alike.answer] at h
    exact ⟨(Except.ok.inj h).symm, alike.dropped, alike.context⟩

omit [Term V] in
/-- What a guard lets through is accounted for. -/
theorem Bears.guarding {x : Run V (List β)} {tree : Option (List (Leaf V β))} (h : x.Bears c s tree)
    (n : String) {d : Context V} (hd : d.primed = c.primed) {r : Option (List β)}
    (hr : (Run.guarding n s x (.of .guarded) d).answer = .ok r) :
    Told tree (r.getD []) (Run.guarding n s x (.of .guarded) d).dropped ∧
      (Run.guarding n s x (.of .guarded) d).context.primed = c.primed := by
  have same : Run.caught n s x (.of .guarded) d
      = ⟨.ok (r.getD []), (Run.guarding n s x (.of .guarded) d).context,
        (Run.guarding n s x (.of .guarded) d).events⟩ := by
    refine (bind_apply_of_answer_ok hr _).trans ?_
    rw [pure_apply, List.append_nil]
  have caught := h.caught n hd (congrArg Outcome.answer same)
  rw [same] at caught
  exact caught

/-- An application is accounted for if its body is. -/
theorem Bears.apply {m : Comp V α} {tree : Option (List (Leaf V (Branch V α)))}
    (h : (m.body s).Bears c s tree) : (m.apply s).Grows c tree := by
  intro d hd bs hbs
  rw [Comp.apply_eq] at hbs ⊢
  obtain ⟨r, hr, hsettle⟩ := exists_of_answer_bind_ok hbs
  obtain ⟨rfl, clean, context⟩ := settle_told hsettle
  obtain ⟨⟨leaves, hleaves, hendings, dropped⟩, kept⟩ := h.guarding m.name hd hr
  refine ⟨⟨leaves, hleaves, hendings, ?_⟩, ?_⟩
  · rw [dropped_bind_of_ok hr, clean, List.append_nil]
    exact dropped
  · rw [context_bind_of_ok hr, context]
    exact kept

end Run

end SymbolicPaths
