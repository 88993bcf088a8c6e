import SymbolicPaths.Proofs.Growth
/-!
# Computations whose trees are finite end

The engine of routines is given the number of steps that it may take, and a body may go on for ever, so a
run that is accounted for by a tree need not answer.  It answers if the tree is finite and free of defects,
the settings can be read, and the steps are enough.  How many are enough depends on what computations
answer on the way, and these may need steps themselves; so what is followed here is a run for each number
of steps.

* `Run.Ends c x`: with enough steps, `x` ends in an answer or a failure in every context like `c`.
* `Run.Realizes c x tree`: `x` is accounted for by `tree` whatever the number of steps, and ends if `tree` is
  finite and free of defects.  One lemma for each combinator says how the tree of a computation is made of
  the trees of its parts.
* `Run.Supports c s x tree`: the same of what stands right under a guard that reports `s`.
-/

namespace SymbolicPaths

variable {V α β γ ι : Type} [Term V]

namespace Run

variable {c : Context V} {s : Subject V}

/-! ## To end -/

/-- With enough steps, a run ends in an answer or a failure wherever it is met in a context like `c`. -/
def Ends (c : Context V) (x : Nat → Run V α) : Prop :=
  ∃ steps, ∀ n ≥ steps, ∀ ⦃d⦄, d.primed = c.primed → ∀ e,
    (x n (.of .guarded) d).answer = .error e → ∃ f, e = .failure f

namespace Ends

omit [Term V] in
protected theorem pure (a : Nat → α) : Ends c fun n => (pure (a n) : Run V α) :=
  ⟨0, fun _ _ _ _ _ h => by cases h⟩

omit [Term V] in
/-- What follows a run that is accounted for has to end on the branches of its tree only. -/
protected theorem bind {x : Nat → Run V (List β)} {f : Nat → List β → Run V α}
    {tree : Option (List (Leaf V β))} (h : Ends c x) (hx : ∀ n, (x n).Grows c tree)
    (hf : ∀ leaves, tree = some leaves → Ends c fun n => f n (Leaf.endings leaves)) :
    Ends c fun n => x n >>= f n := by
  obtain ⟨steps, hsteps⟩ := h
  have later : ∃ more, ∀ n ≥ more, ∀ ⦃d⦄, d.primed = c.primed → ∀ bs,
      (x n (.of .guarded) d).answer = .ok bs → ∀ e,
        (f n bs (.of .guarded) (x n (.of .guarded) d).context).answer = .error e →
          ∃ f, e = .failure f := by
    cases tree with
    | none =>
      -- without a tree to account for an answer there is none
      refine ⟨0, fun n _ d hd bs hbs => ?_⟩
      obtain ⟨⟨leaves, hleaves, -⟩, -⟩ := hx n hd hbs
      cases hleaves
    | some leaves =>
      obtain ⟨more, hmore⟩ := hf leaves rfl
      refine ⟨more, fun n hn d hd bs hbs => ?_⟩
      obtain ⟨⟨_, htree, rfl, -⟩, context⟩ := hx n hd hbs
      obtain rfl := Option.some.inj htree
      exact hmore n hn context
  obtain ⟨more, hmore⟩ := later
  refine ⟨max steps more, fun n hn d hd e he => ?_⟩
  rcases cases_of_answer_bind_error he with he | ⟨bs, hbs, he⟩
  · exact hsteps n (by omega) hd e he
  · exact hmore n (by omega) hd bs hbs e he

omit [Term V] in
/-- What is only read as something else. -/
theorem map {x : Nat → Run V α} (h : Ends c x) (g : α → β) :
    Ends c fun n => do return g (← x n) := by
  obtain ⟨steps, hsteps⟩ := h
  refine ⟨steps, fun n hn d hd e he => ?_⟩
  rcases cases_of_answer_bind_error he with he | ⟨a, -, he⟩
  · exact hsteps n hn hd e he
  · cases he

/-- A look beforehand that answers makes no difference. -/
theorem skip {x : Run V α} {y : Nat → Run V β} {a : α} (hx : x.Looks)
    (ha : (x (.of .guarded) c).answer = .ok a) (h : Ends c y) : Ends c fun n => x >>= fun _ => y n := by
  obtain ⟨steps, hsteps⟩ := h
  refine ⟨steps, fun n hn d hd e he => ?_⟩
  rcases cases_of_answer_bind_error he with he | ⟨_, -, he⟩
  · rw [← hx.answer_eq hd.symm, ha] at he
    cases he
  · rw [hx.still] at he
    exact hsteps n hn hd e he

omit [Term V] in
theorem flatMap {next : β → Option (List (Leaf V γ))} {k : Nat → β → Run V (List γ)}
    (hk : ∀ n b, (k n b).Grows c (next b)) {bs : List β} (h : ∀ b ∈ bs, Ends c fun n => k n b) :
    Ends c fun n => Run.flatMap bs (k n) := by
  induction bs with
  | nil => exact .pure fun _ => []
  | cons b rest ih =>
    obtain ⟨here, others⟩ := List.forall_mem_cons.1 h
    exact here.bind (hk · b) fun _ _ => (ih others).map _

end Ends

/-! ## Trees that are realized -/

/-- A run is accounted for by a tree whatever the number of its steps, and with enough of them it ends
if the tree is finite and free of defects. -/
structure Realizes (c : Context V) (x : Nat → Run V (List β)) (tree : Option (List (Leaf V β))) :
    Prop where
  grows : ∀ n, (x n).Grows c tree
  ends : c.Loadable → tree.isSome → Ends c x

/-- The same of what stands under a guard that reports the subject `s`. -/
structure Supports (c : Context V) (s : Subject V) (x : Nat → Run V (List β))
    (tree : Option (List (Leaf V β))) : Prop where
  bears : ∀ n, (x n).Bears c s tree
  ends : c.Loadable → tree.isSome → Ends c x

namespace Supports

theorem ofContained {x : Nat → Run V (List β)} {tree : Option (List (Leaf V β))}
    (h : Realizes c x tree) (hx : ∀ n, (x n).Contained) : Supports c s x tree :=
  ⟨fun n => .ofContained (h.grows n) (hx n), h.ends⟩

/-- What only looks is accounted for by what it says. -/
theorem ofLooks {x : Run V (List β)} (h : x.Looks) :
    Supports c s (fun _ => x) (Leaf.ofAnswer s (x (.of .guarded) c).answer) := by
  refine ⟨fun _ => .ofLooks h, fun _ finite => ⟨0, fun _ _ d hd e he => ?_⟩⟩
  rw [← h.answer_eq hd.symm] at he
  rw [he] at finite
  cases e with
  | failure f => exact ⟨f, rfl⟩
  | defect r => cases finite
  | exhausted => cases finite

theorem stop (e : Fault V) :
    Supports c s (fun _ => (Run.stop e : Run V (List β))) (Leaf.ofFault s e) :=
  ofLooks (Looks.family.stop e)

/-- What is done is what counts, in contexts like `c`. -/
theorem congr {x y : Nat → Run V (List β)} {tree : Option (List (Leaf V β))} (h : Supports c s y tree)
    (same : ∀ n ⦃d⦄, d.primed = c.primed → x n (.of .guarded) d = y n (.of .guarded) d) :
    Supports c s x tree := by
  refine ⟨fun n => ⟨fun d hd bs hbs => ?_, fun d hd f hf => ?_⟩, fun loadable finite => ?_⟩
  · rw [same n hd] at hbs ⊢
    exact (h.bears n).grows hd hbs
  · rw [same n hd] at hf ⊢
    exact (h.bears n).fails hd hf
  · obtain ⟨steps, hsteps⟩ := h.ends loadable finite
    exact ⟨steps, fun n hn d hd e he => hsteps n hn hd e (same n hd ▸ he)⟩

/-- A look beforehand that answers adds nothing. -/
theorem skip {x : Run V α} {y : Nat → Run V (List β)} {a : α} {tree : Option (List (Leaf V β))}
    (h : Supports c s y tree) (hx : x.Looks) (ha : (x (.of .guarded) c).answer = .ok a) :
    Supports c s (fun n => x >>= fun _ => y n) tree := by
  refine ⟨fun n => ⟨((h.bears n).grows).skip hx, fun d hd f hf => ?_⟩,
    fun loadable finite => .skip hx ha (h.ends loadable finite)⟩
  have there := (hx.answer_eq hd).trans ha
  rw [answer_bind_of_ok there, hx.still] at hf
  rw [dropped_bind_of_ok there, context_bind_of_ok there, hx.plain.quiet, hx.still]
  exact (h.bears n).fails hd hf

/-- An application gives the branches that its guard lets through, where the settings can be read. -/
theorem apply {m : Nat → Comp V α} {tree : Option (List (Leaf V (Branch V α)))}
    (h : Supports c s (fun n => (m n).body s) tree) : Realizes c (fun n => (m n).apply s) tree := by
  refine ⟨fun n => (h.bears n).apply, fun loadable finite => ?_⟩
  obtain ⟨steps, hsteps⟩ := h.ends loadable finite
  refine ⟨steps, fun n hn d hd e he => ?_⟩
  have he : ((m n).apply s (.of .guarded) d).answer = .error e := he
  rw [Comp.apply_eq] at he
  rcases cases_of_answer_bind_error he with he | ⟨r, hr, he⟩
  · by_cases hfail : ∃ f, ((m n).body s (.of .guarded) d).answer = .error (.failure f)
    · obtain ⟨f, hf⟩ := hfail
      rw [guarding_apply_of_guarded _ s _ rfl, bind_apply_of_ok (confine_apply_of_failure hf)] at he
      cases he
    · rw [guarding_apply_of_unfailing fun _ f hf => hfail ⟨f, hf⟩] at he
      rcases cases_of_answer_bind_error he with he | ⟨_, -, he⟩
      · exact hsteps n hn hd e he
      · cases he
  · obtain ⟨-, context⟩ := (h.bears n).guarding (m n).name hd hr
    have settled := settle_alike (m n).name r (.of_loadable .guarded (loadable.of_primed_eq context.symm)) rfl
    rw [settled.answer] at he
    cases he

end Supports

namespace Realizes

protected theorem pure (bs : List β) :
    Realizes c (fun _ => (pure bs : Run V (List β))) (some (bs.map .ended)) :=
  ⟨fun _ => .pure bs, fun _ _ => .pure fun _ => bs⟩

/-- **To go on from the branches of a run grows trees on its leaves.** -/
protected theorem bind {x : Nat → Run V (List β)} {f : Nat → List β → Run V (List γ)}
    {tree : Option (List (Leaf V β))} {next : β → Option (List (Leaf V γ))} (h : Realizes c x tree)
    (hf : ∀ bs, Realizes c (fun n => f n bs) (Leaf.grow next (bs.map .ended))) :
    Realizes c (fun n => x n >>= f n) (do Leaf.grow next (← tree)) := by
  refine ⟨fun n => (h.grows n).bind fun bs => (hf bs).grows n, fun loadable finite => ?_⟩
  cases tree with
  | none => cases finite
  | some leaves =>
    refine (h.ends loadable rfl).bind h.grows fun leaves' hleaves => ?_
    obtain rfl := Option.some.inj hleaves
    refine (hf (Leaf.endings leaves)).ends loadable (Leaf.isSome_grow_iff.2 ?_)
    rw [Leaf.endings_map_ended]
    exact Leaf.isSome_grow_iff.1 finite

theorem map {x : Nat → Run V (List β)} {tree : Option (List (Leaf V β))} (h : Realizes c x tree)
    (g : β → γ) : Realizes c (fun n => do return (← x n).map g) (do return (← tree).map (.map g)) := by
  refine ⟨fun n => (h.grows n).map g, fun loadable finite => (h.ends loadable ?_).map (List.map g)⟩
  cases tree with
  | none => cases finite
  | some leaves => rfl

/-- Items that are gone on from one by one. -/
theorem flatMap {next : β → Option (List (Leaf V γ))} {k : Nat → β → Run V (List γ)}
    (hk : ∀ b, Realizes c (fun n => k n b) (next b)) (bs : List β) :
    Realizes c (fun n => Run.flatMap bs (k n)) (Leaf.grow next (bs.map .ended)) := by
  refine ⟨fun n => .flatMap (fun b => (hk b).grows n) bs, fun loadable finite => ?_⟩
  have each := Leaf.isSome_grow_iff.1 finite
  rw [Leaf.endings_map_ended] at each
  exact .flatMap (fun n b => (hk b).grows n) fun b hb => (hk b).ends loadable (each b hb)

/-- **Level by level.**  All the paths are taken through the first item before any is taken through the
second; the tree is that of taking each path through all of them. -/
theorem levels {step : ι → β → Option (List (Leaf V β))} {k : Nat → ι → β → Run V (List β)}
    (hk : ∀ i b, Realizes c (fun n => k n i b) (step i b)) (items : List ι) (front : List β) :
    Realizes c (fun n => items.foldlM (fun front i => Run.flatMap front (k n i)) front)
      (Leaf.grow (Leaf.descend step items) (front.map .ended)) := by
  induction items generalizing front with
  | nil =>
    have stays : Leaf.grow (Leaf.descend step []) (front.map .ended)
        = some (front.map (.ended : β → Leaf V β)) := Leaf.grow_some_ended _
    rw [stays]
    exact .pure front
  | cons i rest ih =>
    have descent : Leaf.grow (Leaf.descend step (i :: rest)) (front.map .ended)
        = (do Leaf.grow (Leaf.descend step rest) (← Leaf.grow (step i) (front.map .ended))) :=
      (Leaf.grow_grow ..).symm
    simp only [descent, List.foldlM_cons]
    exact (flatMap (hk i) front).bind ih

/-- Level by level from a single start. -/
theorem descend {step : ι → β → Option (List (Leaf V β))} {k : Nat → ι → β → Run V (List β)}
    (hk : ∀ i b, Realizes c (fun n => k n i b) (step i b)) (items : List ι) (b : β) :
    Realizes c (fun n => items.foldlM (fun front i => Run.flatMap front (k n i)) [b])
      (Leaf.descend step items b) := by
  have single : Leaf.grow (Leaf.descend step items) [.ended b] = Leaf.descend step items b :=
    Leaf.grow_singleton b
  rw [← single]
  exact levels hk items [b]

end Realizes

end Run

namespace Comp

open Run (Looks Ends Realizes Supports)

variable {c : Context V} {s : Subject V}

/-! ## Computations -/

/-- What only looks, applied, is accounted for by what it says. -/
theorem apply_realizes_ofBody {m : Comp V α} (h : (m.body s).Looks) :
    Realizes c (fun _ => m.apply s) (Leaf.ofBody c m s) := (Supports.ofLooks h).apply

/-- **A sequence grows the trees of its continuations on the tree that it continues.** -/
theorem bind_apply_realizes {m : Nat → Comp V α} {f : Nat → α → Run V (Comp V β)}
    {tree : Option (List (Leaf V (Branch V α)))}
    {next : Branch V α → Option (List (Leaf V (Branch V β)))}
    (h : Realizes c (fun n => (m n).apply s) tree)
    (hf : ∀ b, Supports c b.state (fun n => f n b.value >>= fun d => d.apply b.state) (next b)) :
    Realizes c (fun n => ((m n).bind (f n)).apply s) (do Leaf.grow next (← tree)) := by
  refine (Supports.ofContained ?_ fun n => contained_bind_body (m n) (f n) s).apply
  exact h.bind fun bs => .flatMap (fun b => (hf b).apply (m := fun n => defer _ (f n b.value))) bs

/-- A computation after another one whatever its result. -/
theorem andThen_apply_realizes {m : Comp V α} {d : Comp V β}
    {tree : Option (List (Leaf V (Branch V α)))}
    {next : Subject V → Option (List (Leaf V (Branch V β)))} (h : Realizes c (fun _ => m.apply s) tree)
    (hd : ∀ s, Realizes c (fun _ => d.apply s) (next s)) :
    Realizes c (fun _ => (m.andThen d).apply s) (do Leaf.grow (fun b => next b.state) (← tree)) :=
  bind_apply_realizes h fun b => .ofContained (hd b.state) fun _ => d.contained_apply b.state

/-- A sequence of computations takes each path through all of them. -/
theorem sequence_apply_realizes (items : List ι) {step : Nat → ι → Comp V α}
    {tree : ι → Subject V → Option (List (Leaf V (Branch V α)))}
    (h : ∀ i s, Realizes c (fun n => (step n i).apply s) (tree i s)) (s : Subject V) :
    Realizes c (fun n => (sequence (items.map (step n))).apply s)
      (Leaf.descend (fun i path => do
        return (← tree i path.state).map (.map fun b => ⟨b.state, path.value ++ [b.value]⟩))
        items (⟨s, []⟩ : Branch V (List α))) := by
  have body : ∀ n, (sequence (items.map (step n))).body s = items.foldlM (fun front i =>
      Run.flatMap front fun path => do
        return (← (step n i).apply path.state).map fun b => ⟨b.state, path.value ++ [b.value]⟩)
      [(⟨s, []⟩ : Branch V (List α))] := fun n => List.foldlM_map ..
  refine (Supports.ofContained ?_ fun n => ?_).apply
  · simp only [body]
    exact .descend (fun i (path : Branch V (List α)) => (h i path.state).map _) items _
  · rw [body]
    refine Run.sequential_contained.foldlM items (fun front i _ => ?_) _
    exact Run.sequential_contained.flatMap fun path _ =>
      (contained_apply _ _).bind fun _ _ => Run.contained_pure _

/-- An iteration takes each path through all the items. -/
theorem forEach_apply_realizes (items : List ι) {body : Nat → ι → Run V (Comp V α)}
    {tree : ι → Subject V → Option (List (Leaf V (Branch V α)))}
    (h : ∀ i s, Supports c s (fun n => body n i >>= fun d => d.apply s) (tree i s)) (s : Subject V) :
    Realizes c (fun n => (forEach items (body n)).apply s) (do
      let leaves ← Leaf.descend (fun i current => do return (← tree i current).map (.map (·.state)))
        items s
      return leaves.map (.map fun current => ⟨current, ()⟩)) := by
  refine (Supports.ofContained ?_ fun n => ?_).apply
  · have front := Realizes.descend (fun i current =>
      ((h i current).apply (m := fun n => delay (body n i))).map (·.state)) items s
    exact front.map fun current => (⟨current, ()⟩ : Branch V Unit)
  · refine Run.Contained.bind ?_ fun _ _ => Run.contained_pure _
    refine Run.sequential_contained.foldlM items (fun front i _ => ?_) _
    exact Run.sequential_contained.flatMap fun current _ =>
      (contained_apply _ _).bind fun _ _ => Run.contained_pure _

/-- What is on the side is carried out as at top level, and what it drops is not seen. -/
theorem delimit_sides_apply (left : Comp V α) (right : Comp V β) (s : Subject V) (d : Context V) :
    (Run.delimit none (sides left right s) (.of .guarded) d).answer
        = (sides left right s (.of .guarded) d).answer ∧
      (Run.delimit none (sides left right s) (.of .guarded) d).dropped = [] ∧
      (Run.delimit none (sides left right s) (.of .guarded) d).context
        = (sides left right s (.of .guarded) d).context :=
  ⟨rfl, Run.pending_delimit none _ _ d, rfl⟩

/-- **Nothing that fails on the side is seen**: the trees of both sides are a single ending. -/
theorem probe_apply_realizes {left : Nat → Comp V α} {right : Nat → Comp V β}
    {l : Option (List (Leaf V (Branch V α)))} {r : Option (List (Leaf V (Branch V β)))}
    (hl : Realizes c (fun n => (left n).apply s) l) (hr : Realizes c (fun n => (right n).apply s) r) :
    Realizes c (fun n => (probe (left n) (right n)).apply s) (do
      let l ← l
      let r ← r
      return [.ended ⟨s, ⟨Leaf.endings l, Leaf.endings r⟩⟩]) := by
  refine Supports.apply ⟨fun n => ⟨fun d hd bs hbs => ?_, fun d hd f hf =>
    absurd hf (probe_body_unfailing (left n) (right n) s _ d f)⟩, fun loadable finite => ?_⟩
  · obtain ⟨asAnswered, silent, left'⟩ := delimit_sides_apply (left n) (right n) s d
    rw [probe_body] at hbs ⊢
    obtain ⟨both, hboth, hbs⟩ := Run.exists_of_answer_bind_ok hbs
    obtain rfl : [⟨s, both⟩] = bs := Except.ok.inj hbs
    obtain ⟨ls, hls, inside⟩ := Run.exists_of_answer_bind_ok (asAnswered.symm.trans hboth)
    obtain ⟨rs, hrs, same⟩ := Run.exists_of_answer_bind_ok inside
    obtain rfl : (⟨ls, rs⟩ : Delimited _ _) = both := Except.ok.inj same
    obtain ⟨⟨lt, rfl, rfl, -⟩, context⟩ := hl.grows n hd hls
    obtain ⟨⟨rt, rfl, rfl, -⟩, context'⟩ := hr.grows n context hrs
    refine ⟨⟨_, rfl, rfl, ?_⟩, ?_⟩
    · rw [Run.dropped_bind_of_ok hboth, silent]
      exact .refl _
    · rw [Run.context_bind_of_ok hboth, Run.pure_apply, left', sides, Run.context_bind_of_ok hls,
        Run.context_bind_of_ok hrs]
      exact context'
  · have parts : l.isSome ∧ r.isSome := by
      cases l with
      | none => cases finite
      | some lt =>
        cases r with
        | none => cases finite
        | some rt => exact ⟨rfl, rfl⟩
    have both : Ends c fun n => sides (left n) (right n) s :=
      (hl.ends loadable parts.1).bind hl.grows fun leaves _ =>
        (hr.ends loadable parts.2).map (Delimited.mk (Leaf.endings leaves))
    have aside : Ends c fun n => Run.delimit none (sides (left n) (right n) s) := both
    exact aside.map fun both => [(⟨s, both⟩ : Branch V _)]

/-- **An application answers with the endings of its tree**, with enough steps and wherever it is met in a
context like `c`. -/
theorem exists_answers_of_realizes {m : Nat → Comp V α} {leaves : List (Leaf V (Branch V α))}
    (h : Realizes c (fun n => (m n).apply s) (some leaves)) (hc : c.Loadable) :
    ∃ steps, ∀ n ≥ steps, ∀ ⦃d⦄, d.primed = c.primed →
      ((m n).apply s (.of .guarded) d).answer = .ok (Leaf.endings leaves) ∧
        ((m n).apply s (.of .guarded) d).context.primed = c.primed := by
  obtain ⟨steps, hsteps⟩ := h.ends hc rfl
  refine ⟨steps, fun n hn d hd => ?_⟩
  cases hanswer : ((m n).apply s (.of .guarded) d).answer with
  | error e =>
    obtain ⟨f, rfl⟩ := hsteps n hn hd e hanswer
    exact absurd hanswer ((m n).contained_apply s rfl d f)
  | ok bs =>
    obtain ⟨⟨found, hfound, rfl, -⟩, context⟩ := h.grows n hd hanswer
    obtain rfl := Option.some.inj hfound
    exact ⟨rfl, context⟩

end Comp

end SymbolicPaths
