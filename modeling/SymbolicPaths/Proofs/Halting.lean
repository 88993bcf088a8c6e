import SymbolicPaths.Proofs.Totality
import SymbolicPaths.Proofs.Worklist
/-!
# The worklist comes to its end

That the tree of a body is finite means that each of its paths ends (`Path.Founded`), by induction along the
computations that the body waits for.  The engine does not follow that induction: it takes one path to its
end and then goes on with whatever waits.  So what is shown of a path (`Routine.Finishes`) is that the loop from
there on answers if it answers on the paths that wait behind, with some number of steps more.  The siblings
that the path leaves in front of them are just more paths that wait, and each of them is founded, too.

The computations that the body waits for may need steps of their own, so the body is followed for each
number of steps.  With enough of them for all that is met, `Routine.comp_apply_realizes` says that a routine
ends if its tree is finite.
-/

namespace SymbolicPaths

variable {V α : Type}

/-- What a body does next is what its stage says, whatever the number of steps: what it waits for is
accounted for by the stage's tree, and ends if that is finite. -/
def Stage.Realizes [Term V] (c : Context V) (trail : List V)
    (signal : Nat → Run V (Signal V (List V) α)) : Stage V α → Prop
  | .asks tree => ∃ comp : Nat → Comp V V, (∀ n, signal n = pure (.awaiting (pure (comp n)) trail)) ∧
      ∀ s, Run.Realizes c (fun n => (comp n).apply s) (tree s) ∧
        ∀ n, ((comp n).apply s).LastsIn (.of .guarded)
  | .gives a => ∀ n, signal n = pure (.finished a)
  | .stops e => ∀ n, signal n = Run.stop e

theorem Stage.Realizes.tells [Term V] {c : Context V} {trail : List V}
    {signal : Nat → Run V (Signal V (List V) α)} {stage : Stage V α} (h : stage.Realizes c trail signal)
    (n : Nat) : stage.Tells c trail (signal n) := by
  cases stage with
  | gives a => exact h n
  | stops e => exact h n
  | asks tree =>
    obtain ⟨comp, hsignal, hcomp⟩ := h
    exact ⟨comp n, hsignal n, fun s => ⟨(hcomp s).1.grows n, (hcomp s).2 n⟩⟩

namespace Path

/-- Each way on from a path comes to an end, with a result or a failure. -/
inductive Founded (stage : List V → Stage V α) : Path V → Prop where
  | gives {path : Path V} {a : α} (h : stage path.trail = .gives a) : Founded stage path
  | stops {path : Path V} {f : Failure V} (h : stage path.trail = .stops (.failure f)) :
      Founded stage path
  | asks {path : Path V} {tree : Subject V → Option (List (Leaf V (Branch V V)))}
      {leaves : List (Leaf V (Branch V V))} (h : stage path.trail = .asks tree)
      (hleaves : tree path.state = some leaves)
      (next : ∀ b ∈ Leaf.endings leaves, Founded stage (.sibling path.trail b)) : Founded stage path

/-- The paths of a finite tree are founded. -/
theorem founded_of_walk {stage : List V → Stage V α} {path : Path V}
    {leaves : List (Leaf V (Branch V α))} (h : walk stage path = some leaves) : Founded stage path := by
  -- the tree is a least fixed point, so what one more step keeps holds of all trees that it has
  refine walk.partial_correctness stage (fun path _ => Founded stage path) (fun rec ih path leaves h => ?_)
    path leaves h
  cases hstage : stage path.trail with
  | gives a => exact .gives hstage
  | stops e =>
    rw [hstage] at h
    cases e with
    | failure f => exact .stops hstage
    | defect d => cases h
    | exhausted => cases h
  | asks tree =>
    rw [hstage] at h
    obtain ⟨found, hfound, h⟩ := Option.bind_eq_some_iff.1 h
    have grown : Leaf.grow (fun b => rec (.sibling path.trail b)) found = some leaves := by
      refine Eq.trans ?_ h
      rw [Leaf.grow]
      refine congrArg (fun parts : Option (List (List (Leaf V (Branch V α)))) => do
        return (← parts).flatten) (congrArg (List.mapM · found) ?_)
      funext leaf
      cases leaf <;> rfl
    refine .asks hstage hfound fun b hb => ?_
    obtain ⟨below, hbelow⟩ := Option.isSome_iff_exists.1
      (Leaf.isSome_grow_iff.1 (Option.isSome_of_eq_some grown) b hb)
    exact ih _ below hbelow

end Path

/-- A run that answers wherever it is met in a context like `c`. -/
def Run.Settles (c : Context V) (x : Run V α) : Prop :=
  ∀ ⦃d⦄, d.primed = c.primed → ∃ a, (x (.of .guarded) d).answer = .ok a

namespace Routine

variable [Term V] {whenOver : Option V → α} {c : Context V} {name : String} {limit fuel : Nat}
  {waiting : List (Path V)} {path : Path V}

section Steps

variable {signal : List V → Run V (Signal V (List V) α)}

omit [Term V] in
/-- A path that ended in branches, with the loop on what waits behind it. -/
theorem settles_joined {bs : List (Branch V α)} {y : Run V (List (Branch V α))} (h : y.Settles c) :
    (Run.joined (pure bs) y).Settles c := fun d hd => by
  obtain ⟨others, hothers⟩ := h hd
  refine ⟨bs ++ others, ?_⟩
  rw [Run.joined, pure_bind, Run.answer_bind_of_ok hothers]
  rfl

/-- The loop from a body that waits for a computation. -/
theorem onward_asking_apply {depth : Nat} {comp : Comp V V} {trail : List V} {τ : Scope V}
    (h : (comp.apply path.state).LastsIn τ) (d : Context V) :
    (unclosed whenOver signal).onward name (depth + 1) path limit fuel waiting
        (pure (.awaiting (pure comp) trail)) τ d
      = (comp.apply path.state >>= fun
        | [] => (unclosed whenOver signal).exhaust name limit fuel waiting
        | first :: siblings => (unclosed whenOver signal).onward name depth (.sibling path.trail first) limit
            fuel (siblings.map (.sibling path.trail) ++ waiting)
            (Run.asBody (signal (trail ++ [first.value])))) τ d := by
  rw [onward_awaiting, carryOut_pure _ _ rfl, Run.unlessOver_bind_apply (h d)]
  refine Run.bind_apply_congr fun branches _ => ?_
  cases branches <;> rfl

/-- The loop from such a body answers if the computation does and the loop answers on its branches. -/
theorem settles_onward_asking {depth : Nat} {comp : Comp V V} {bs : List (Branch V V)}
    (hlasts : (comp.apply path.state).LastsIn (.of .guarded))
    (hanswers : ∀ ⦃d⦄, d.primed = c.primed → (comp.apply path.state (.of .guarded) d).answer = .ok bs ∧
      (comp.apply path.state (.of .guarded) d).context.primed = c.primed)
    (hnext : Run.Settles c (match bs with
      | [] => (unclosed whenOver signal).exhaust name limit fuel waiting
      | first :: siblings => (unclosed whenOver signal).onward name depth (.sibling path.trail first) limit
          fuel (siblings.map (Path.sibling path.trail) ++ waiting)
          (Run.asBody (signal (path.trail ++ [first.value]))))) :
    ((unclosed whenOver signal).onward name (depth + 1) path limit fuel waiting
      (pure (.awaiting (pure comp) path.trail))).Settles c := by
  intro d hd
  obtain ⟨answer, context⟩ := hanswers hd
  obtain ⟨found, hfound⟩ := hnext context
  refine ⟨found, ?_⟩
  rw [onward_asking_apply hlasts, Run.answer_bind_of_ok answer]
  cases bs <;> exact hfound

end Steps

variable (signal : Nat → List V → Run V (Signal V (List V) α)) {stage : List V → Stage V α}

/-- **What holds of a path**: wherever replays get there, the loop from the path on answers if it does so
on the paths that wait behind, for all numbers of steps from some number on.  The path itself uses up
`paths` of the loop's steps. -/
def Finishes (whenOver : Option V → α) (c : Context V) (name : String) (path : Path V) : Prop :=
  (∀ n, (unclosed whenOver (signal n)).Leads path.trail) → ∃ enough paths, ∀ n ≥ enough, ∀ depth ≥ enough,
    ∀ limit ≥ enough, ∀ fuel waiting,
      ((unclosed whenOver (signal n)).exhaust name limit fuel waiting).Settles c →
      ((unclosed whenOver (signal n)).onward name depth path limit (fuel + paths) waiting
        (Run.asBody (signal n path.trail))).Settles c

variable {signal}

/-- Siblings that wait in front of others, one after the other. -/
theorem exists_settles_siblings {trail : List V} (siblings : List (Branch V V))
    (hl : ∀ b : Branch V V, ∀ n, (unclosed whenOver (signal n)).Leads (trail ++ [b.value]))
    (hfinishes : ∀ b ∈ siblings, Finishes signal whenOver c name (.sibling trail b)) :
    ∃ enough paths, ∀ n ≥ enough, ∀ limit ≥ enough, ∀ fuel waiting,
      ((unclosed whenOver (signal n)).exhaust name limit fuel waiting).Settles c →
      ((unclosed whenOver (signal n)).exhaust name limit (fuel + paths)
        (siblings.map (.sibling trail) ++ waiting)).Settles c := by
  induction siblings with
  | nil => exact ⟨0, 0, fun _ _ _ _ _ _ h => h⟩
  | cons b rest ih =>
    obtain ⟨first, others⟩ := List.forall_mem_cons.1 hfinishes
    obtain ⟨enough, paths, hrest⟩ := ih others
    obtain ⟨here, used, hfirst⟩ := first (hl b)
    refine ⟨max enough here, paths + used + 1, fun n hn limit hlimit fuel waiting h => ?_⟩
    rw [List.map_cons, List.cons_append, ← Nat.add_assoc,
      exhaust_cons_of_prepare _ name _ limit _ _ rfl]
    show ((unclosed whenOver (signal n)).onward name limit (.sibling trail b) limit _ _
      ((unclosed whenOver (signal n)).replay [] (trail ++ [b.value]))).Settles c
    rw [hl b n, ← Nat.add_assoc]
    exact hfirst n (by omega) limit (by omega) limit (by omega) _ _
      (hrest n (by omega) limit (by omega) fuel waiting h)

/-- **The loop answers on a founded path** if it answers on the paths behind. -/
theorem finishes_of_founded (hs : ∀ trail, (stage trail).Realizes c trail fun n => signal n trail)
    (hc : c.Loadable) (founded : Path.Founded stage path) : Finishes signal whenOver c name path := by
  induction founded with
  | @gives path a h =>
    intro hl
    have told := hs path.trail
    rw [h] at told
    have signalled : ∀ n, signal n path.trail = pure (.finished a) := told
    refine ⟨0, 0, fun n _ depth _ limit _ fuel waiting rest => ?_⟩
    rw [signalled n, Run.asBody_pure, onward_finished]
    exact settles_joined rest
  | @stops path f h =>
    intro hl
    have told := hs path.trail
    rw [h] at told
    have signalled : ∀ n, signal n path.trail = Run.stop (.failure f) := told
    refine ⟨0, 0, fun n _ depth _ limit _ fuel waiting rest => ?_⟩
    rw [signalled n, Run.asBody_stop, onward_stop]
    intro d hd
    obtain ⟨others, hothers⟩ := rest hd
    exact ⟨[] ++ others, Run.answer_bind_of_ok hothers _⟩
  | @asks path tree leaves h hleaves _ ih =>
    intro hl
    have told := hs path.trail
    rw [h] at told
    obtain ⟨comp, told, hcomp⟩ := told
    have hsignal : ∀ n, signal n path.trail = pure (.awaiting (pure (comp n)) path.trail) := told
    obtain ⟨realizes, lasts⟩ := hcomp path.state
    have leads : ∀ b : Branch V V, ∀ n, (unclosed whenOver (signal n)).Leads (path.trail ++ [b.value]) :=
      fun b n => (hl n).concat (functional_ofSignals ..) (congrArg Run.asBody (hsignal n)) b.value
    rw [hleaves] at realizes
    obtain ⟨steps, answers⟩ := Comp.exists_answers_of_realizes realizes hc
    cases hendings : Leaf.endings leaves with
    | nil =>
      rw [hendings] at answers
      refine ⟨steps + 1, 0, fun n hn depth hdepth limit hlimit fuel waiting rest => ?_⟩
      obtain ⟨depth, rfl⟩ : ∃ k, depth = k + 1 := ⟨depth - 1, by omega⟩
      rw [hsignal n, Run.asBody_pure]
      exact settles_onward_asking (lasts n) (answers n (by omega)) rest
    | cons first siblings =>
      rw [hendings] at ih answers
      obtain ⟨hfirst, hsiblings⟩ := List.forall_mem_cons.1 ih
      obtain ⟨here, used, onFirst⟩ := hfirst (leads first)
      obtain ⟨enough, paths, onSiblings⟩ := exists_settles_siblings siblings leads hsiblings
      refine ⟨steps + here + enough + 1, paths + used,
        fun n hn depth hdepth limit hlimit fuel waiting rest => ?_⟩
      obtain ⟨depth, rfl⟩ : ∃ k, depth = k + 1 := ⟨depth - 1, by omega⟩
      rw [hsignal n, Run.asBody_pure, ← Nat.add_assoc]
      exact settles_onward_asking (lasts n) (answers n (by omega)) <|
        onFirst n (by omega) depth (by omega) limit (by omega) _ _ <|
          onSiblings n (by omega) limit (by omega) fuel waiting rest

/-- **A routine is accounted for by the tree of its body, and ends if that is finite.** -/
theorem comp_apply_realizes (hs : ∀ trail, (stage trail).Realizes c trail fun n => signal n trail)
    (name : String) (s : Subject V) :
    Run.Realizes c (fun n => ((unclosed whenOver (signal n)).comp name n).apply s)
      (Path.walk stage ⟨[], s⟩) := by
  have start : ∀ n, ∀ path ∈ [(⟨[], s⟩ : Path V)], (unclosed whenOver (signal n)).Leads path.trail := fun n =>
    List.forall_mem_singleton.2 (leads_nil (unclosed whenOver (signal n)))
  have tells : ∀ n trail, (stage trail).Tells c trail (signal n trail) := fun n trail => (hs trail).tells n
  have tree : Path.walkAll stage [⟨[], s⟩] = Path.walk stage ⟨[], s⟩ := Leaf.grow_singleton _
  refine Run.Supports.apply ⟨fun n => .ofContained ?_ (contained_exhaust (tells n) name n n _ (start n)),
    fun loadable finite => ?_⟩
  · rw [← tree]
    exact exhaust_grows (tells n) name n n _ (start n)
  · obtain ⟨leaves, hleaves⟩ := Option.isSome_iff_exists.1 finite
    have start : Finishes signal whenOver c name ⟨[], s⟩ :=
      finishes_of_founded hs loadable (Path.founded_of_walk hleaves)
    obtain ⟨enough, paths, finishes⟩ := start fun n => leads_nil (unclosed whenOver (signal n))
    refine ⟨enough + paths + 1, fun n hn d hd e he => ?_⟩
    obtain ⟨fuel, rfl⟩ : ∃ fuel, n = fuel + paths + 1 := ⟨n - paths - 1, by omega⟩
    have ended : ((unclosed whenOver (signal (fuel + paths + 1))).exhaust name (fuel + paths + 1) fuel
        []).Settles c := fun k _ => ⟨[], by rw [exhaust_nil]; rfl⟩
    obtain ⟨bs, hbs⟩ := finishes (fuel + paths + 1) (by omega) (fuel + paths + 1) (by omega)
      (fuel + paths + 1) (by omega) fuel [] ended hd
    have loop : ((unclosed whenOver (signal (fuel + paths + 1))).comp name (fuel + paths + 1)).body s
        = (unclosed whenOver (signal (fuel + paths + 1))).onward name (fuel + paths + 1) ⟨[], s⟩
          (fuel + paths + 1) (fuel + paths) [] (Run.asBody (signal (fuel + paths + 1) [])) := by
      show exhaust _ _ _ _ _ = _
      rw [exhaust_cons_of_prepare _ name _ _ _ _ rfl]
      exact congrArg _ (leads_nil (unclosed whenOver (signal (fuel + paths + 1))))
    have same : (((unclosed whenOver (signal (fuel + paths + 1))).comp name (fuel + paths + 1)).body s
        (.of .guarded) d).answer = .ok bs := by
      rw [loop]
      exact hbs
    exact absurd (same.symm.trans he) (by simp)

end Routine

end SymbolicPaths
