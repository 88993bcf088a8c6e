import SymbolicPaths.Proofs.Engine
import SymbolicPaths.Proofs.Growth
import SymbolicPaths.Proofs.Lasting
/-!
# The worklist accounts for every path

The engine of a routine takes one path to its end and puts the siblings that it meets on a worklist, so
between two steps of its loop the leaves of the routine's tree are in three places: some have been given
or dropped, one subtree is being gone through, and the others are those of the waiting paths.  What is
proved here is that the three make up the tree (`Routine.arrived`, `Routine.exhaust_grows`).

The body need not end on every path, only on those that are taken, so there is no induction over it.
A path is gone through by induction on the number of steps that it may take, and the worklist by
induction on the number of paths; that the engine answers is what shows that these were enough.

## Replays

A path waits as the values that it has sent.  That a replay of them gets to where the path was left
(`Routine.Leads`) holds because the body is a function of what it was sent, and it holds of every path
that is left waiting (`Routine.leads_siblings`).

The bodies here are let go of by doing nothing (`Routine.unclosed`), and what they wait for does not say that
there is nothing more to come: neither has a place in the tree.
-/

namespace SymbolicPaths

variable {V α : Type}

/-- What a body does next is what its stage says: it waits for a computation that the stage's tree
accounts for, has the same result, or is stopped by the same fault. -/
def Stage.Tells [Term V] (c : Context V) (trail : List V) (signal : Run V (Signal V (List V) α)) :
    Stage V α → Prop
  | .asks tree => ∃ comp : Comp V V, signal = pure (.awaiting (pure comp) trail) ∧
      ∀ s, (comp.apply s).Grows c (tree s) ∧ (comp.apply s).LastsIn (.of .guarded)
  | .gives a => signal = pure (.finished a)
  | .stops e => signal = Run.stop e

/-- What is outside a body makes the same leaf of a fault, which leaves none unless it is a failure. -/
theorem Leaf.ofFault_ofBody {β : Type} (s : Subject V) (e : Fault V) :
    (ofFault s e.ofBody : Option (List (Leaf V β))) = ofFault s e := by
  rw [Fault.ofBody]
  split
  · rename_i details ho
    cases e with
    | failure f => cases ho
    | defect d => rfl
    | exhausted => rfl
  · rfl

namespace Path

variable (stage : List V → Stage V α)

/-- The leaves of the paths that wait, one path after the other. -/
def walkAll (waiting : List (Path V)) : Option (List (Leaf V (Branch V α))) :=
  Leaf.grow (walk stage) (waiting.map .ended)

theorem walkAll_cons (path : Path V) (waiting : List (Path V)) :
    walkAll stage (path :: waiting) = (do
      let here ← walk stage path
      let others ← walkAll stage waiting
      return here ++ others) := Leaf.grow_ended ..

theorem walkAll_append (front back : List (Path V)) :
    walkAll stage (front ++ back) = (do
      let here ← walkAll stage front
      let others ← walkAll stage back
      return here ++ others) := by
  rw [walkAll, List.map_append, Leaf.grow_append]
  rfl

/-- The paths of siblings are the branches, each with the rest of the routine. -/
theorem walkAll_siblings (trail : List V) (siblings : List (Branch V V)) :
    walkAll stage (siblings.map (.sibling trail))
      = Leaf.grow (fun b => walk stage (.sibling trail b)) (siblings.map .ended) := by
  induction siblings with
  | nil => rfl
  | cons b rest ih =>
    rw [List.map_cons, walkAll_cons, ih, List.map_cons, Leaf.grow_ended]

variable {stage} {path : Path V}

theorem walk_of_gives {a : α} (h : stage path.trail = .gives a) :
    walk stage path = some [.ended ⟨path.state, a⟩] := by
  rw [walk, h]

theorem walk_of_stops {e : Fault V} (h : stage path.trail = .stops e) :
    walk stage path = Leaf.ofFault path.state e := by
  rw [walk, h]

theorem walk_of_asks {tree : Subject V → Option (List (Leaf V (Branch V V)))}
    (h : stage path.trail = .asks tree) :
    walk stage path
      = (do Leaf.grow (fun b => walk stage (.sibling path.trail b)) (← tree path.state)) := by
  rw [walk, h]
  refine bind_congr fun leaves => ?_
  rw [Leaf.grow]
  refine congrArg (fun parts : Option (List (List (Leaf V (Branch V α)))) => do
    return (← parts).flatten) (congrArg (List.mapM · leaves) ?_)
  funext leaf
  cases leaf <;> rfl

end Path

namespace Routine

/-- A body that is let go of by doing nothing. -/
abbrev unclosed (whenOver : Option V → α) (signal : List V → Run V (Signal V (List V) α)) :
    Routine V (List V) α := ofSignals whenOver (fun _ => pure ()) signal

/-- A replay of `trail` gets to where a path that has sent it was left. -/
def Leads (r : Routine V (List V) α) (trail : List V) : Prop :=
  r.replay [] trail = Run.asBody (r.start trail)

theorem leads_nil (r : Routine V (List V) α) : r.Leads [] := bind_pure (Run.asBody (r.start []))

variable {whenOver : Option V → α}

/-- Nothing is kept of a body but what it was sent. -/
structure Functional (r : Routine V (List V) α) : Prop where
  prepare : r.prepare = pure []
  resume : ∀ trail v, r.resume trail v = r.start (trail ++ [v])

theorem functional_ofSignals (whenOver : Option V → α) (release : List V → Run V Unit)
    (signal : List V → Run V (Signal V (List V) α)) : (ofSignals whenOver release signal).Functional :=
  ⟨rfl, fun _ _ => rfl⟩

theorem Leads.concat {r : Routine V (List V) α} (hr : r.Functional) {trail : List V}
    {wanted : Run V (Comp V V)} (h : r.Leads trail)
    (hs : Run.asBody (r.start trail) = pure (.awaiting wanted trail)) (v : V) : r.Leads (trail ++ [v]) := by
  rw [Leads, replay_concat, h, hs, pure_bind, send, hr.resume]

section Accounts

variable {stage : List V → Stage V α}

/-- The leaves of a tree are those that a path ended in or dropped, and those of the siblings that it
left waiting. -/
def Accounts (stage : List V → Stage V α) (tree : Option (List (Leaf V (Branch V α))))
    (ended : Option (Branch V α)) (siblings : List (Path V)) (dropped : List (Dropped V)) : Prop :=
  ∀ others, Path.walkAll stage siblings = some others → ∃ leaves, tree = some leaves ∧
    ended.toList ++ Leaf.endings others = Leaf.endings leaves ∧
    (dropped ++ Leaf.failures others).Perm (Leaf.failures leaves)

/-- A path that ended in a branch or a failure, and had no siblings. -/
theorem accounts_of_leaf {tree : Option (List (Leaf V (Branch V α)))} {ended : Option (Branch V α)}
    {dropped : List (Dropped V)} {leaf : Leaf V (Branch V α)} (h : tree = some [leaf])
    (he : ended.toList = Leaf.endings [leaf]) (hd : dropped = Leaf.failures [leaf]) :
    Accounts stage tree ended [] dropped := by
  intro others ho
  obtain rfl : [] = others := Option.some.inj ho
  refine ⟨[leaf], h, ?_, ?_⟩
  · rw [Leaf.endings_nil, List.append_nil, he]
  · rw [Leaf.failures_nil, List.append_nil, hd]

/-- A path that ended because what it waited for has no branches. -/
theorem accounts_of_childless {path : Path V} {leaves : List (Leaf V (Branch V V))}
    {dropped : List (Dropped V)} {tree : Subject V → Option (List (Leaf V (Branch V V)))}
    (hstage : stage path.trail = .asks tree) (htree : tree path.state = some leaves)
    (hendings : Leaf.endings leaves = []) (hdropped : dropped.Perm (Leaf.failures leaves)) :
    Accounts stage (Path.walk stage path) none [] dropped := by
  intro others ho
  obtain rfl : [] = others := Option.some.inj ho
  have grown : Leaf.grow (fun b => Path.walk stage (.sibling path.trail b))
      ((Leaf.endings leaves).map .ended) = some [] := by
    rw [hendings]
    rfl
  obtain ⟨all, hall, sameEndings, sameFailures⟩ := Leaf.grow_endings grown
  refine ⟨all, ?_, sameEndings.symm, ?_⟩
  · rw [Path.walk_of_asks hstage, htree]
    exact hall
  · exact (hdropped.append_right _).trans sameFailures.symm

/-- **A path and its siblings make up a tree**: the first branch of what was waited for with what it
left waiting, and the paths of the other branches. -/
theorem accounts_of_siblings {path : Path V} {leaves : List (Leaf V (Branch V V))}
    {first : Branch V V} {rest : List (Branch V V)} {ended : Option (Branch V α)}
    {later : List (Path V)} {dropped dropped' : List (Dropped V)}
    {tree : Subject V → Option (List (Leaf V (Branch V V)))}
    (hstage : stage path.trail = .asks tree) (htree : tree path.state = some leaves)
    (hendings : Leaf.endings leaves = first :: rest) (hdropped : dropped.Perm (Leaf.failures leaves))
    (h : Accounts stage (Path.walk stage (.sibling path.trail first)) ended later dropped') :
    Accounts stage (Path.walk stage path) ended (later ++ rest.map (.sibling path.trail))
      (dropped ++ dropped') := by
  intro others ho
  rw [Path.walkAll_append, Path.walkAll_siblings] at ho
  obtain ⟨front, hfront, ho⟩ := Option.bind_eq_some_iff.1 ho
  obtain ⟨back, hback, ho⟩ := Option.bind_eq_some_iff.1 ho
  obtain rfl : front ++ back = others := Option.some.inj ho
  obtain ⟨here, hhere, endings, failures⟩ := h front hfront
  -- the trees of all the branches, first and rest, grow on the endings of what was waited for
  have grown : Leaf.grow (fun b => Path.walk stage (.sibling path.trail b))
      ((Leaf.endings leaves).map .ended) = some (here ++ back) := by
    rw [hendings, List.map_cons, Leaf.grow_ended, hhere, hback]
    rfl
  obtain ⟨all, hall, sameEndings, sameFailures⟩ := Leaf.grow_endings grown
  refine ⟨all, ?_, ?_, ?_⟩
  · rw [Path.walk_of_asks hstage, htree]
    exact hall
  · rw [sameEndings, Leaf.endings_append, Leaf.endings_append, ← endings, List.append_assoc]
  · refine List.Perm.trans ?_ sameFailures.symm
    rw [Leaf.failures_append, Leaf.failures_append, List.append_assoc]
    refine hdropped.append ?_
    rw [← List.append_assoc]
    exact failures.append_right _

end Accounts

section Engine

variable [Term V] {c : Context V} {signal : List V → Run V (Signal V (List V) α)}
  {stage : List V → Stage V α}

/-- What a body may come to at a stage: it ends there with a result or a fault, or it waits. -/
theorem told_cases (tells : ∀ trail, (stage trail).Tells c trail (signal trail)) (trail : List V) :
    (∃ a, stage trail = .gives a ∧ Run.asBody (signal trail) = pure (.finished a)) ∨
      (∃ e, stage trail = .stops e ∧ Run.asBody (signal trail) = Run.stop e.ofBody) ∨
      ∃ tree comp, stage trail = .asks tree ∧
        Run.asBody (signal trail) = pure (.awaiting (pure comp) trail) ∧
        ∀ s, (comp.apply s).Grows c (tree s) ∧ (comp.apply s).LastsIn (.of .guarded) := by
  have told := tells trail
  cases hstage : stage trail with
  | gives a =>
    rw [hstage] at told
    exact .inl ⟨a, rfl, congrArg Run.asBody told⟩
  | stops e =>
    rw [hstage] at told
    exact .inr (.inl ⟨e, rfl, congrArg Run.asBody told⟩)
  | asks tree =>
    rw [hstage] at told
    obtain ⟨comp, hsignal, hcomp⟩ := told
    exact .inr (.inr ⟨tree, comp, rfl, congrArg Run.asBody hsignal, hcomp⟩)

/-! ## One path -/

variable {name : String} {depth : Nat} {path : Path V} {comp : Comp V V} {trail : List V}

/-- A body that waits for a computation. -/
theorem arrive_asking :
    (unclosed whenOver signal).arrive name (depth + 1) (pure (.awaiting (pure comp) trail)) path
      = Run.unlessOver (comp.apply path.state) >>= fun
        | .error details => pure (some ⟨path.state, whenOver details.head?⟩, [])
        | .ok [] => pure (none, [])
        | .ok (first :: siblings) => do
          let (ended, later) ← (unclosed whenOver signal).arrive name depth
            (Run.asBody (signal (trail ++ [first.value]))) (.sibling path.trail first)
          return (ended, later ++ siblings.map (.sibling path.trail)) := by
  rw [← (unclosed whenOver signal).carryOut_pure trail rfl, arrive_awaiting]
  rfl

/-- A path that is taken to its end while guarded ends in no failure. -/
theorem contained_arrive (tells : ∀ trail, (stage trail).Tells c trail (signal trail)) (name : String)
    (depth : Nat) (trail : List V) (path : Path V) :
    ((unclosed whenOver signal).arrive name depth (Run.asBody (signal trail)) path).Contained := by
  induction depth generalizing trail path with
  | zero =>
    rcases told_cases tells trail with ⟨a, -, hsignal⟩ | ⟨e, -, hsignal⟩ | ⟨tree, comp, -, hsignal, -⟩
    · rw [hsignal]
      exact contained_arrive_finished ..
    · rw [hsignal]
      exact contained_arrive_stop ..
    · rw [hsignal, arrive_awaiting_zero]
      exact Run.contained_stop fun f h => by cases h
  | succ depth ih =>
    rcases told_cases tells trail with ⟨a, -, hsignal⟩ | ⟨e, -, hsignal⟩ | ⟨tree, comp, -, hsignal, -⟩
    · rw [hsignal]
      exact contained_arrive_finished ..
    · rw [hsignal]
      exact contained_arrive_stop ..
    · rw [hsignal, arrive_asking]
      refine (comp.contained_apply _).unlessOver.bind fun carried _ => ?_
      match carried with
      | .error details => exact Run.contained_pure _
      | .ok [] => exact Run.contained_pure _
      | .ok (first :: siblings) =>
        exact (ih (trail ++ [first.value]) _).bind fun _ _ => Run.contained_pure _

/-- Where the body has ended, no siblings are left waiting. -/
theorem siblings_of_ended {ended : Option (Branch V α)} {siblings : List (Path V)}
    (hsignal : (∃ a, Run.asBody (signal path.trail) = pure (.finished a)) ∨
      ∃ e, Run.asBody (signal path.trail) = Run.stop e)
    (h : ((unclosed whenOver signal).arrive name depth (Run.asBody (signal path.trail)) path).Answers
      (ended, siblings)) : siblings = [] := by
  obtain ⟨τ, d, h⟩ := h
  rcases hsignal with ⟨a, hsignal⟩ | ⟨e, hsignal⟩
  · rw [hsignal, arrive_finished] at h
    exact (Prod.mk.inj (Except.ok.inj h)).2.symm
  · rw [hsignal, arrive_stop] at h
    obtain ⟨_, -, h⟩ := Run.exists_of_answer_bind_ok h
    exact (Prod.mk.inj (Except.ok.inj h)).2.symm

/-- The siblings that a path leaves waiting can be replayed. -/
theorem leads_siblings (tells : ∀ trail, (stage trail).Tells c trail (signal trail))
    (hl : (unclosed whenOver signal).Leads path.trail) {ended : Option (Branch V α)} {siblings : List (Path V)}
    (h : ((unclosed whenOver signal).arrive name depth (Run.asBody (signal path.trail)) path).Answers
      (ended, siblings)) : ∀ p ∈ siblings, (unclosed whenOver signal).Leads p.trail := by
  induction depth generalizing path ended siblings with
  | zero =>
    rcases told_cases tells path.trail with
      ⟨a, -, hsignal⟩ | ⟨e, -, hsignal⟩ | ⟨tree, comp, -, hsignal, -⟩
    · rw [siblings_of_ended (.inl ⟨a, hsignal⟩) h]
      exact List.forall_mem_nil _
    · rw [siblings_of_ended (.inr ⟨_, hsignal⟩) h]
      exact List.forall_mem_nil _
    · obtain ⟨τ, d, h⟩ := h
      rw [hsignal, arrive_awaiting_zero] at h
      cases h
  | succ depth ih =>
    rcases told_cases tells path.trail with
      ⟨a, -, hsignal⟩ | ⟨e, -, hsignal⟩ | ⟨tree, comp, -, hsignal, -⟩
    · rw [siblings_of_ended (.inl ⟨a, hsignal⟩) h]
      exact List.forall_mem_nil _
    · rw [siblings_of_ended (.inr ⟨_, hsignal⟩) h]
      exact List.forall_mem_nil _
    · obtain ⟨τ, d, h⟩ := h
      rw [hsignal, arrive_asking] at h
      obtain ⟨carried, -, h⟩ := Run.exists_of_answer_bind_ok h
      match carried with
      | .error details =>
        obtain ⟨-, rfl⟩ : some ⟨path.state, whenOver details.head?⟩ = ended ∧ [] = siblings :=
          Prod.mk.inj (Except.ok.inj h)
        exact List.forall_mem_nil _
      | .ok [] =>
        obtain ⟨-, rfl⟩ : none = ended ∧ [] = siblings := Prod.mk.inj (Except.ok.inj h)
        exact List.forall_mem_nil _
      | .ok (first :: rest) =>
        obtain ⟨⟨ended', later⟩, hlater, h⟩ := Run.exists_of_answer_bind_ok h
        obtain ⟨-, rfl⟩ : ended' = ended ∧ later ++ rest.map (Path.sibling path.trail) = siblings :=
          Prod.mk.inj (Except.ok.inj h)
        have next : (unclosed whenOver signal).Leads (Path.sibling path.trail first).trail :=
          hl.concat (functional_ofSignals ..) hsignal first.value
        refine List.forall_mem_append.2 ⟨ih next ⟨τ, _, hlater⟩, ?_⟩
        intro p hp
        obtain ⟨b, -, rfl⟩ := List.mem_map.1 hp
        exact hl.concat (functional_ofSignals ..) hsignal b.value

/-- A body that waits for a computation which does not say that there is nothing more to come. -/
theorem arrive_asking_apply {τ : Scope V} (h : (comp.apply path.state).LastsIn τ) (d : Context V) :
    (unclosed whenOver signal).arrive name (depth + 1) (pure (.awaiting (pure comp) trail)) path τ d
      = (comp.apply path.state >>= fun
        | [] => pure (none, [])
        | first :: siblings => do
          let (ended, later) ← (unclosed whenOver signal).arrive name depth
            (Run.asBody (signal (trail ++ [first.value]))) (.sibling path.trail first)
          return (ended, later ++ siblings.map (.sibling path.trail))) τ d := by
  rw [arrive_asking, Run.unlessOver_bind_apply (h d)]
  refine Run.bind_apply_congr fun branches _ => ?_
  cases branches <;> rfl

/-- What is known when a path was taken to its end: it accounts for its subtree, together with the
siblings that it left waiting. -/
def Arrived (c : Context V) (stage : List V → Stage V α) (path : Path V)
    (o : Outcome V (Option (Branch V α) × List (Path V))) : Prop :=
  ∀ ended siblings, o.answer = .ok (ended, siblings) →
    Accounts stage (Path.walk stage path) ended siblings o.dropped ∧ o.context.primed = c.primed

variable {d : Context V}

theorem arrived_of_gives {a : α} (hstage : stage path.trail = .gives a)
    (hsignal : Run.asBody (signal path.trail) = pure (.finished a)) (name : String) (depth : Nat)
    (hd : d.primed = c.primed) :
    Arrived c stage path
      ((unclosed whenOver signal).arrive name depth (Run.asBody (signal path.trail)) path (.of .guarded) d) := by
  rw [hsignal, arrive_finished]
  intro ended siblings h
  obtain ⟨rfl, rfl⟩ : some ⟨path.state, a⟩ = ended ∧ [] = siblings :=
    Prod.mk.inj (Except.ok.inj h)
  exact ⟨accounts_of_leaf (Path.walk_of_gives hstage) rfl rfl, hd⟩

theorem arrived_of_stops {e : Fault V} (hstage : stage path.trail = .stops e)
    (hsignal : Run.asBody (signal path.trail) = Run.stop e.ofBody) (name : String) (depth : Nat)
    (hd : d.primed = c.primed) :
    Arrived c stage path
      ((unclosed whenOver signal).arrive name depth (Run.asBody (signal path.trail)) path (.of .guarded) d) := by
  rw [hsignal, arrive_stop]
  intro ended siblings h
  have leaf := (Path.walk_of_stops hstage).trans (Leaf.ofFault_ofBody path.state e).symm
  cases he : e.ofBody with
  | failure f =>
    rw [he] at h leaf
    obtain ⟨rfl, rfl⟩ : none = ended ∧ [] = siblings := Prod.mk.inj (Except.ok.inj h)
    exact ⟨accounts_of_leaf leaf rfl rfl, hd⟩
  | defect r =>
    rw [he] at h
    cases h
  | exhausted =>
    rw [he] at h
    cases h

/-- A path that waits accounts for its subtree if its first branch does, wherever it is met. -/
theorem arrived_of_asks {tree : Subject V → Option (List (Leaf V (Branch V V)))}
    (hstage : stage path.trail = .asks tree)
    (hsignal : Run.asBody (signal path.trail) = pure (.awaiting (pure comp) path.trail))
    (hgrows : (comp.apply path.state).Grows c (tree path.state))
    (hlasts : (comp.apply path.state).LastsIn (.of .guarded)) (hd : d.primed = c.primed)
    (hfirst : ∀ (first : Branch V V) (k : Context V), k.primed = c.primed →
      Arrived c stage (.sibling path.trail first)
        ((unclosed whenOver signal).arrive name depth (Run.asBody (signal (path.trail ++ [first.value])))
          (.sibling path.trail first) (.of .guarded) k)) :
    Arrived c stage path
      ((unclosed whenOver signal).arrive name (depth + 1) (Run.asBody (signal path.trail)) path
        (.of .guarded) d) := by
  rw [hsignal, arrive_asking_apply hlasts]
  intro ended siblings h
  obtain ⟨branches, hb, h⟩ := Run.exists_of_answer_bind_ok h
  obtain ⟨⟨leaves, hleaves, hendings, dropped⟩, context⟩ := hgrows hd hb
  rw [Run.dropped_bind_of_ok hb, Run.context_bind_of_ok hb]
  cases branches with
  | nil =>
    obtain ⟨rfl, rfl⟩ : none = ended ∧ [] = siblings := Prod.mk.inj (Except.ok.inj h)
    have accounts := accounts_of_childless hstage hleaves hendings.symm dropped
    rw [← List.append_nil (Outcome.dropped _)] at accounts
    exact ⟨accounts, context⟩
  | cons first rest =>
    obtain ⟨⟨ended', later⟩, hlater, h⟩ := Run.exists_of_answer_bind_ok h
    let rejoin := fun r : Option (Branch V α) × List (Path V) =>
      (pure (r.1, r.2 ++ rest.map (Path.sibling path.trail)) : Run V _)
    obtain ⟨rfl, rfl⟩ : ended' = ended ∧ later ++ rest.map (Path.sibling path.trail) = siblings :=
      Prod.mk.inj (Except.ok.inj (show Except.ok (ended', later ++ rest.map (Path.sibling path.trail))
        = Except.ok (ended, siblings) from h))
    obtain ⟨accounts, context'⟩ := hfirst first _ context ended' later hlater
    constructor
    · have both := accounts_of_siblings hstage hleaves hendings.symm dropped accounts
      rw [← (Run.dropped_bind_of_ok hlater rejoin).trans (List.append_nil _)] at both
      exact both
    · exact (congrArg Context.primed (Run.context_bind_of_ok hlater rejoin)).trans context'

/-- **A path that was taken to its end accounts for its subtree.** -/
theorem arrived (tells : ∀ trail, (stage trail).Tells c trail (signal trail)) (name : String)
    (depth : Nat) (hd : d.primed = c.primed) :
    Arrived c stage path
      ((unclosed whenOver signal).arrive name depth (Run.asBody (signal path.trail)) path (.of .guarded) d) := by
  induction depth generalizing path d with
  | zero =>
    rcases told_cases tells path.trail with
      ⟨a, hstage, hsignal⟩ | ⟨e, hstage, hsignal⟩ | ⟨tree, comp, -, hsignal, -⟩
    · exact arrived_of_gives hstage hsignal name 0 hd
    · exact arrived_of_stops hstage hsignal name 0 hd
    · rw [hsignal, arrive_awaiting_zero]
      exact fun ended siblings h => by cases h
  | succ depth ih =>
    rcases told_cases tells path.trail with
      ⟨a, hstage, hsignal⟩ | ⟨e, hstage, hsignal⟩ | ⟨tree, comp, hstage, hsignal, hcomp⟩
    · exact arrived_of_gives hstage hsignal name (depth + 1) hd
    · exact arrived_of_stops hstage hsignal name (depth + 1) hd
    · obtain ⟨grows, lasts⟩ := hcomp path.state
      exact arrived_of_asks hstage hsignal grows lasts hd fun first k hk => ih hk

/-! ## The loop -/

/-- **The engine ends in no failure.** -/
theorem contained_exhaust (tells : ∀ trail, (stage trail).Tells c trail (signal trail)) (name : String)
    (depth fuel : Nat) (waiting : List (Path V))
    (hl : ∀ path ∈ waiting, (unclosed whenOver signal).Leads path.trail) :
    ((unclosed whenOver signal).exhaust name depth fuel waiting).Contained := by
  induction fuel generalizing waiting with
  | zero =>
    cases waiting with
    | nil => exact Run.contained_pure []
    | cons path waiting => exact Run.contained_stop fun f h => by cases h
  | succ fuel ih =>
    cases waiting with
    | nil => exact Run.contained_pure []
    | cons path waiting =>
      obtain ⟨front, back⟩ := List.forall_mem_cons.1 hl
      rw [(unclosed whenOver signal).exhaust_cons_of_prepare name path depth fuel waiting rfl, front, onward]
      refine (contained_arrive tells name depth path.trail path).bind fun result h => ?_
      obtain ⟨ended, siblings⟩ := result
      have leads := leads_siblings tells front h
      exact (ih (siblings ++ waiting) (List.forall_mem_append.2 ⟨leads, back⟩)).bind fun _ _ =>
        Run.contained_pure _

/-- **The worklist accounts for every path that waits.** -/
theorem exhaust_grows (tells : ∀ trail, (stage trail).Tells c trail (signal trail)) (name : String)
    (depth fuel : Nat) (waiting : List (Path V))
    (hl : ∀ path ∈ waiting, (unclosed whenOver signal).Leads path.trail) :
    ((unclosed whenOver signal).exhaust name depth fuel waiting).Grows c (Path.walkAll stage waiting) := by
  induction fuel generalizing waiting with
  | zero =>
    cases waiting with
    | nil => exact Run.Grows.pure []
    | cons path waiting => exact fun d hd bs hbs => by cases hbs
  | succ fuel ih =>
    cases waiting with
    | nil => exact Run.Grows.pure []
    | cons path waiting =>
      intro d hd bs hbs
      obtain ⟨front, back⟩ := List.forall_mem_cons.1 hl
      rw [(unclosed whenOver signal).exhaust_cons_of_prepare name path depth fuel waiting rfl, front, onward] at hbs ⊢
      obtain ⟨⟨ended, siblings⟩, harrive, hbs⟩ := Run.exists_of_answer_bind_ok hbs
      obtain ⟨others, hothers, hbs⟩ := Run.exists_of_answer_bind_ok hbs
      obtain rfl : ended.toList ++ others = bs := Except.ok.inj hbs
      obtain ⟨accounts, context⟩ := arrived tells name depth hd ended siblings harrive
      have leads := leads_siblings tells front (Run.answers_of_answer harrive)
      obtain ⟨⟨all, hall, rfl, dropped⟩, context'⟩ :=
        ih (siblings ++ waiting) (List.forall_mem_append.2 ⟨leads, back⟩) context hothers
      rw [Path.walkAll_append] at hall
      obtain ⟨here, hhere, hall⟩ := Option.bind_eq_some_iff.1 hall
      obtain ⟨there, hthere, hall⟩ := Option.bind_eq_some_iff.1 hall
      obtain rfl : here ++ there = all := Option.some.inj hall
      obtain ⟨leaves, hleaves, endings, failures⟩ := accounts here hhere
      refine ⟨⟨leaves ++ there, ?_, ?_, ?_⟩, ?_⟩
      · rw [Path.walkAll_cons, hleaves, hthere]
        rfl
      · rw [Leaf.endings_append, Leaf.endings_append, ← endings, List.append_assoc]
      · rw [Run.dropped_bind_of_ok harrive]
        show (_ ++ Outcome.dropped (((unclosed whenOver signal).exhaust name depth fuel _ >>= _) _ _)).Perm _
        rw [Run.dropped_bind_of_ok hothers, Leaf.failures_append]
        show (_ ++ (_ ++ [])).Perm _
        rw [List.append_nil]
        refine (dropped.append_left _).trans ?_
        rw [Leaf.failures_append, ← List.append_assoc]
        exact failures.append_right _
      · rw [Run.context_bind_of_ok harrive]
        exact (congrArg Context.primed (Run.context_bind_of_ok hothers _)).trans context'

end Engine

end Routine

end SymbolicPaths
