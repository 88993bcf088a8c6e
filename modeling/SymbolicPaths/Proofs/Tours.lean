import SymbolicPaths.Proofs.Descent
/-!
# What an engine does on the way

The engine of a routine makes the body ready for every path that it takes up, and carries out the computations
that the body waits for.  Making a body ready may itself do something, and computations may do anything; so how
often the one is done and which of the others are carried out, and in what order, can be observed.  This file
says what is observed.

* `Body.toured` walks down a body and writes down what it does: each application, each end of a path, and each
  time that the body is made ready.  The first branch of a computation goes on with the body that is there; for
  each of the others the body is made ready once more.
* `Body.exhaust_eq_tour`: with enough steps the engine's loop is that walk, outcome by outcome.
* `Body.toured_induction`: what holds of a walk follows from where a path ends and from one node with what lies
  below it.

## Places

A node of the tree is known by its place: which branch was taken at each step on the way there, and what it
sent.  What was sent alone does not tell nodes apart, since two branches of a computation may send the same.
-/

namespace SymbolicPaths

variable {V α β : Type}

/-- Which branches were taken, the first ones in front, and what each of them sent. -/
abbrev Place (V : Type) := List (Nat × V)

/-- What was sent on the way to a place. -/
def Place.trail (place : Place V) : List V := place.map Prod.snd

/-- A path that stands at a place. -/
def Path.standing (place : Place V) (s : Subject V) : Path V := ⟨place.trail, s⟩

/-- The place of a branch. -/
def Place.child (place : Place V) (b : Branch V V × Nat) : Place V := place ++ [(b.2, b.1.value)]

theorem Place.trail_child (place : Place V) (b : Branch V V × Nat) :
    (place.child b).trail = place.trail ++ [b.1.value] := List.map_append ..

theorem Path.standing_child (place : Place V) (b : Branch V V × Nat) :
    Path.standing (place.child b) b.1.state = .sibling place.trail b.1 :=
  congrArg (Path.mk · b.1.state) (place.trail_child b)

/-- What is written down while a body is explored. -/
inductive Station (V α : Type) where
  /-- The body was made ready, to be brought to a place. -/
  | prepared (place : Place V)
  /-- The computation that the body waits for at a place was applied to a state and gave branches. -/
  | applied (place : Place V) (state : Subject V) (branches : Nat)
  /-- The computation that the body waits for at a place was applied to a state, and said that there is
  nothing more to come. -/
  | cut (place : Place V) (state : Subject V) (result : Branch V α)
  /-- The body ended at a place, with a branch or without. -/
  | ended (place : Place V) (result : Option (Branch V α))

namespace Station

/-- The branch that a path ended in. -/
def result? : Station V α → Option (Branch V α)
  | cut _ _ r => some r
  | ended _ r => r
  | _ => none

/-- Whether the body was made ready. -/
def isPrepared : Station V α → Bool
  | prepared _ => true
  | _ => false

/-- Whether a path ended: with the body, because a computation gave no branches, or because it said that
there is nothing more to come. -/
def isEnd : Station V α → Bool
  | prepared _ => false
  | applied _ _ branches => branches == 0
  | cut _ _ _ | ended _ _ => true

/-- How many branches an application gave besides the first. -/
def spare : Station V α → Nat
  | applied _ _ branches => branches - 1
  | _ => 0

/-- The place of a node that was reached. -/
def node? : Station V α → Option (Place V)
  | prepared _ => none
  | applied place _ _ | cut place _ _ | ended place _ => some place

/-- The places of the nodes that were reached, in order. -/
def nodes (stations : List (Station V α)) : List (Place V) := stations.filterMap node?

/-- The branches that paths ended in, in order. -/
def results (stations : List (Station V α)) : List (Branch V α) := stations.filterMap result?

theorem results_append (front back : List (Station V α)) :
    results (front ++ back) = results front ++ results back := List.filterMap_append ..

end Station

namespace Body

/-- The routine that walks down the tree, with something done each time that the body is made ready. -/
def routineAfter (ready : Run V Unit) (whenOver : Option V → α) (b : Body V α) :
    Routine V (Body V α) α :=
  { b.routine whenOver with prepare := ready >>= fun _ => pure b }

/-! ## The walk -/

/-- The first branch goes on with the body that is there; for any other one it is made ready. -/
def readied (ready : Run V Unit) (place : Place V) : Nat → Run V (List (Station V α))
  | 0 => pure []
  | _ + 1 => do
    ready
    return [.prepared place]

/-- Writes down where a computation was applied, before what lies below its branches.  Nothing lies below if it
said that there is nothing more to come. -/
def applied (whenOver : Option V → α) (place : Place V) (s : Subject V)
    (walk : List (Branch V V) → Run V (List (Station V α))) :
    Except (List V) (List (Branch V V)) → Run V (List (Station V α))
  | .error details => pure [.cut place s ⟨s, whenOver details.head?⟩]
  | .ok branches => do
    let below ← walk branches
    return .applied place s branches.length :: below

/-- Walks down a body from a place, and writes down what is done. -/
def toured [Term V] (ready : Run V Unit) (whenOver : Option V → α) (name : String) :
    Body V α → Place V → Subject V → Run V (List (Station V α))
  | finish a, place, s => pure [.ended place (some ⟨s, a⟩)]
  | stop e, place, s => do
    Run.surrender name s e.ofBody
    return [.ended place none]
  | await c next, place, s => do
    let carried ← Run.unlessOver (c.apply s)
    applied whenOver place s (fun branches => Run.flatMap branches.zipIdx fun b => do
      let before ← readied ready (place.child b) b.2
      let stations ← toured ready whenOver name (next b.1.value) (place.child b) b.1.state
      return before ++ stations) carried

/-- Makes a body ready and walks down all of it. -/
def tour [Term V] (ready : Run V Unit) (whenOver : Option V → α) (name : String) (b : Body V α)
    (s : Subject V) : Run V (List (Station V α)) := do
  ready
  let stations ← b.toured ready whenOver name [] s
  return .prepared [] :: stations

theorem bind_joined (x : Run V β) (f : β → Run V (List α)) (y : Run V (List α)) :
    Run.joined (x >>= f) y = x >>= fun a => Run.joined (f a) y := bind_assoc ..

/-- The branches that were written down. -/
def ending (x : Run V (List (Station V α))) : Run V (List (Branch V α)) := do
  return Station.results (← x)

theorem ending_joined (x y : Run V (List (Station V α))) :
    ending (Run.joined x y) = Run.joined (ending x) (ending y) := by
  simp only [ending, Run.joined, bind_assoc, pure_bind, Station.results_append]

section Engine

variable [Term V] (ready : Run V Unit) (whenOver : Option V → α) (name : String) (b : Body V α)

/-- The walk of one branch. -/
def visited (next : V → Body V α) (place : Place V) (br : Branch V V × Nat) :
    Run V (List (Station V α)) := do
  let before ← readied ready (place.child br) br.2
  let stations ← toured ready whenOver name (next br.1.value) (place.child br) br.1.state
  return before ++ stations

theorem ending_visited_zero (next : V → Body V α) (place : Place V) (br : Branch V V) :
    ending (visited ready whenOver name next place (br, 0))
      = ending (toured ready whenOver name (next br.value) (place.child (br, 0)) br.state) := by
  rw [visited, readied, pure_bind]
  exact congrArg ending (bind_pure _)

theorem ending_visited_succ (next : V → Body V α) (place : Place V) (br : Branch V V) (i : Nat) :
    ending (visited ready whenOver name next place (br, i + 1))
      = ready >>= fun _ =>
        ending (toured ready whenOver name (next br.value) (place.child (br, i + 1)) br.state) := by
  simp only [visited, readied, ending, bind_assoc, pure_bind]
  rfl

/-- The walk of a node that waits, followed by something. -/
theorem ending_toured_await_joined (c : Comp V V) (next : V → Body V α) (place : Place V) (s : Subject V)
    (y : Run V (List (Branch V α))) :
    Run.joined (ending ((await c next).toured ready whenOver name place s)) y
      = Run.unlessOver (c.apply s) >>= fun
        | .error details => Run.joined (pure [⟨s, whenOver details.head?⟩]) y
        | .ok branches =>
          Run.joined (ending (Run.flatMap branches.zipIdx (visited ready whenOver name next place))) y := by
  rw [toured, ending, bind_assoc, bind_joined]
  refine bind_congr fun carried => ?_
  cases carried with
  | error details => rfl
  | ok branches =>
    simp only [applied, ending, Run.joined, bind_assoc, pure_bind]
    rfl

/-! ## The engine's loop -/

omit [Term V] in
/-- What is done when a body is made ready does not show in a replay. -/
theorem routineAfter_replay (node : Body V α) (trail : List V) :
    (b.routineAfter ready whenOver).replay node trail = (b.routine whenOver).replay node trail := by
  have fed : ∀ (trail : List V) (signal : Signal V (Body V α) α),
      (b.routineAfter ready whenOver).feed trail signal = (b.routine whenOver).feed trail signal := by
    intro trail
    induction trail with
    | nil => exact fun _ => rfl
    | cons v rest ih => exact fun signal => bind_congr fun next => ih next
  exact bind_congr fun signal => fed trail signal

/-- The loop on paths that wait in front of others. -/
theorem routineAfter_exhaust_cons (limit fuel : Nat) (path : Path V) (waiting : List (Path V)) :
    (b.routineAfter ready whenOver).exhaust name limit (fuel + 1) (path :: waiting) = ready >>= fun _ =>
      (b.routineAfter ready whenOver).onward name limit path limit fuel waiting
        ((b.routine whenOver).replay b path.trail) := by
  rw [Routine.exhaust_cons]
  show (ready >>= fun _ => pure b) >>= _ = _
  rw [bind_assoc]
  refine bind_congr fun _ => ?_
  rw [pure_bind, routineAfter_replay]

/-- The loop from a node that waits. -/
theorem routineAfter_onward_await (depth limit fuel : Nat) (path : Path V) (waiting : List (Path V))
    (c : Comp V V) (next : V → Body V α) :
    (b.routineAfter ready whenOver).onward name (depth + 1) path limit fuel waiting
        (Run.asBody (await c next).signal)
      = Run.unlessOver (c.apply path.state) >>= fun
        | .error details => Run.joined (pure [⟨path.state, whenOver details.head?⟩])
            ((b.routineAfter ready whenOver).exhaust name limit fuel waiting)
        | .ok [] => (b.routineAfter ready whenOver).exhaust name limit fuel waiting
        | .ok (first :: siblings) =>
          (b.routineAfter ready whenOver).onward name depth (.sibling path.trail first) limit fuel
            (siblings.map (.sibling path.trail) ++ waiting) (Run.asBody (next first.value).signal) := by
  rw [← (b.routineAfter ready whenOver).carryOut_pure (await c next) rfl]
  exact (b.routineAfter ready whenOver).onward_awaiting name depth path limit fuel waiting (pure c)
    (await c next)

/-- **What holds of a node**: wherever the routine gets there, the loop from the node on comes to the walk of
the node followed by the loop on the paths that wait, for all numbers of steps from some number on. -/
def Visits (node : Body V α) : Prop :=
  ∀ (place : Place V) (s : Subject V) (τ : Scope V) (k : Context V), b.Leads whenOver place.trail node →
    ∃ enough paths, ∀ depth ≥ enough, ∀ limit ≥ enough, ∀ fuel waiting,
      (b.routineAfter ready whenOver).onward name depth (.standing place s) limit (fuel + paths) waiting
          (Run.asBody node.signal) τ k
        = Run.joined (ending (node.toured ready whenOver name place s))
          ((b.routineAfter ready whenOver).exhaust name limit fuel waiting) τ k

/-- What holds of siblings, the first of which is not the first branch: the loop on them comes to their walks,
one after the other, followed by the loop on the paths that wait behind them. -/
def VisitsAll (place : Place V) (next : V → Body V α) (siblings : List (Branch V V)) : Prop :=
  ∀ (i : Nat) (τ : Scope V) (k : Context V), ∃ enough paths, ∀ limit ≥ enough, ∀ fuel waiting,
    (b.routineAfter ready whenOver).exhaust name limit (fuel + paths)
        (siblings.map (.sibling place.trail) ++ waiting) τ k
      = Run.joined (ending (Run.flatMap (siblings.zipIdx (i + 1)) (visited ready whenOver name next place)))
        ((b.routineAfter ready whenOver).exhaust name limit fuel waiting) τ k

variable {ready whenOver name b}

/-- The loop from one of several branches comes to its walk and those of the branches after it, if it does so
on the latter. -/
theorem onward_branch {place : Place V} {c : Comp V V} {next : V → Body V α} {br : Branch V V}
    {siblings : List (Branch V V)} (hl : b.Leads whenOver place.trail (await c next))
    (hbr : b.Visits ready whenOver name (next br.value))
    (hsiblings : b.VisitsAll ready whenOver name place next siblings) (i : Nat) (τ : Scope V) (k : Context V) :
    ∃ enough paths, ∀ depth ≥ enough, ∀ limit ≥ enough, ∀ fuel waiting,
      (b.routineAfter ready whenOver).onward name depth (.sibling place.trail br) limit (fuel + paths)
          (siblings.map (.sibling place.trail) ++ waiting) (Run.asBody (next br.value).signal) τ k
        = Run.joined (Run.joined (ending (toured ready whenOver name (next br.value) (place.child (br, i)) br.state))
            (ending (Run.flatMap (siblings.zipIdx (i + 1)) (visited ready whenOver name next place))))
          ((b.routineAfter ready whenOver).exhaust name limit fuel waiting) τ k := by
  have leads : b.Leads whenOver (place.child (br, i)).trail (next br.value) := by
    rw [Place.trail_child]
    exact hl.concat br.value
  obtain ⟨here, used, hhere⟩ := hbr (place.child (br, i)) br.state τ k leads
  obtain ⟨later, more, hlater⟩ := hsiblings i τ
    (ending (toured ready whenOver name (next br.value) (place.child (br, i)) br.state) τ k).context
  refine ⟨max here later, more + used, fun depth hd limit hlimit fuel waiting => ?_⟩
  have walked := hhere depth (by omega) limit (by omega) (fuel + more)
    (siblings.map (.sibling place.trail) ++ waiting)
  rw [Path.standing_child] at walked
  rw [← Nat.add_assoc, Run.joined_assoc]
  exact walked.trans (Run.joined_apply_congr fun _ _ => hlater limit (by omega) fuel waiting)

theorem visitsAll {place : Place V} {c : Comp V V} {next : V → Body V α}
    (hl : b.Leads whenOver place.trail (await c next)) (hvisits : ∀ v, b.Visits ready whenOver name (next v))
    (siblings : List (Branch V V)) : b.VisitsAll ready whenOver name place next siblings := by
  induction siblings with
  | nil =>
    intro i τ k
    refine ⟨0, 0, fun limit _ fuel waiting => ?_⟩
    exact congrFun (congrFun (Run.nil_joined _).symm τ) k
  | cons br rest ih =>
    intro i τ k
    have leads : b.Leads whenOver (Path.sibling place.trail br).trail (next br.value) := hl.concat br.value
    obtain ⟨enough, paths, hbr⟩ := onward_branch hl (hvisits br.value) ih (i + 1) τ (ready τ k).context
    refine ⟨enough, paths + 1, fun limit hlimit fuel waiting => ?_⟩
    rw [← Nat.add_assoc, List.map_cons, List.cons_append, routineAfter_exhaust_cons, leads, List.zipIdx_cons,
      Run.flatMap_cons_eq_joined, ending_joined, ending_visited_succ]
    rw [bind_joined, bind_joined]
    exact Run.bind_apply_congr fun _ _ => hbr limit hlimit limit hlimit fuel waiting

/-- **The loop from a node on is the walk of the node**, followed by what was waiting. -/
theorem visits (node : Body V α) : b.Visits ready whenOver name node := by
  induction node with
  | finish a =>
    intro place s τ k _
    refine ⟨0, 0, fun depth _ limit _ fuel waiting => ?_⟩
    exact congrFun (congrFun ((b.routineAfter ready whenOver).onward_finished name depth (.standing place s) limit
      fuel waiting a) τ) k
  | stop e =>
    intro place s τ k _
    refine ⟨0, 0, fun depth _ limit _ fuel waiting => ?_⟩
    have stopped : ending ((stop e : Body V α).toured ready whenOver name place s)
        = Run.surrender name s e.ofBody >>= fun _ => pure [] := by
      rw [toured, ending, bind_assoc]
      rfl
    rw [stopped]
    exact congrFun (congrFun ((b.routineAfter ready whenOver).onward_stop name depth (.standing place s) limit fuel
      waiting e.ofBody) τ) k
  | await c next ih =>
    intro place s τ k hl
    -- what the computation answers decides how many steps are needed
    rcases ha : (Run.unlessOver (c.apply s) τ k).answer with e | details | _ | ⟨first, siblings⟩
    · refine ⟨1, 0, fun depth hd limit _ fuel waiting => ?_⟩
      obtain ⟨depth, rfl⟩ := Nat.exists_eq_add_of_le' hd
      rw [routineAfter_onward_await, ending_toured_await_joined]
      exact Run.bind_apply_congr fun carried hc => by cases ha.symm.trans hc
    · refine ⟨1, 0, fun depth hd limit _ fuel waiting => ?_⟩
      obtain ⟨depth, rfl⟩ := Nat.exists_eq_add_of_le' hd
      rw [routineAfter_onward_await, ending_toured_await_joined]
      refine Run.bind_apply_congr fun carried hc => ?_
      cases ha.symm.trans hc
      rfl
    · refine ⟨1, 0, fun depth hd limit _ fuel waiting => ?_⟩
      obtain ⟨depth, rfl⟩ := Nat.exists_eq_add_of_le' hd
      rw [routineAfter_onward_await, ending_toured_await_joined]
      refine Run.bind_apply_congr fun carried hc => ?_
      cases ha.symm.trans hc
      exact congrFun (congrFun (Run.nil_joined _).symm τ) _
    · obtain ⟨enough, paths, hvisit⟩ := onward_branch hl (ih first.value) (visitsAll hl ih siblings) 0 τ
        (c.apply s τ k).context
      refine ⟨enough + 1, paths, fun depth hd limit hlimit fuel waiting => ?_⟩
      obtain ⟨depth, rfl⟩ : ∃ d, depth = d + 1 := ⟨depth - 1, by omega⟩
      rw [routineAfter_onward_await, ending_toured_await_joined]
      refine Run.bind_apply_congr fun carried hc => ?_
      cases ha.symm.trans hc
      show _ = Run.joined (ending (Run.flatMap (List.zipIdx (first :: siblings)) _)) _ τ _
      rw [List.zipIdx_cons, Run.flatMap_cons_eq_joined, ending_joined, ending_visited_zero]
      exact hvisit depth (by omega) limit (by omega) fuel waiting

/-- **The engine tours.**  With enough steps its loop does what the walk does, in every scope and context, and
whatever is done when the body is made ready. -/
theorem exhaust_eq_tour (ready : Run V Unit) (whenOver : Option V → α) (name : String) (b : Body V α)
    (s : Subject V) (τ : Scope V) (k : Context V) : ∃ steps, ∀ fuel ≥ steps,
      (b.routineAfter ready whenOver).exhaust name fuel fuel [⟨[], s⟩] τ k
        = ending (b.tour ready whenOver name s) τ k := by
  have start : b.Visits ready whenOver name b := visits b
  obtain ⟨enough, paths, hvisits⟩ := start [] s τ (ready τ k).context (b.leads_nil whenOver)
  refine ⟨enough + paths + 1, fun fuel hfuel => ?_⟩
  obtain ⟨rest, rfl⟩ : ∃ rest, fuel = rest + paths + 1 := ⟨fuel - paths - 1, by omega⟩
  have leads : (b.routine whenOver).replay b [] = Run.asBody b.signal := b.leads_nil whenOver
  have toured : ending (b.tour ready whenOver name s)
      = ready >>= fun _ => ending (b.toured ready whenOver name [] s) := by
    simp only [tour, ending, bind_assoc, pure_bind]
    rfl
  rw [routineAfter_exhaust_cons, leads, toured]
  refine Run.bind_apply_congr fun _ _ => ?_
  have walked := hvisits (rest + paths + 1) (by omega) (rest + paths + 1) (by omega) rest []
  rw [Routine.exhaust_nil, Run.joined_nil] at walked
  exact walked

end Engine

/-! ## What was written down -/

/-- At every node that waits, a list of branches that the computation gives is as `D` says. -/
def Branching [Term V] (D : List (Branch V V) → Prop) : Body V α → Prop
  | finish _ => True
  | stop _ => True
  | await c next => (∀ s branches, (c.apply s).Answers branches → D branches) ∧ ∀ v, (next v).Branching D

/-- What is written down below a place, for some of the branches there: for each of them what `P` says of its
place, and that the body was made ready if it is not the first. -/
inductive Below (P : Place V → List (Station V α) → Prop) (place : Place V) :
    List (Branch V V × Nat) → List (Station V α) → Prop
  | nil : Below P place [] []
  | first {br : Branch V V} {rest : List (Branch V V × Nat)} {stations below : List (Station V α)}
      (here : P (place.child (br, 0)) stations) (others : Below P place rest below) :
      Below P place ((br, 0) :: rest) (stations ++ below)
  | later {br : Branch V V} {i : Nat} {rest : List (Branch V V × Nat)} {stations below : List (Station V α)}
      (here : P (place.child (br, i + 1)) stations) (others : Below P place rest below) :
      Below P place ((br, i + 1) :: rest) (.prepared (place.child (br, i + 1)) :: (stations ++ below))

/-- What is written down below a place is joined from what each branch adds, and for all branches but the first
one the body is made ready before. -/
@[elab_as_elim]
theorem Below.joined {P : Place V → List (Station V α) → Prop}
    {motive : List (Branch V V × Nat) → List (Station V α) → Prop} {place : Place V}
    {items : List (Branch V V × Nat)} {below : List (Station V α)} (h : Below P place items below)
    (nil : motive [] [])
    (joined : ∀ br rest stations below, P (place.child br) stations → motive rest below →
      motive (br :: rest) (stations ++ below))
    (prepared : ∀ items q below, motive items below → motive items (.prepared q :: below)) :
    motive items below := by
  induction h with
  | nil => exact nil
  | first here others ih => exact joined _ _ _ _ here ih
  | later here others ih => exact prepared _ _ _ (joined _ _ _ _ here ih)

/-- What the walks of some branches write down. -/
theorem below_of_answers [Term V] {ready : Run V Unit} {whenOver : Option V → α} {name : String}
    {next : V → Body V α} {place : Place V} {P : Place V → List (Station V α) → Prop}
    (hP : ∀ (br : Branch V V × Nat) stations,
      (toured ready whenOver name (next br.1.value) (place.child br) br.1.state).Answers stations →
      P (place.child br) stations)
    {items : List (Branch V V × Nat)} {below : List (Station V α)}
    (h : (Run.flatMap items (visited ready whenOver name next place)).Answers below) : Below P place items below := by
  obtain ⟨σ, k, h⟩ := h
  induction items generalizing below k with
  | nil =>
    obtain rfl := Except.ok.inj h
    exact .nil
  | cons br rest ih =>
    obtain ⟨here, hhere, h'⟩ := Run.exists_of_answer_bind_ok h
    obtain ⟨others, hothers, h''⟩ := Run.exists_of_answer_bind_ok h'
    obtain rfl := Except.ok.inj h''
    obtain ⟨before, hbefore, hvisit⟩ := Run.exists_of_answer_bind_ok hhere
    obtain ⟨stations, hstations, hvisit'⟩ := Run.exists_of_answer_bind_ok hvisit
    obtain rfl := Except.ok.inj hvisit'
    have branch := hP br stations (Run.answers_of_answer hstations)
    obtain ⟨br, _ | i⟩ := br
    · obtain rfl := Except.ok.inj hbefore
      exact .first branch (ih _ hothers)
    · obtain ⟨_, -, hready⟩ := Run.exists_of_answer_bind_ok hbefore
      obtain rfl := Except.ok.inj hready
      exact .later branch (ih _ hothers)

/-- **Induction on a walk**: what holds where a path ends, and at a node if it holds below, holds of all that
is written down. -/
theorem toured_induction [Term V] {ready : Run V Unit} {whenOver : Option V → α} {name : String}
    {D : List (Branch V V) → Prop} {P : Place V → List (Station V α) → Prop}
    (ended : ∀ place r, P place [.ended place r]) (cut : ∀ place s r, P place [.cut place s r])
    (applied : ∀ place s branches below, D branches → Below P place branches.zipIdx below →
      P place (.applied place s branches.length :: below))
    {b : Body V α} (hb : b.Branching D) (place : Place V) (s : Subject V) {stations : List (Station V α)}
    (h : (b.toured ready whenOver name place s).Answers stations) : P place stations := by
  induction b generalizing place s stations with
  | finish a =>
    obtain ⟨σ, k, h⟩ := h
    obtain rfl := Except.ok.inj h
    exact ended place _
  | stop e =>
    obtain ⟨σ, k, h⟩ := h
    obtain ⟨_, -, h'⟩ := Run.exists_of_answer_bind_ok h
    obtain rfl := Except.ok.inj h'
    exact ended place none
  | await c next ih =>
    obtain ⟨σ, k, h⟩ := h
    rw [toured] at h
    obtain ⟨carried, hcarried, h'⟩ := Run.exists_of_answer_bind_ok h
    cases carried with
    | error details =>
      obtain rfl := Except.ok.inj h'
      exact cut place s _
    | ok branches =>
      obtain ⟨below, hbelow, h''⟩ := Run.exists_of_answer_bind_ok h'
      obtain rfl := Except.ok.inj h''
      have given := Run.answers_of_unlessOver (Run.answers_of_answer hcarried)
      refine applied place s branches below (hb.1 s branches given) ?_
      exact below_of_answers (fun br _ => ih br.1.value (hb.2 br.1.value) (place.child br) br.1.state)
        (Run.answers_of_answer hbelow)

end Body

end SymbolicPaths
