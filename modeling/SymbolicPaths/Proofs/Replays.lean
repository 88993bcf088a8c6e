import SymbolicPaths.Proofs.Twins
import SymbolicPaths.Proofs.Worklist
/-!
# Routines side by side

Two routines are compared whose bodies go through the same steps, except that either of them may wait for
a computation that does nothing but compress the heap where the other one does not wait.  A point of one
body and a point of the other, each told by the values that were sent so far, are compared by
`Routine.Strides`: what the bodies do there is alike, possibly after some such extra steps.  The extra steps
in front of one point are finitely many, which is why the relation is inductive; how often the bodies go on
is up to them, so the relation from one point to the next is a parameter.

An engine that carries out extra steps needs more steps for a path and has longer values to replay, so the
two engines are compared with what waits for them, path by path, and the second one with any number of steps
already used up.  The induction is on the number of paths that the first engine may take, on the steps that
it may take on the path in hand, and on the extra steps in front of it.
-/

namespace SymbolicPaths

open Filter (atTop eventually_gt_atTop)

variable {V α β : Type} [Term V]

namespace Routine

/-- What two bodies do at two points is alike, after finitely many steps that only one of them takes.
`T` relates the points that are reached next. -/
inductive Strides (L : Likeness V) (B : α → β → Prop) (T : List V → List V → Prop)
    (r : Routine V (List V) α) (r' : Nat → Routine V (List V) β) : List V → List V → Prop
  | yields {t t' : List V} {A : V → V → Prop} {m : Comp V V} {m' : Nat → Comp V V}
      (h : r.start t = pure (.awaiting (pure m) t))
      (h' : ∀ n, (r' n).start t' = pure (.awaiting (pure (m' n)) t'))
      (twin : ∀ {s s'}, L.Subjects s s' →
        Run.Twin L (L.BranchLists A) (m.apply s) fun n => (m' n).apply s')
      (closing : Run.Twin L (fun _ _ => True) (r.release t) fun n => (r' n).release t')
      (next : ∀ v v', A v v' → T (t ++ [v]) (t' ++ [v'])) : Strides L B T r r' t t'
  | returns {t t' : List V} {a : α} {b : β} (h : r.start t = pure (.finished a))
      (h' : ∀ n, (r' n).start t' = pure (.finished b)) (hab : B a b) : Strides L B T r r' t t'
  | raises {t t' : List V} (e : Fault V) (h : r.start t = Run.stop e) (h' : ∀ n, (r' n).start t' = Run.stop e) :
      Strides L B T r r' t t'
  | extraLeft {t t' : List V} (hL : L.lax) {m : Comp V V} {v : V} (h : r.start t = pure (.awaiting (pure m) t))
      (pads : ∀ {s s'}, L.Subjects s s' → ∃ u, L.Subjects u s' ∧ (m.apply s).Comes L.policy (.ok [⟨u, v⟩]))
      (rest : Strides L B T r r' (t ++ [v]) t') : Strides L B T r r' t t'
  | extraRight {t t' : List V} (hL : L.lax) {m' : Nat → Comp V V} {v : V}
      (h' : ∀ n, (r' n).start t' = pure (.awaiting (pure (m' n)) t'))
      (pads : ∀ {s s'}, L.Subjects s s' →
        ∃ u, L.Subjects s u ∧ ∀ n, ((m' n).apply s').Comes L.policy (.ok [⟨u, v⟩]))
      (rest : Strides L B T r r' t (t' ++ [v])) : Strides L B T r r' t t'

/-- Two routines that keep nothing of their bodies but what these were sent, and take the same for the end of
a path. -/
structure Abreast (B : α → β → Prop) (r : Routine V (List V) α) (r' : Nat → Routine V (List V) β) : Prop where
  left : r.Functional
  right : ∀ n, (r' n).Functional
  whenOver : ∀ details, ∃ b, B (r.whenOver details) b ∧ ∀ n, (r' n).whenOver details = b

/-- Paths that wait in two engines and go on alike. -/
structure Waiting (L : Likeness V) (B : α → β → Prop) (T : List V → List V → Prop)
    (r : Routine V (List V) α) (r' : Nat → Routine V (List V) β) (path path' : Path V) : Prop where
  strides : Strides L B T r r' path.trail path'.trail
  states : L.Subjects path.state path'.state
  leads : r.Leads path.trail
  leads' : ∀ n, (r' n).Leads path'.trail

variable {L : Likeness V} {B : α → β → Prop} {T : List V → List V → Prop}
  {r : Routine V (List V) α} {r' : Nat → Routine V (List V) β}

open Run (Twin)

omit [Term V] in
/-- Any number of steps is left over from enough steps. -/
theorem eventually_sub_succ (a : Nat) : ∀ᶠ n in atTop, n - a = (n - (a + 1)) + 1 := by
  filter_upwards [eventually_gt_atTop a] with n hn
  omega

/-- Bodies wait for twins alike, and are let go of alike. -/
theorem carryOut_twin {A : V → V → Prop} {m : Comp V V} {m' : Nat → Comp V V} {t t' : List V}
    {s s' : Subject V} (h : Twin L (L.BranchLists A) (m.apply s) fun n => (m' n).apply s')
    (closing : Twin L (fun _ _ => True) (r.release t) fun n => (r' n).release t') :
    Twin L (Answered (L.BranchLists A)) (r.carryOut (pure m) t s)
      fun n => (r' n).carryOut (pure (m' n)) t' s' := by
  have applied : Twin L (Answered (L.BranchLists A))
      (Run.unlessOver ((pure m : Run V (Comp V V)) >>= fun m => m.apply s))
      fun n => Run.unlessOver ((pure (m' n) : Run V (Comp V V)) >>= fun m => m.apply s') := by
    simp only [pure_bind]
    exact h.unlessOver
  refine applied.afterUnless (fun carried carried' related => ?_) closing.asBody
  cases related with
  | error details => rfl
  | ok branches => cases branches <;> rfl

/-- A body is gone on with where the computation that it waits for comes to a branch. -/
theorem carryOut_comes {policy : Policy V} {m : Comp V V} {t : List V} {s u : Subject V} {v : V}
    (h : (m.apply s).Comes policy (.ok [⟨u, v⟩])) :
    (r.carryOut (pure m) t s).Comes policy (.ok (.ok [⟨u, v⟩])) := by
  rw [carryOut, pure_bind]
  exact h.unlessOver.afterUnless rfl _

section Engines

variable (L B T r r') (name name' : String) (limit fuel b : Nat)

/-- Whatever waits is worked off alike by two engines, of which the second one has used up `b` steps. -/
def WorkedOff : Prop :=
  ∀ ⦃waiting waiting' : List (Path V)⦄, List.Forall₂ (Waiting L B T r r') waiting waiting' →
    Twin L (L.BranchLists B) (r.exhaust name limit fuel waiting)
      fun n => (r' n).exhaust name' n (n - b) waiting'

/-- From two paths in hand the engines go on alike; the second one has used up `a` steps on its path. -/
def TakenOn (depth a : Nat) (path path' : Path V) (waiting waiting' : List (Path V)) : Prop :=
  Twin L (L.BranchLists B)
    (r.onward name depth path limit fuel waiting (Run.asBody (r.start path.trail)))
    fun n => (r' n).onward name' (n - a) path' n (n - b) waiting' (Run.asBody ((r' n).start path'.trail))

variable {L B T r r' name name' limit fuel b} {depth a : Nat} {path path' : Path V}
  {waiting waiting' : List (Path V)}

/-- A body that waits, in an engine with a step left for it. -/
theorem onward_waiting (path : Path V) {r : Routine V (List V) α} (hr : r.Functional) {m : Comp V V}
    (h : r.start path.trail = pure (.awaiting (pure m) path.trail)) :
    r.onward name (depth + 1) path limit fuel waiting (Run.asBody (r.start path.trail))
      = r.carryOut (pure m) path.trail path.state >>= fun
        | .error details => Run.joined (pure [⟨path.state, r.whenOver details.head?⟩])
            (r.exhaust name limit fuel waiting)
        | .ok [] => r.exhaust name limit fuel waiting
        | .ok (first :: siblings) =>
          r.onward name depth (.sibling path.trail first) limit fuel
            (siblings.map (.sibling path.trail) ++ waiting)
            (Run.asBody (r.start (path.trail ++ [first.value]))) := by
  rw [h, Run.asBody_pure, onward_awaiting]
  refine bind_congr fun carried => ?_
  match carried with
  | .error details => rfl
  | .ok [] => rfl
  | .ok (first :: siblings) =>
    show r.onward name depth _ limit fuel _ (Run.asBody (r.resume path.trail first.value)) = _
    rw [hr.resume]

/-- The second engine has a step left to wait for a computation. -/
theorem onward_eventually_waiting (path' : Path V) (hr : ∀ n, (r' n).Functional) {m' : Nat → Comp V V}
    (h' : ∀ n, (r' n).start path'.trail = pure (.awaiting (pure (m' n)) path'.trail)) :
    ∀ᶠ n in atTop,
      (r' n).onward name' (n - a) path' n (n - b) waiting' (Run.asBody ((r' n).start path'.trail))
        = (r' n).carryOut (pure (m' n)) path'.trail path'.state >>= fun
          | .error details => Run.joined (pure [⟨path'.state, (r' n).whenOver details.head?⟩])
              ((r' n).exhaust name' n (n - b) waiting')
          | .ok [] => (r' n).exhaust name' n (n - b) waiting'
          | .ok (first :: siblings) =>
            (r' n).onward name' (n - (a + 1)) (.sibling path'.trail first) n (n - b)
              (siblings.map (.sibling path'.trail) ++ waiting')
              (Run.asBody ((r' n).start (path'.trail ++ [first.value]))) := by
  filter_upwards [eventually_sub_succ a] with n hn
  rw [hn]
  exact onward_waiting path' (hr n) (h' n)

/-- Paths that end in related branches, with what waits behind them. -/
theorem twin_ended {x : α} {y : β} {s s' : Subject V} (hs : L.Subjects s s') (hxy : B x y)
    (behind : Twin L (L.BranchLists B) (r.exhaust name limit fuel waiting)
      fun n => (r' n).exhaust name' n (n - b) waiting') :
    Twin L (L.BranchLists B) (Run.joined (pure [⟨s, x⟩]) (r.exhaust name limit fuel waiting))
      fun n => Run.joined (pure [⟨s', y⟩]) ((r' n).exhaust name' n (n - b) waiting') := by
  have ended : Twin L (L.BranchLists B) (pure [⟨s, x⟩]) fun _ => pure [⟨s', y⟩] :=
    .pure (.cons ⟨hs, hxy⟩ .nil)
  exact ended.joined behind

theorem takenOn_of_returns {x : α} {y : β} (h : r.start path.trail = pure (.finished x))
    (h' : ∀ n, (r' n).start path'.trail = pure (.finished y)) (hxy : B x y)
    (hs : L.Subjects path.state path'.state)
    (behind : Twin L (L.BranchLists B) (r.exhaust name limit fuel waiting)
      fun n => (r' n).exhaust name' n (n - b) waiting') :
    TakenOn L B r r' name name' limit fuel b depth a path path' waiting waiting' := by
  rw [TakenOn, h, Run.asBody_pure, onward_finished]
  refine (twin_ended hs hxy behind).of_eventually (.of_forall fun n => ?_)
  rw [h' n, Run.asBody_pure, onward_finished]

theorem takenOn_of_raises {e : Fault V} (h : r.start path.trail = Run.stop e)
    (h' : ∀ n, (r' n).start path'.trail = Run.stop e) (hs : L.Subjects path.state path'.state)
    (behind : Twin L (L.BranchLists B) (r.exhaust name limit fuel waiting)
      fun n => (r' n).exhaust name' n (n - b) waiting') :
    TakenOn L B r r' name name' limit fuel b depth a path path' waiting waiting' := by
  have given : Twin L (L.BranchLists B) (Run.surrender name path.state e.ofBody >>= fun _ => pure [])
      fun _ => Run.surrender name' path'.state e.ofBody >>= fun _ => pure [] :=
    (Twin.surrender name (fun _ => name') hs e.ofBody).bind fun _ _ _ => .pure .nil
  rw [TakenOn, h, Run.asBody_stop, onward_stop]
  refine (given.joined behind).of_eventually (.of_forall fun n => ?_)
  rw [h' n, Run.asBody_stop, onward_stop]

/-- The siblings of related branches wait to go on alike. -/
theorem forall₂_waiting (hr : Abreast B r r') {t t' : List V} {A : V → V → Prop} {m : Comp V V}
    {m' : Nat → Comp V V} (hT : ∀ t t', T t t' → Strides L B T r r' t t')
    (h : r.start t = pure (.awaiting (pure m) t)) (h' : ∀ n, (r' n).start t' = pure (.awaiting (pure (m' n)) t'))
    (next : ∀ v v', A v v' → T (t ++ [v]) (t' ++ [v'])) (leads : r.Leads t)
    (leads' : ∀ n, (r' n).Leads t') {bs bs' : List (Branch V V)} (hbs : L.BranchLists A bs bs') :
    List.Forall₂ (Waiting L B T r r') (bs.map (.sibling t)) (bs'.map (.sibling t')) := by
  refine List.forall₂_map_left_iff.2 (List.forall₂_map_right_iff.2 (hbs.imp fun first first' hfirst => ?_))
  exact ⟨hT _ _ (next _ _ hfirst.value), hfirst.state,
    leads.concat hr.left (congrArg Run.asBody h) first.value,
    fun n => (leads' n).concat (hr.right n) (congrArg Run.asBody (h' n)) first'.value⟩

/-- **Paths are taken to their ends alike**, and so is whatever waits behind them. -/
theorem takenOn (hr : Abreast B r r') (hT : ∀ t t', T t t' → Strides L B T r r' t t')
    (behind : WorkedOff L B T r r' name name' limit fuel b) {t t' : List V} {s s' : Subject V}
    (strides : Strides L B T r r' t t') (hs : L.Subjects s s') (leads : r.Leads t)
    (leads' : ∀ n, (r' n).Leads t') (hwaiting : List.Forall₂ (Waiting L B T r r') waiting waiting') :
    TakenOn L B r r' name name' limit fuel b depth a ⟨t, s⟩ ⟨t', s'⟩ waiting waiting' := by
  induction depth using Nat.strong_induction_on generalizing a t t' s s' waiting waiting' with
  | _ depth ih =>
    induction strides generalizing a s s' with
    | returns h h' hab => exact takenOn_of_returns h h' hab hs (behind hwaiting)
    | raises e h h' => exact takenOn_of_raises h h' hs (behind hwaiting)
    | @yields t t' A m m' h h' twin closing next =>
      cases depth with
      | zero =>
        rw [TakenOn, h, Run.asBody_pure, onward_awaiting_zero]
        exact .exhausted
      | succ depth =>
        rw [TakenOn, onward_waiting ⟨t, s⟩ hr.left h]
        refine Twin.of_eventually ?_ (onward_eventually_waiting ⟨t', s'⟩ hr.right h')
        refine (carryOut_twin (twin hs) closing).bind fun carried carried' hcarried => ?_
        cases hcarried with
        | error details =>
          obtain ⟨result, related, same⟩ := hr.whenOver details.head?
          simp only [same]
          exact twin_ended hs related (behind hwaiting)
        | ok hbs =>
          cases hbs with
          | nil => exact behind hwaiting
          | @cons first first' siblings siblings' hfirst hsiblings =>
            have wait := forall₂_waiting hr hT h h' next leads leads' hsiblings
            exact ih depth (Nat.lt_succ_self depth) (hT _ _ (next _ _ hfirst.value)) hfirst.state
              (leads.concat hr.left (congrArg Run.asBody h) first.value)
              (fun n => (leads' n).concat (hr.right n) (congrArg Run.asBody (h' n)) first'.value)
              (List.rel_append wait hwaiting)
    | @extraLeft t t' hL m v h pads rest _ =>
      cases depth with
      | zero =>
        rw [TakenOn, h, Run.asBody_pure, onward_awaiting_zero]
        exact .exhausted
      | succ depth =>
        obtain ⟨u, hu, comes⟩ := pads hs
        rw [TakenOn, onward_waiting ⟨t, s⟩ hr.left h]
        exact .skip_left hL (carryOut_comes comes) (ih depth (Nat.lt_succ_self depth) rest hu
          (leads.concat hr.left (congrArg Run.asBody h) v) leads' hwaiting)
    | @extraRight t t' hL m' v h' pads rest later =>
      obtain ⟨u, hu, comes⟩ := pads hs
      refine Twin.of_eventually ?_ (onward_eventually_waiting ⟨t', s'⟩ hr.right h')
      exact .skip_right hL (fun n => carryOut_comes (comes n)) (later hu leads fun n =>
        (leads' n).concat (hr.right n) (congrArg Run.asBody (h' n)) v)

theorem twin_exhaust_nil : Twin L (L.BranchLists B) (r.exhaust name limit fuel [])
    fun n => (r' n).exhaust name' n (n - b) [] := by
  simp only [exhaust_nil]
  exact .pure .nil

/-- **Worklists are worked off alike.** -/
theorem workedOff (hr : Abreast B r r') (hT : ∀ t t', T t t' → Strides L B T r r' t t') :
    WorkedOff L B T r r' name name' limit fuel b := by
  induction fuel generalizing b with
  | zero =>
    intro waiting waiting' hwaiting
    cases hwaiting with
    | nil => exact twin_exhaust_nil
    | cons hpath hwaiting => exact .exhausted
  | succ fuel ih =>
    intro waiting waiting' hwaiting
    cases hwaiting with
    | nil => exact twin_exhaust_nil
    | @cons path path' waiting waiting' hpath hwaiting =>
      have next : ∀ᶠ n in atTop, (r' n).exhaust name' n (n - b) (path' :: waiting')
          = (r' n).onward name' (n - 0) path' n (n - (b + 1)) waiting'
            (Run.asBody ((r' n).start path'.trail)) := by
        filter_upwards [eventually_sub_succ b] with n hn
        rw [hn, (r' n).exhaust_cons_of_prepare name' path' n (n - (b + 1)) waiting' (hr.right n).prepare,
          hpath.leads' n]
        rfl
      rw [r.exhaust_cons_of_prepare name path limit fuel waiting hr.left.prepare, hpath.leads]
      refine Twin.of_eventually ?_ next
      exact takenOn hr hT ih hpath.strides hpath.states hpath.leads hpath.leads' hwaiting

/-- **Routines are twins** if their bodies go through the same steps, extra ones apart. -/
theorem comp_twin {s s' : Subject V} (hr : Abreast B r r') (hT : ∀ t t', T t t' → Strides L B T r r' t t')
    (start : T [] []) (hs : L.Subjects s s') :
    Twin L (L.BranchLists B) ((r.comp name fuel).body s) fun n => ((r' n).comp name' n).body s' := by
  have waiting : List.Forall₂ (Waiting L B T r r') [⟨[], s⟩] [⟨[], s'⟩] :=
    .cons ⟨hT _ _ start, hs, leads_nil r, fun n => leads_nil (r' n)⟩ .nil
  exact workedOff (b := 0) hr hT waiting

end Engines

end Routine

end SymbolicPaths
