import SymbolicPaths.Routine
import SymbolicPaths.Proofs.Guard
/-!
# The engine of routines

A routine is carried out by an engine with a worklist: the first branch goes on with the body that is
running, and every other branch waits to be replayed.  This file takes the engine apart.

* `Routine.arrive` takes a path to its end from wherever the body gets to, and leaves siblings waiting.
  It has one equation for each thing that a body can do: to end, to be stopped, and to wait for a
  computation.
* `Routine.onward` is what the loop does with the path in front: it arrives, and works off what waits
  then.  Its equations say where the siblings of a path go: in front of all that waited before.
-/

namespace SymbolicPaths

variable {V σ α : Type}

namespace Run

/-- To do nothing after a run is to do nothing. -/
theorem afterUnless_pure (keep : α → Bool) (x : Run V α) :
    Run.afterUnless keep (pure ()) x = x := by
  have nothing : ∀ answer : Except (Fault V) α, parting keep (pure ()) answer = ofExcept answer := by
    rintro (e | a)
    · rfl
    · rw [parting]
      split <;> rfl
  funext τ c
  show Run.bind (attempt x) _ τ c = x τ c
  rcases h : x τ c with ⟨(f | d | _) | a, c', events⟩ <;>
    simp [Run.bind, attempt, h, nothing, ofExcept]

/-- What a guard makes of a fault: a failure is reported if the mode says so, anything else goes
on. -/
def surrender (computation : String) (state : Subject V) : Fault V → Run V Unit
  | .failure f => do
    match ← mode with
    | .guarded => report computation state f
    | .raw => stop (.failure f)
  | e => stop e

theorem guarding_stop (n : String) (s : Subject V) (e : Fault V) :
    guarding n s (stop e : Run V α) = surrender n s e >>= fun _ => pure none := by
  cases e with
  | defect d => exact guarding_of_contained (contained_stop fun f h => by cases h) n s
  | exhausted => exact guarding_of_contained (contained_stop fun f h => by cases h) n s
  | failure f =>
    funext τ c
    show _ = Run.bind (mode >>= _) _ τ c
    cases hm : τ.mode with
    | raw =>
      rw [guarding_apply_of_raw n s _ hm, Run.bind, mode_bind, hm]
      rfl
    | guarded =>
      rw [guarding_apply_of_guarded n s _ hm, Run.bind, mode_bind, hm,
        bind_apply_of_ok (confine_apply (stop (.failure f)) τ c)]
      rfl

/-- A guard holds every failure that it is given. -/
theorem contained_surrender (n : String) (s : Subject V) (e : Fault V) : (surrender n s e).Contained := by
  intro τ hm c f
  cases e with
  | failure g =>
    rw [surrender, mode_bind, hm]
    exact contained_report n s g hm c f
  | defect d => exact contained_reject d hm c f
  | exhausted => exact contained_stop (fun g h => by cases h) hm c f

end Run

/-- The path of a sibling: it has sent what the path in hand has sent, and its own result. -/
def Path.sibling (trail : List V) (b : Branch V V) : Path V := ⟨trail ++ [b.value], b.state⟩

namespace Routine

theorem feed_append (r : Routine V σ α) (front back : List V) (signal : Signal V σ α) :
    r.feed (front ++ back) signal = r.feed front signal >>= r.feed back := by
  induction front generalizing signal with
  | nil => rfl
  | cons v front ih =>
    simp only [List.cons_append, feed, bind_assoc]
    exact bind_congr fun next => ih next

/-- A replay of one more value sends it where the replay of the others ends. -/
theorem replay_concat (r : Routine V σ α) (ready : σ) (trail : List V) (v : V) :
    r.replay ready (trail ++ [v]) = r.replay ready trail >>= r.send v := by
  have parts : r.feed (trail ++ [v]) = fun signal => r.feed trail signal >>= r.send v :=
    funext fun signal => by
      rw [feed_append]
      refine bind_congr fun next => ?_
      exact bind_pure (r.send v next)
  show Run.asBody (r.start ready) >>= r.feed (trail ++ [v])
    = (Run.asBody (r.start ready) >>= r.feed trail) >>= r.send v
  rw [parts, ← bind_assoc]

variable [Term V] (r : Routine V σ α) (name : String)

/-- What a body waits for, if it is a computation at hand and the body is let go of by doing nothing. -/
theorem carryOut_pure (paused : σ) (hr : r.release paused = pure ()) (c : Comp V V) (s : Subject V) :
    r.carryOut (pure c) paused s = Run.unlessOver (c.apply s) := by
  rw [carryOut, hr, Run.asBody_pure, Run.afterUnless_pure, pure_bind]

/-! ## One path -/

/-- Takes a path to its end, if the body gets to where it can be taken on from. -/
def arrive (depth : Nat) (arrival : Run V (Signal V σ α)) (path : Path V) :
    Run V (Option (Branch V α) × List (Path V)) := do
  match ← Run.guarding name path.state arrival with
  | none => return (none, [])
  | some signal => r.follow name depth signal path

/-- A body is made ready, and replayed under the guard of its path. -/
theorem pursue_eq (fuel : Nat) (path : Path V) : r.pursue name fuel path
    = r.prepare >>= fun ready => r.arrive name fuel (r.replay ready path.trail) path := by
  rw [pursue]
  refine bind_congr fun ready => bind_congr fun signal => ?_
  cases signal <;> rfl

variable (depth : Nat) (path : Path V)

/-- A body that has ended. -/
theorem arrive_finished (a : α) :
    r.arrive name depth (pure (.finished a)) path = pure (some ⟨path.state, a⟩, []) := by
  rw [arrive, Run.guarding_of_contained (Run.contained_pure _), bind_assoc, pure_bind, pure_bind]
  cases depth <;> rfl

/-- A body that is stopped. -/
theorem arrive_stop (e : Fault V) : r.arrive name depth (Run.stop e) path = do
    Run.surrender name path.state e
    return (none, []) := by
  rw [arrive, Run.guarding_stop, bind_assoc]
  rfl

theorem contained_arrive_finished (a : α) :
    (r.arrive name depth (pure (.finished a)) path).Contained := by
  rw [arrive_finished]
  exact Run.contained_pure _

theorem contained_arrive_stop (e : Fault V) : (r.arrive name depth (Run.stop e) path).Contained := by
  rw [arrive_stop]
  exact (Run.contained_surrender _ _ e).bind fun _ _ => Run.contained_pure _

/-- A body that waits longer than the engine does. -/
theorem arrive_awaiting_zero (wanted : Run V (Comp V V)) (paused : σ) :
    r.arrive name 0 (pure (.awaiting wanted paused)) path = Run.exhausted := by
  rw [arrive, Run.guarding_of_contained (Run.contained_pure _), bind_assoc, pure_bind, pure_bind]
  rfl

/-- A body that waits for a computation goes on with the first of its branches, and the others are
left waiting behind those that are met on the way.  If the computation says there is nothing more to
come, the path has ended. -/
theorem arrive_awaiting (wanted : Run V (Comp V V)) (paused : σ) :
    r.arrive name (depth + 1) (pure (.awaiting wanted paused)) path = do
      match ← r.carryOut wanted paused path.state with
      | .error details => return (some ⟨path.state, r.whenOver details.head?⟩, [])
      | .ok [] => return (none, [])
      | .ok (first :: siblings) =>
        let (ended, later) ← r.arrive name depth (Run.asBody (r.resume paused first.value))
          (.sibling path.trail first)
        return (ended, later ++ siblings.map (.sibling path.trail)) := by
  rw [arrive, Run.guarding_of_contained (Run.contained_pure _), bind_assoc, pure_bind, pure_bind]
  show r.follow name (depth + 1) (.awaiting wanted paused) path = _
  rw [follow]
  refine bind_congr fun carried => ?_
  match carried with
  | .error details => rfl
  | .ok [] => rfl
  | .ok (first :: siblings) =>
    show (Run.guarding name first.state (Run.asBody (r.resume paused first.value)) >>= _)
      = r.arrive name depth _ _ >>= _
    rw [arrive, bind_assoc]
    refine bind_congr fun signal => ?_
    cases signal <;> rfl

/-! ## The loop -/

variable (limit fuel : Nat) (waiting : List (Path V))

/-- Takes the path in hand to its end, if the body gets to where it can be taken on from, and then
works off the paths that wait. -/
def onward (arrival : Run V (Signal V σ α)) : Run V (List (Branch V α)) := do
  let (ended, siblings) ← r.arrive name depth arrival path
  let others ← r.exhaust name limit fuel (siblings ++ waiting)
  return ended.toList ++ others

/-- The loop is over when nothing waits. -/
theorem exhaust_nil : r.exhaust name limit fuel [] = pure [] := by
  cases fuel <;> rfl

/-- The loop takes up the path in front. -/
theorem exhaust_cons : r.exhaust name limit (fuel + 1) (path :: waiting)
    = r.prepare >>= fun ready =>
      r.onward name limit path limit fuel waiting (r.replay ready path.trail) := by
  rw [exhaust, pursue_eq, bind_assoc]
  rfl

/-- A body that is made ready by doing nothing is only replayed. -/
theorem exhaust_cons_of_prepare {ready : σ} (hp : r.prepare = pure ready) :
    r.exhaust name limit (fuel + 1) (path :: waiting)
      = r.onward name limit path limit fuel waiting (r.replay ready path.trail) := by
  rw [exhaust_cons, hp, pure_bind]

theorem onward_finished (a : α) :
    r.onward name depth path limit fuel waiting (pure (.finished a))
      = Run.joined (pure [⟨path.state, a⟩]) (r.exhaust name limit fuel waiting) := by
  rw [onward, arrive_finished, pure_bind]
  rfl

theorem onward_stop (e : Fault V) :
    r.onward name depth path limit fuel waiting (Run.stop e)
      = Run.joined (Run.surrender name path.state e >>= fun _ => pure [])
        (r.exhaust name limit fuel waiting) := by
  rw [onward, arrive_stop, Run.joined, bind_assoc, bind_assoc]
  rfl

theorem onward_awaiting_zero (wanted : Run V (Comp V V)) (paused : σ) :
    r.onward name 0 path limit fuel waiting (pure (.awaiting wanted paused)) = Run.exhausted := by
  rw [onward, arrive_awaiting_zero]
  rfl

/-- The siblings of a path go in front of all that waited before. -/
theorem onward_awaiting (wanted : Run V (Comp V V)) (paused : σ) :
    r.onward name (depth + 1) path limit fuel waiting (pure (.awaiting wanted paused))
      = r.carryOut wanted paused path.state >>= fun
        | .error details => Run.joined (pure [⟨path.state, r.whenOver details.head?⟩])
            (r.exhaust name limit fuel waiting)
        | .ok [] => r.exhaust name limit fuel waiting
        | .ok (first :: siblings) =>
          r.onward name depth (.sibling path.trail first) limit fuel
            (siblings.map (.sibling path.trail) ++ waiting)
            (Run.asBody (r.resume paused first.value)) := by
  rw [onward, arrive_awaiting, bind_assoc]
  refine bind_congr fun carried => ?_
  match carried with
  | .error details => rfl
  | .ok [] =>
    show (r.exhaust name limit fuel waiting >>= fun others => pure ([] ++ others)) = _
    exact bind_pure _
  | .ok (first :: siblings) =>
    show (r.arrive name depth _ _ >>= _) >>= _ = r.arrive name depth _ _ >>= _
    rw [bind_assoc]
    refine bind_congr fun ended => ?_
    show (r.exhaust name limit fuel ((ended.2 ++ _) ++ waiting) >>= _) = _
    rw [List.append_assoc]

end Routine

end SymbolicPaths
