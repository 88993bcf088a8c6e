import SymbolicPaths.Arrow
import SymbolicPaths.Proofs.MonadLaws
/-!
# Mapping under one guard

To map the results of a computation and to continue each of them with its image seem to be the same.
They are as long as no mapping fails.  But `Comp.map` carries all the mappings out under one guard, and
`Comp.bind` each of them under its own.  So where the mapping of one result fails, the mapped
computation loses all its branches and reports one dropped branch, with the state that it was applied
to; the continued one loses the branch of that result, reports it with the state that it was in, and
keeps the others.

`Comp.map_sameUpToOrder_bind_iff` says exactly when the difference cannot be seen: a failure is only
met where there is no other branch, and this one is still in the state that everything started from
(`Comp.FailsAlone`).  The same holds of arrows, which map and continue what they compute.

## What is compared

Both sides apply the computation first.  What they do with its branches is written down as
`Run.together` and `Run.apart`, one guard around all mappings or one around each, and from there on
everything is about these two, at the one context in which the computation left off.
-/

namespace SymbolicPaths

variable {V α β : Type} [Term V]

namespace Run

/-! ## Guards that catch something -/

omit [Term V] in
/-- A part that does not fail can be carried out in front of the guard. -/
theorem caught_bind_of_contained {x : Run V α} {k : α → Run V (List β)} (hx : x.Contained)
    (n : String) (s : Subject V) : caught n s (x >>= k) = x >>= fun a => caught n s (k a) := by
  funext σ c
  by_cases hfail : ∃ e, σ.mode = .guarded ∧ ((x >>= k) σ c).answer = .error (.failure e)
  · obtain ⟨e, hm, hxk⟩ := hfail
    cases hx' : (x σ c).answer with
    | error e' =>
      rw [answer_bind_of_error hx'] at hxk
      obtain rfl : e' = .failure e := Except.error.inj hxk
      exact absurd hx' (hx hm c e)
    | ok a =>
      have hk : (k a σ (x σ c).context).answer = .error (.failure e) := by
        rw [← answer_bind_of_ok hx', hxk]
      rw [caught_apply_of_failure hm hxk, bind_apply_of_ok (confine_apply_of_failure hxk),
        bind_apply_of_answer_ok hx' (f := fun a => caught n s (k a)), caught_apply_of_failure hm hk,
        bind_apply_of_ok (confine_apply_of_failure hk), bind_apply_of_answer_ok hx',
        List.append_assoc]
  · have unfailing : σ.mode = .guarded → ∀ e, ((x >>= k) σ c).answer ≠ .error (.failure e) :=
      fun hm e h => hfail ⟨e, hm, h⟩
    rw [caught_apply_of_unfailing unfailing]
    refine bind_apply_congr fun a ha => (caught_apply_of_unfailing (fun hm e hk => ?_) n s).symm
    exact unfailing hm e (by rw [answer_bind_of_ok ha, hk])

/-! ## One guard or many -/

/-- A branch with its result mapped. -/
def image (f : α → Run V β) (b : Branch V α) : Run V (Branch V β) := do
  return ⟨b.state, ← f b.value⟩

/-- The branches of some results, all mapped under one guard. -/
def together (f : α → Run V β) (s : Subject V) (branches : List (Branch V α)) :
    Run V (List (Branch V β)) := caught "" s (each branches (image f))

/-- The branch of one result, mapped under a guard of its own. -/
def alone (f : α → Run V β) (b : Branch V α) : Run V (List (Branch V β)) :=
  caught "" b.state do return [← image f b]

/-- The branches of some results, each mapped under a guard of its own. -/
def apart (f : α → Run V β) (branches : List (Branch V α)) : Run V (List (Branch V β)) :=
  flatMap branches (alone f)

section Branches

omit [Term V]

variable {f : α → Run V β} {σ : Scope V} {c : Context V} {s : Subject V} {b : Branch V α}
  {branches rest : List (Branch V α)} {e : Failure V}

/-- A guard around a mapping that does not fail is none. -/
theorem alone_of_unfailing (h : ∀ e, (image f b σ c).answer ≠ .error (.failure e)) :
    alone f b σ c = (image f b >>= fun y => pure [y]) σ c := by
  refine caught_apply_of_unfailing (fun _ e he => ?_) "" b.state
  cases hb : (image f b σ c).answer with
  | ok y =>
    rw [answer_bind_of_ok hb] at he
    cases he
  | error e' =>
    rw [answer_bind_of_error hb] at he
    exact h e (by rw [hb, Except.error.inj he])

/-- As long as no mapping fails the guards make no difference, however many there are. -/
theorem apart_of_unfailing
    (h : ∀ e, (each branches (image f) σ c).answer ≠ .error (.failure e)) :
    apart f branches σ c = each branches (image f) σ c := by
  induction branches generalizing c with
  | nil => rfl
  | cons b rest ih =>
    have first : ∀ e, (image f b σ c).answer ≠ .error (.failure e) := fun e he =>
      h e (answer_bind_of_error he _)
    calc apart f (b :: rest) σ c
        = joined (alone f b) (apart f rest) σ c := rfl
      _ = joined (image f b >>= fun y => pure [y]) (apart f rest) σ c :=
          bind_apply_congr_left (alone_of_unfailing first) _
      _ = (image f b >>= fun y => apart f rest >>= fun ys => pure (y :: ys)) σ c := by
          rw [joined, bind_assoc]
          rfl
      _ = each (b :: rest) (image f) σ c := by
          refine bind_apply_congr fun y hy => bind_apply_congr_left (ih fun e he => ?_) _
          exact h e (by rw [each_cons, answer_bind_of_ok hy, answer_bind_of_error he])

/-- One branch is mapped under one guard either way. -/
theorem together_singleton (f : α → Run V β) (b : Branch V α) :
    together f b.state [b] = apart f [b] := by
  rw [together, each_cons, each_nil, apart, flatMap_cons_eq_joined, flatMap_nil, joined_nil, alone]
  simp only [pure_bind]

/-- A first branch whose mapping does not fail is left. -/
theorem ne_nil_of_apart_cons (h : ∀ e, (image f b σ c).answer ≠ .error (.failure e)) :
    (apart f (b :: rest) σ c).answer ≠ .ok [] := by
  intro answer
  have parts : apart f (b :: rest) = joined (alone f b) (apart f rest) := rfl
  rw [parts] at answer
  obtain ⟨here, hhere, answer⟩ := exists_of_answer_bind_ok answer
  obtain ⟨others, -, answer⟩ := exists_of_answer_bind_ok answer
  rw [alone_of_unfailing h] at hhere
  obtain ⟨y, -, hhere⟩ := exists_of_answer_bind_ok hhere
  obtain rfl : [y] = here := Except.ok.inj hhere
  cases answer

variable (hm : σ.mode = .guarded) (records : ∀ r, σ.records r = .ok ())
  (receives : ∀ d, σ.receives d = .ok ())

include hm records receives

/-- A mapping that fails drops its branch. -/
theorem alone_of_failure (h : (image f b σ c).answer = .error (.failure e)) :
    (alone f b σ c).answer = .ok [] ∧
      (alone f b σ c).dropped = (image f b σ c).dropped ++ [⟨b.state, e⟩] := by
  have failed : ((image f b >>= fun y => pure [y]) σ c).answer = .error (.failure e) :=
    answer_bind_of_error h _
  obtain ⟨answer, dropped⟩ := caught_of_failure hm records receives failed "" b.state
  have unmapped : ((image f b >>= fun y => pure [y]) σ c).dropped = (image f b σ c).dropped :=
    dropped_bind_of_error h _
  exact ⟨answer, unmapped ▸ dropped⟩

/-- Where the mapping of the first result fails, its branch is dropped and the others go on. -/
theorem apart_cons_of_failure (h : (image f b σ c).answer = .error (.failure e)) :
    (apart f (b :: rest) σ c).answer = (apart f rest σ (alone f b σ c).context).answer ∧
      (apart f (b :: rest) σ c).dropped = (image f b σ c).dropped ++ [⟨b.state, e⟩] ++
        (apart f rest σ (alone f b σ c).context).dropped := by
  obtain ⟨answer, dropped⟩ := alone_of_failure hm records receives h
  have parts : apart f (b :: rest) = joined (alone f b) (apart f rest) := rfl
  have onward : (apart f rest >>= fun ys => pure ([] ++ ys)) = apart f rest := bind_pure _
  rw [parts, joined, answer_bind_of_ok answer, dropped_bind_of_ok answer, onward, dropped]
  exact ⟨rfl, rfl⟩

/-- Where nothing is left and nothing is dropped there was nothing. -/
theorem eq_nil_of_apart (answer : (apart f branches σ c).answer = .ok [])
    (dropped : (apart f branches σ c).dropped = []) : branches = [] := by
  cases branches with
  | nil => rfl
  | cons b rest =>
    by_cases hb : ∃ e, (image f b σ c).answer = .error (.failure e)
    · obtain ⟨e, he⟩ := hb
      rw [(apart_cons_of_failure hm records receives he).2] at dropped
      simp at dropped
    · exact absurd answer (ne_nil_of_apart_cons fun e he => hb ⟨e, he⟩)

/-- **A failure under one guard is seen**, unless it is met on the only branch and this one is in the
state that the guard reports. -/
theorem eq_singleton_of_sameUpToOrder
    (same : (together f s branches σ c).SameUpToOrder (apart f branches σ c))
    (h : (each branches (image f) σ c).answer = .error (.failure e)) :
    ∃ b, branches = [b] ∧ b.state = s := by
  obtain ⟨answer, dropped⟩ := caught_of_failure hm records receives h "" s
  have left : (apart f branches σ c).answer = .ok [] := (same.1 []).1 answer
  have perm : ((each branches (image f) σ c).dropped ++ [(⟨s, e⟩ : Dropped V)]).Perm
      (apart f branches σ c).dropped := dropped ▸ same.2 [] answer
  cases branches with
  | nil => cases h
  | cons b rest =>
    have failed : (image f b σ c).answer = .error (.failure e) := by
      by_contra hb
      refine ne_nil_of_apart_cons (fun e' he' => hb ?_) left
      rw [each_cons, answer_bind_of_error he'] at h
      rw [he', Except.error.inj h]
    obtain ⟨onward, lost⟩ : (apart f (b :: rest) σ c).answer = _ ∧ _ :=
      apart_cons_of_failure hm records receives failed
    rw [each_cons, dropped_bind_of_error failed, lost] at perm
    have none : (apart f rest σ (alone f b σ c).context).dropped = [] := by
      have length := perm.length_eq
      simp only [List.length_append, List.length_singleton] at length
      exact List.length_eq_zero_iff.1 (by omega)
    obtain rfl := eq_nil_of_apart hm records receives (onward ▸ left) none
    rw [none, List.append_nil, List.perm_append_left_iff] at perm
    have reported : (⟨s, e⟩ : Dropped V) = ⟨b.state, e⟩ :=
      List.singleton_inj.1 (List.perm_singleton.1 perm)
    exact ⟨b, rfl, (congrArg Dropped.state reported).symm⟩

/-- **When one guard is as good as many**: no mapping fails, or one does on the only branch, in the
state that the guard reports. -/
theorem together_sameUpToOrder_apart_iff :
    (together f s branches σ c).SameUpToOrder (apart f branches σ c) ↔
      ∀ e, (each branches (image f) σ c).answer = .error (.failure e) →
        ∃ b, branches = [b] ∧ b.state = s := by
  refine ⟨fun same e h => eq_singleton_of_sameUpToOrder hm records receives same h, fun h => ?_⟩
  have equal : together f s branches σ c = apart f branches σ c := by
    by_cases fails : ∃ e, (each branches (image f) σ c).answer = .error (.failure e)
    · obtain ⟨e, he⟩ := fails
      obtain ⟨b, rfl, rfl⟩ := h e he
      rw [together_singleton]
    · have unfailing : ∀ e, (each branches (image f) σ c).answer ≠ .error (.failure e) :=
        fun e he => fails ⟨e, he⟩
      rw [apart_of_unfailing unfailing]
      exact caught_apply_of_unfailing (fun _ => unfailing) "" s
  rw [equal]
  exact ⟨fun _ => Iff.rfl, fun _ _ => List.Perm.refl _⟩

end Branches

end Run

namespace Comp

variable {m : Comp V α} {f : α → Run V β} {σ : Scope V} {c : Context V} {s : Subject V}

/-! ## Mapped and continued computations -/

/-- What continues with the image of a result. -/
def onward (f : α → Run V β) (v : α) : Run V (Comp V β) := do return pure (← f v)

/-- Mapping the results of `m` only fails where there is no other branch, and this one is still in the
state that `m` was applied to. -/
def FailsAlone (m : Comp V α) (f : α → Run V β) (s : Subject V) (σ : Scope V) (c : Context V) : Prop :=
  ∀ branches e, (m.apply s σ c).answer = .ok branches →
    (Run.each branches (Run.image f) σ (m.apply s σ c).context).answer = .error (.failure e) →
      ∃ b, branches = [b] ∧ b.state = s

theorem steady_image (hf : ∀ v, (f v).Steady) (b : Branch V α) : (Run.image f b).Steady :=
  (hf b.value).bind fun _ _ => Run.steady_pure _

/-- A mapped computation maps all its branches under one guard. -/
theorem map_apply_alike (hf : ∀ v, (f v).Steady) (hm : σ.Serves (m.body s σ c).context) :
    Outcome.Alike σ ((m.map f).apply s σ c) ((m.apply s >>= Run.together f s) σ c) := by
  have steady : ∀ branches, (Run.each branches (Run.image f)).Steady := fun branches =>
    Run.sequential_steady.each fun b _ => steady_image hf b
  have body := (apply_alike_apply hm).bind fun branches _ => steady branches
  have caught := apply_alike_caught (c := m.map f) body ""
  rw [Run.caught_bind_of_contained (m.contained_apply s)] at caught
  exact caught

/-- A computation that is continued maps each of its branches under a guard of its own. -/
theorem bind_onward_apply_alike (hf : ∀ v, (f v).Steady) (hm : σ.Serves (m.body s σ c).context) :
    Outcome.Alike σ ((m.bind (onward f)).apply s σ c) ((m.apply s >>= Run.apart f) σ c) := by
  refine apply_alike_body (contained_bind_body ..) ?_
  refine (apply_alike_apply hm).bind fun branches _ => Run.Alike.flatMap fun b _ => ?_
  have known : ∀ w : β, ((pure w).apply b.state).Alike (Pure.pure [⟨b.state, w⟩]) := fun w =>
    apply_alike_unguarded (Run.steady_pure _) (Run.contained_pure _)
  have continued : (onward f b.value >>= fun d => d.apply b.state).Alike
      (Run.image f b >>= fun y => Pure.pure [y]) := by
    rw [onward, Run.image, bind_assoc, bind_assoc]
    exact Run.Alike.bind (hf b.value) fun w _ => by
      rw [pure_bind, pure_bind]
      exact known w
  exact (continuation_alike_caught m continued.steady_left "").trans (continued.caught "" "" b.state)

/-- What is made of a computation's branches is the same up to order if it is so where the computation
left off. -/
theorem sameUpToOrder_bind_iff {x y : List (Branch V α) → Run V (List (Branch V β))} :
    ((m.apply s >>= x) σ c).SameUpToOrder ((m.apply s >>= y) σ c) ↔
      ∀ branches, (m.apply s σ c).answer = .ok branches →
        (x branches σ (m.apply s σ c).context).SameUpToOrder
          (y branches σ (m.apply s σ c).context) := by
  cases hb : (m.apply s σ c).answer with
  | error e =>
    refine ⟨fun _ _ h => (nomatch h), fun _ => ?_⟩
    rw [Outcome.SameUpToOrder, Run.answer_bind_of_error hb, Run.answer_bind_of_error hb]
    exact ⟨fun _ => Iff.rfl, fun _ h => (nomatch h)⟩
  | ok branches =>
    rw [Outcome.SameUpToOrder, Run.answer_bind_of_ok hb, Run.answer_bind_of_ok hb,
      Run.dropped_bind_of_ok hb, Run.dropped_bind_of_ok hb]
    simp only [List.perm_append_left_iff]
    exact ⟨fun same _ h => Except.ok.inj h ▸ same, fun same => same branches rfl⟩

/-- Two runs that come to the same two ways of mapping are the same up to order exactly if mapping fails
at most where there is one branch only, still in the state that everything started from. -/
theorem sameUpToOrder_iff_failsAlone {o p : Outcome V (List (Branch V β))}
    (mapped : Outcome.Alike σ o ((m.apply s >>= Run.together f s) σ c))
    (continued : Outcome.Alike σ p ((m.apply s >>= Run.apart f) σ c)) (guarded : σ.mode = .guarded)
    (records : ∀ r, σ.records r = .ok ()) (receives : ∀ d, σ.receives d = .ok ()) :
    o.SameUpToOrder p ↔ m.FailsAlone f s σ c := by
  rw [Outcome.SameUpToOrder, mapped.answer, mapped.dropped, continued.answer, continued.dropped]
  refine sameUpToOrder_bind_iff.trans ?_
  simp only [Run.together_sameUpToOrder_apart_iff guarded records receives]
  exact ⟨fun h branches e hb he => h branches hb e he, fun h branches hb e he => h branches e hb he⟩

/-- **When mapping is continuing with the image.**  Let `f` be a mapping that does not notice whether the
settings have been read, applied where runs are guarded and served and every dropped branch is received.

* To map the results of a computation `m` has the same branches in the same order and the same dropped
  branches up to order as to continue each of them with its image exactly if mapping the results fails
  at most where there is one branch only, still in the state that `m` was applied to.
* The same holds of what an arrow computes when it is called with any arguments that it takes. -/
theorem map_sameUpToOrder_bind_iff (hf : ∀ v, (f v).Steady) (guarded : σ.mode = .guarded)
    (receives : ∀ d, σ.receives d = .ok ()) (served : σ.Serves (m.body s σ c).context)
    (k : Arrow V α) (args : Args V) (taken : (args.named.any fun e => e.1 == "self") = false)
    (served' : σ.Serves ((k.deferred args).body s σ c).context) :
    (((m.map f).apply s σ c).SameUpToOrder ((m.bind (onward f)).apply s σ c) ↔
      m.FailsAlone f s σ c) ∧
    ((((k.fmap f).deferred args).apply s σ c).SameUpToOrder
        (((k.andThen (onward f)).deferred args).apply s σ c) ↔
      (k.deferred args).FailsAlone f s σ c) := by
  have called : k.call args = Pure.pure (k.deferred args) := by rw [Arrow.call, if_neg (by simp [taken])]
  constructor
  · exact sameUpToOrder_iff_failsAlone (map_apply_alike hf served) (bind_onward_apply_alike hf served)
      guarded served.records receives
  · refine sameUpToOrder_iff_failsAlone
      (defer_apply_alike (d := (k.deferred args).map f) ?_ (map_apply_alike hf served'))
      (defer_apply_alike (d := (k.deferred args).bind (onward f)) ?_ (bind_onward_apply_alike hf served'))
      guarded served.records receives
    · show (k.call args >>= _) = _
      rw [called, pure_bind]
    · show (k.call args >>= _) = _
      rw [called, pure_bind]

section Instances

open Script

/-- A mapping that fails on one side of a fork. -/
def failOnTrue : Bool → Run (Datum Empty) (Datum Empty)
  | true => Run.stop (.failure (.abandoned [.text "no"]))
  | false => Pure.pure (.int 1)

/-- The arrow that forks whatever its arguments are. -/
def forkingArrow : Arrow (Datum Empty) Bool := .ofFunction ⟨some "fork", none⟩ fun _ => Pure.pure choose

theorem steady_failOnTrue (v : Bool) : (failOnTrue v).Steady := by
  cases v with
  | true => exact Run.steady_stop _
  | false => exact Run.steady_pure _

/-- On one branch a failure is the same under one guard or two, and on a fork it is not. -/
theorem map_failOnTrue :
    (∀ v, (failOnTrue v).Steady) ∧
    (Scope.of .guarded).Serves ({} : Context (Datum Empty)) ∧
    (((pure true).map failOnTrue).apply (.state .empty) (.of .guarded) {}).SameUpToOrder
      (((pure true).bind (onward failOnTrue)).apply (.state .empty) (.of .guarded) {}) ∧
    ¬ (((forkingArrow.fmap failOnTrue).deferred {}).apply (.state .empty) (.of .guarded)
      {}).SameUpToOrder (((forkingArrow.andThen (onward failOnTrue)).deferred {}).apply (.state .empty)
        (.of .guarded) {}) := by
  have served := Scope.Serves.of_loadable .guarded (Context.loadable_default (V := Datum Empty))
  obtain ⟨single, forked⟩ := map_sameUpToOrder_bind_iff (m := pure true) (σ := .of .guarded) (c := {})
    (s := .state .empty) steady_failOnTrue rfl (fun _ => rfl) served forkingArrow {} rfl
    (.of_loadable .guarded ⟨.loaded {}, false, rfl, rfl⟩)
  refine ⟨steady_failOnTrue, served, single.2 fun branches e hb _ => ?_, fun same => ?_⟩
  · obtain rfl : [⟨.state .empty, true⟩] = branches := Except.ok.inj hb
    exact ⟨_, rfl, rfl⟩
  · obtain ⟨b, hb, -⟩ := forked.1 same [⟨.state .empty, true⟩, ⟨.state .empty, false⟩]
      (.abandoned [.text "no"]) rfl rfl
    cases hb

/-- **A mapping that fails on one branch loses the others.**  On a fork, a mapping that fails on one side
leaves no branch, and to continue each side with its image leaves the other side; of computations and of
arrows alike. -/
theorem map_loses_siblings :
    ((choose.map failOnTrue).apply (.state .empty) (.of .guarded) {}).answer = .ok [] ∧
    ((choose.bind (onward failOnTrue)).apply (.state .empty) (.of .guarded) {}).answer
      = .ok [⟨.state .empty, .int 1⟩] ∧
    (((forkingArrow.fmap failOnTrue).deferred {}).apply (.state .empty) (.of .guarded) {}).answer
      = .ok [] ∧
    (((forkingArrow.andThen (onward failOnTrue)).deferred {}).apply (.state .empty)
      (.of .guarded) {}).answer = .ok [⟨.state .empty, .int 1⟩] := ⟨rfl, rfl, rfl, rfl⟩

end Instances

end Comp

end SymbolicPaths
