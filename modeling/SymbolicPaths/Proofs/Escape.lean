import SymbolicPaths.Arrow
import SymbolicPaths.Proofs.Calls
import SymbolicPaths.Proofs.Engine
import SymbolicPaths.Proofs.Program
/-!
# Where defects go

A failure belongs to a branch and is held by the innermost guard around it.  A defect belongs to the
program and is held by nothing.  There are many places where it could get lost all the same: guards,
collectors and delimited parts look at how the part inside ended, the engine of routines goes on with
other paths, and a body is let go of however its path ended.

Host code is called from few places: continuations, thunks, mapped functions, items of an iteration,
policies, bodies of routines.  `Comp.Site` lists them, each with the condition under which it is reached,
and `Comp.Site.inside` says that each of them is inside the application.  What a host function gives is
applied there and then (`Comp.built`), and has sites of its own.  So the theorem at the end,
`Comp.defect_escapes`, is about every call of host code in a tree of computations, as deep as it may be.

## Bodies

A body that waits is let go of if it is not gone on with, and a fault of that is the one that shows.  So
what goes wrong in a computation that a body waits for gets out if letting go of the body raises nothing;
`Comp.defect_hidden` has a body that hides a defect behind another one.  The error that says there is
nothing more to come ends a path of the body that waits, wherever it was raised, and what a body raises
itself leaves it as another error.  So this one is followed only where no body is carried out on the way
to it.  The last way to keep a defect from getting out is to catch it in the program.
-/

namespace SymbolicPaths

variable {V α β γ ι κ : Type} [Term V]

/-! ## Positions of the engine -/

namespace Comp

/-- What a host function gives, applied. -/
def built (thunk : Run V (Comp V α)) (s : Subject V) : Run V (List (Branch V α)) :=
  thunk >>= fun m => m.apply s

/-- The subjects that are left when `items` have been gone through. -/
def frontier (items : List ι) (body : ι → Run V (Comp V α)) (s : Subject V) : Run V (List (Subject V)) :=
  items.foldlM (fun front i => Run.flatMap front fun current => do
    return ((← (delay (body i)).apply current).map (·.state))) [s]

end Comp

namespace Routine

variable (r : Routine V κ α) (name : String) (depth : Nat) (σ : Scope V)

/-- `r.Reaches name depth σ fuel waiting c path d`: working off `waiting` from `c`, the engine takes up
`path` in `d`. -/
inductive Reaches : Nat → List (Path V) → Context V → Path V → Context V → Prop where
  | front {fuel : Nat} {path : Path V} {waiting : List (Path V)} {c : Context V} :
      Reaches (fuel + 1) (path :: waiting) c path c
  | later {fuel : Nat} {path p : Path V} {waiting siblings : List (Path V)} {c d : Context V}
      {ended : Option (Branch V α)}
      (h : (r.pursue name depth path σ c).answer = .ok (ended, siblings))
      (hp : Reaches fuel (siblings ++ waiting) (r.pursue name depth path σ c).context p d) :
      Reaches (fuel + 1) (path :: waiting) c p d

/-- `r.Proceeds name σ fuel signal path c wanted paused p d`: from `signal` on `path` in `c` along first
branches, the body waits for `wanted` on `p` in `d`. -/
inductive Proceeds : Nat → Signal V κ α → Path V → Context V →
    Run V (Comp V V) → κ → Path V → Context V → Prop where
  | here {fuel : Nat} {wanted : Run V (Comp V V)} {paused : κ} {path : Path V} {c : Context V} :
      Proceeds (fuel + 1) (.awaiting wanted paused) path c wanted paused path c
  | on {fuel : Nat} {wanted w : Run V (Comp V V)} {paused k : κ} {path p : Path V} {c d : Context V}
      {first : Branch V V} {siblings : List (Branch V V)} {signal : Signal V κ α}
      (hw : (r.carryOut wanted paused path.state σ c).answer = .ok (.ok (first :: siblings)))
      (hr : (Run.guarding name first.state (Run.asBody (r.resume paused first.value)) σ
        (r.carryOut wanted paused path.state σ c).context).answer = .ok (some signal))
      (hp : Proceeds fuel signal (.sibling path.trail first)
        (Run.guarding name first.state (Run.asBody (r.resume paused first.value)) σ
          (r.carryOut wanted paused path.state σ c).context).context w k p d) :
      Proceeds (fuel + 1) (.awaiting wanted paused) path c w k p d

/-- A routine applied to `s` in `c` takes up `path`, and in `d` it has made a body `ready` for it. -/
inductive Opens (fuel : Nat) (s : Subject V) (c : Context V) : Path V → κ → Context V → Prop where
  | mk {path : Path V} {d : Context V} {ready : κ} (hp : r.Reaches name fuel σ fuel [⟨[], s⟩] c path d)
      (hr : (r.prepare σ d).answer = .ok ready) : Opens fuel s c path ready (r.prepare σ d).context

/-- A routine applied to `s` in `c` waits on `path` in `d` for what is `wanted`. -/
inductive Awaits (fuel : Nat) (s : Subject V) (c : Context V) :
    Run V (Comp V V) → κ → Path V → Context V → Prop where
  | mk {path p : Path V} {ready paused : κ} {signal : Signal V κ α} {wanted : Run V (Comp V V)}
      {d e : Context V} (ho : r.Opens name σ fuel s c path ready d)
      (hs : (Run.guarding name path.state (r.replay ready path.trail) σ d).answer = .ok (some signal))
      (hp : r.Proceeds name σ fuel signal path
        (Run.guarding name path.state (r.replay ready path.trail) σ d).context wanted paused p e) :
      Awaits fuel s c wanted paused p e

end Routine

namespace Comp

/-- A call of a computation, or of host code, that an application of a computation makes itself; those
that are made for the sake of a body only if `bodies`. -/
inductive Site (bodies : Bool) (σ : Scope V) : {α : Type} → Comp V α → Subject V → Context V → Call V → Prop where
  | bound {α β : Type} (m : Comp V α) (f : α → Run V (Comp V β)) (s : Subject V) (c : Context V) :
      Site bodies σ (m.bind f) s c ⟨m.apply s, σ, c⟩
  /-- A continuation, when those of the branches in front are done. -/
  | continuation {α β : Type} {m : Comp V α} (f : α → Run V (Comp V β)) {s : Subject V} {c : Context V}
      (front : List (Branch V α)) (b : Branch V α) (rest : List (Branch V α)) {found : List (Branch V β)}
      (hm : (m.apply s σ c).answer = .ok (front ++ b :: rest))
      (hf : (Run.flatMap front (m.continuation f) σ (m.apply s σ c).context).answer = .ok found) :
      Site bodies σ (m.bind f) s c ⟨built (f b.value) b.state, σ,
        (Run.flatMap front (m.continuation f) σ (m.apply s σ c).context).context⟩
  | mappedFrom {α β : Type} (m : Comp V α) (f : α → Run V β) (s : Subject V) (c : Context V) :
      Site bodies σ (m.map f) s c ⟨m.apply s, σ, c⟩
  | mapped {α β : Type} {m : Comp V α} {f : α → Run V β} {s : Subject V} {c : Context V}
      {front : List (Branch V α)} (b : Branch V α) {rest : List (Branch V α)} {found : List (Branch V β)}
      (hm : (m.apply s σ c).answer = .ok (front ++ b :: rest))
      (hf : (Run.each front (fun b => do return (⟨b.state, ← f b.value⟩ : Branch V β)) σ
        (m.apply s σ c).context).answer = .ok found) :
      Site bodies σ (m.map f) s c ⟨f b.value, σ,
        (Run.each front (fun b => do return (⟨b.state, ← f b.value⟩ : Branch V β)) σ
          (m.apply s σ c).context).context⟩
  /-- A thunk, and the function behind an arrow. -/
  | thunk {α : Type} (name : String) (thunk : Run V (Comp V α)) (s : Subject V) (c : Context V) :
      Site bodies σ (defer name thunk) s c ⟨built thunk s, σ, c⟩
  | step {α : Type} {front rest : List (Comp V α)} (m : Comp V α) {s : Subject V} {c : Context V}
      {before after : List (Branch V (List α))} (path : Branch V (List α))
      {found : List (Branch V (List α))}
      (hs : ((sequence front).body s σ c).answer = .ok (before ++ path :: after))
      (hf : (Run.flatMap before (fun path => do
        return (← m.apply path.state).map fun b => (⟨b.state, path.value ++ [b.value]⟩ : Branch V _)) σ
          ((sequence front).body s σ c).context).answer = .ok found) :
      Site bodies σ (sequence (front ++ m :: rest)) s c ⟨m.apply path.state, σ,
        (Run.flatMap before (fun path => do
          return (← m.apply path.state).map fun b => (⟨b.state, path.value ++ [b.value]⟩ : Branch V _)) σ
            ((sequence front).body s σ c).context).context⟩
  /-- What is built for an item of an iteration, on one of the paths that have got there. -/
  | item {ι α : Type} {front rest : List ι} (i : ι) {body : ι → Run V (Comp V α)} {s : Subject V}
      {c : Context V} {before after : List (Subject V)} (current : Subject V) {found : List (Subject V)}
      (hs : (frontier front body s σ c).answer = .ok (before ++ current :: after))
      (hf : (Run.flatMap before (fun current => do
        return ((← (delay (body i)).apply current).map (·.state))) σ
          (frontier front body s σ c).context).answer = .ok found) :
      Site bodies σ (forEach (front ++ i :: rest) body) s c ⟨built (body i) current, σ,
        (Run.flatMap before (fun current => do
          return ((← (delay (body i)).apply current).map (·.state))) σ
            (frontier front body s σ c).context).context⟩
  /-- What is built for an item before anything is applied. -/
  | itemAhead {ι α : Type} (hb : bodies = true) {front rest : List ι} (i : ι)
      {f : ι → Run V (Comp V α)} (s : Subject V) {c : Context V} {steps : List (Comp V α)}
      (hf : (Run.each front (fun i => Run.asBody (f i)) σ c).answer = .ok steps) :
      Site bodies σ (traverse (front ++ i :: rest) f) s c
        ⟨f i, σ, (Run.each front (fun i => Run.asBody (f i)) σ c).context⟩
  | itemsBuilt {ι α : Type} {items : List ι} {f : ι → Run V (Comp V α)} (s : Subject V) {c : Context V}
      {steps : List (Comp V α)}
      (hf : (Run.each items (fun i => Run.asBody (f i)) σ c).answer = .ok steps) :
      Site bodies σ (traverse items f) s c
        ⟨(sequence steps).apply s, σ, (Run.each items (fun i => Run.asBody (f i)) σ c).context⟩
  | unifier (unifier : Run V (Unifier V)) (s : State V) (c : Context V) :
      Site bodies σ (compress unifier) (.state s) c ⟨unifier, σ, c⟩
  /-- A policy, when it is asked about the values at a location with several. -/
  | policy {unifier : Run V (Unifier V)} {s : State V} {c d : Context V} {unify : Unifier V}
      {chunks : List (Chunk V)} {front rest : List (Heap.Group V)} (g : Heap.Group V)
      {found : List (Chunk V)} (hu : (unifier σ c).answer = .ok unify)
      (hc : (Heap.fusible s.heap σ (unifier σ c).context).answer = .ok chunks)
      (hd : (Heap.fusible s.heap σ (unifier σ c).context).context = d)
      (hg : Heap.groups chunks = front ++ g :: rest) (several : 2 ≤ g.values.length)
      (hf : (Run.each front (Heap.fuseGroup unify) σ d).answer = .ok found) :
      Site bodies σ (compress unifier) (.state s) c ⟨unify g.values, σ,
        (Run.each front (Heap.fuseGroup unify) σ d).context⟩
  /-- A read that finds several chunks compresses the heap and reads again. -/
  | reread {unifier : Run V (Unifier V)} {l : V} {retries : Nat} {attempt : Amount V} {next : Int}
      {s : Subject V} {c d : Context V} {first second : Chunk V} {more : List (Chunk V)}
      (hs : (chunksAt l s σ c).answer = .ok (first :: second :: more))
      (hd : (chunksAt l s σ c).context = d) (hn : attempt.counted = .ok next)
      (hl : (Run.log (.compressing (more.length + 2) l) σ d).answer = .ok ()) :
      Site bodies σ (heapReadWithin unifier l (retries + 1) attempt) s c
        ⟨((compress unifier).andThen (heapReadWithin unifier l retries (.number (next + 1)))).apply s, σ,
          (Run.log (.compressing (more.length + 2) l) σ d).context⟩
  | left {α β : Type} (left : Comp V α) (right : Comp V β) (s : Subject V) (c : Context V) :
      Site bodies σ (probe left right) s c ⟨left.apply s, σ.receptive.withMode .guarded, c⟩
  | right {α β : Type} {left : Comp V α} (right : Comp V β) {s : Subject V} {c : Context V}
      {found : List (Branch V α)}
      (hl : (left.apply s (σ.receptive.withMode .guarded) c).answer = .ok found) :
      Site bodies σ (probe left right) s c ⟨right.apply s, σ.receptive.withMode .guarded,
        (left.apply s (σ.receptive.withMode .guarded) c).context⟩
  | prepared {κ α : Type} {r : Routine V κ α} {name : String} {fuel : Nat} {s : Subject V}
      {c d : Context V} {path : Path V} (hp : r.Reaches name fuel σ fuel [⟨[], s⟩] c path d) :
      Site bodies σ (r.comp name fuel) s c ⟨r.prepare, σ, d⟩
  /-- A body that is started and sent what its path has sent so far.  The defects that leave it are
  those of the replay, also where the body said itself that there is nothing more to come. -/
  | replayed {κ α : Type} {r : Routine V κ α} {name : String} {fuel : Nat} {s : Subject V}
      {c d : Context V} {path : Path V} {ready : κ} (ho : r.Opens name σ fuel s c path ready d) :
      Site bodies σ (r.comp name fuel) s c ⟨r.replay ready path.trail, σ, d⟩
  | yielded {κ α : Type} (hb : bodies = true) {r : Routine V κ α} {name : String} {fuel : Nat}
      {s : Subject V} {c d : Context V} {path : Path V} {wanted : Run V (Comp V V)} {paused : κ}
      (ha : r.Awaits name σ fuel s c wanted paused path d)
      (hl : (Run.asBody (r.release paused) σ (built wanted path.state σ d).context).answer = .ok ()) :
      Site bodies σ (r.comp name fuel) s c ⟨built wanted path.state, σ, d⟩
  /-- A body that is not gone on with. -/
  | released {κ α : Type} {r : Routine V κ α} {name : String} {fuel : Nat} {s : Subject V}
      {c d : Context V} {path : Path V} {wanted : Run V (Comp V V)} {paused : κ}
      (ha : r.Awaits name σ fuel s c wanted paused path d)
      (hx : (built wanted path.state σ d).answer ≠ .error .exhausted)
      (hk : ∀ first siblings, (built wanted path.state σ d).answer ≠ .ok (first :: siblings)) :
      Site bodies σ (r.comp name fuel) s c
        ⟨Run.asBody (r.release paused), σ, (built wanted path.state σ d).context⟩
  | resumed {κ α : Type} {r : Routine V κ α} {name : String} {fuel : Nat} {s : Subject V}
      {c d : Context V} {path : Path V} {wanted : Run V (Comp V V)} {paused : κ} {first : Branch V V}
      {siblings : List (Branch V V)} (ha : r.Awaits name σ fuel s c wanted paused path d)
      (hw : (r.carryOut wanted paused path.state σ d).answer = .ok (.ok (first :: siblings))) :
      Site bodies σ (r.comp name fuel) s c ⟨Run.asBody (r.resume paused first.value), σ,
        (r.carryOut wanted paused path.state σ d).context⟩

end Comp

/-! ## Sites of routines -/

namespace Routine

variable {r : Routine V κ α} {name : String} {depth : Nat} {σ : Scope V} {y : Call V} {bodies : Bool}

/-- A path that is reached is taken up. -/
theorem Reaches.inside {fuel : Nat} {waiting : List (Path V)} {path : Path V} {c d : Context V}
    (h : r.Reaches name depth σ fuel waiting c path d)
    (hy : y.Inside bodies ⟨r.pursue name depth path, σ, d⟩) :
    y.Inside bodies ⟨r.exhaust name depth fuel waiting, σ, c⟩ := by
  induction h with
  | front => exact .first _ hy
  | later h _ ih => exact .next h (.first _ (ih hy))

/-- A path that waits for a computation has it carried out, and goes on with its first branch. -/
theorem follow_awaiting (fuel : Nat) (wanted : Run V (Comp V V)) (paused : κ) (path : Path V) :
    r.follow name (fuel + 1) (.awaiting wanted paused) path
      = r.carryOut wanted paused path.state >>= fun
        | .error details => pure (some ⟨path.state, r.whenOver details.head?⟩, [])
        | .ok [] => pure (none, [])
        | .ok (first :: siblings) => do
          match ← Run.guarding name first.state (Run.asBody (r.resume paused first.value)) with
          | none => return (none, siblings.map (.sibling path.trail))
          | some signal =>
            let (ended, later) ← r.follow name fuel signal (.sibling path.trail first)
            return (ended, later ++ siblings.map (.sibling path.trail)) := by
  rw [follow]
  refine bind_congr fun carried => ?_
  cases carried with
  | error details => rfl
  | ok found =>
    cases found with
    | nil => rfl
    | cons first siblings => exact bind_congr fun signal => by cases signal <;> rfl

/-- Where a path gets to is met in following it. -/
theorem Proceeds.inside {fuel : Nat} {signal : Signal V κ α} {path p : Path V} {c d : Context V}
    {wanted : Run V (Comp V V)} {paused : κ}
    (h : r.Proceeds name σ fuel signal path c wanted paused p d)
    (hy : ∀ k, y.Inside bodies ⟨r.follow name (k + 1) (.awaiting wanted paused) p, σ, d⟩) :
    y.Inside bodies ⟨r.follow name fuel signal path, σ, c⟩ := by
  induction h with
  | here => exact hy _
  | on hw hr _ ih =>
    rw [follow_awaiting]
    exact .next hw (.next hr (.first _ (ih hy)))

variable {fuel : Nat} {s : Subject V} {c d : Context V} {path : Path V}

/-- A body that was made ready is replayed. -/
theorem Opens.inside {ready : κ} (h : r.Opens name σ fuel s c path ready d)
    (hy : y.Inside bodies ⟨r.arrive name fuel (r.replay ready path.trail) path, σ, d⟩) :
    y.Inside bodies ⟨(r.comp name fuel).body s, σ, c⟩ := by
  obtain ⟨hp, hr⟩ := h
  refine hp.inside ?_
  rw [pursue_eq]
  exact .next hr hy

/-- What a path waits for is met in following it. -/
theorem Awaits.inside {wanted : Run V (Comp V V)} {paused : κ}
    (h : r.Awaits name σ fuel s c wanted paused path d)
    (hy : ∀ k, y.Inside bodies ⟨r.follow name (k + 1) (.awaiting wanted paused) path, σ, d⟩) :
    y.Inside bodies ⟨(r.comp name fuel).body s, σ, c⟩ := by
  obtain ⟨ho, hs, hp⟩ := h
  refine ho.inside ?_
  rw [arrive]
  exact .next hs (hp.inside hy)

/-- What a body waits for is carried out on its path. -/
theorem Awaits.inside_of_carryOut {wanted : Run V (Comp V V)} {paused : κ}
    (h : r.Awaits name σ fuel s c wanted paused path d)
    (hy : y.Inside bodies ⟨r.carryOut wanted paused path.state, σ, d⟩) :
    y.Inside bodies ⟨(r.comp name fuel).body s, σ, c⟩ := by
  refine h.inside fun k => ?_
  rw [follow_awaiting]
  exact .first _ hy

omit [Term V] in
/-- There is something to go on with only if what the body waits for gave a branch. -/
theorem not_goesOn_of_answer {x : Run V (List (Branch V V))} {a : Except (List V) (List (Branch V V))}
    (hk : ∀ first siblings, (x σ c).answer ≠ .ok (first :: siblings))
    (ha : (Run.unlessOver x σ c).answer = .ok a) : goesOn a = false := by
  match a with
  | .error details => rfl
  | .ok [] => rfl
  | .ok (first :: siblings) => exact absurd (Run.answer_of_unlessOver ha) (hk first siblings)

end Routine

/-! ## Sites are inside -/

omit [Term V] in
/-- A group of several values is put before whoever unifies. -/
theorem Heap.fuseGroup_of_several (unify : Unifier V) {g : Heap.Group V} (h : 2 ≤ g.values.length) :
    Heap.fuseGroup unify g = unify g.values >>= fun v =>
      Run.log (.unified g.values.length g.location v) >>= fun _ => pure ⟨g.location, v⟩ := by
  rcases g with ⟨l, _ | ⟨v, _ | ⟨w, vs⟩⟩⟩
  · cases h
  · exact absurd h (by simp)
  · rfl

namespace Comp

theorem forEach_body (items : List ι) (body : ι → Run V (Comp V α)) (s : Subject V) :
    (forEach items body).body s = frontier items body s >>= fun front =>
      Pure.pure (front.map fun current => ⟨current, ()⟩) := rfl

/-- **Every site is inside the application.** -/
theorem Site.inside {bodies : Bool} {σ : Scope V} {m : Comp V α} {s : Subject V} {c : Context V}
    {y : Call V} (h : Site bodies σ m s c y) : y.Inside bodies ⟨m.apply s, σ, c⟩ := by
  refine .apply ?_
  cases h with
  | bound m f s c => exact .first _ .here
  | continuation f front b rest hm hf => exact .next hm (.flatMap b _ hf (.apply .here))
  | mappedFrom m f s c => exact .first _ .here
  | mapped b hm hf => exact .next hm (.each b _ hf (.first _ .here))
  | thunk name thunk s c => exact .here
  | step m path hs hf => exact .foldlM m _ hs (.flatMap path _ hf (.first _ .here))
  | item i current hs hf =>
    rw [forEach_body]
    exact .first _ (.foldlM i _ hs (.flatMap current _ hf (.first _ (.apply .here))))
  | itemAhead hb i s hf => exact .first _ (.first _ (.each i _ hf (.asBody hb .here)))
  | @itemsBuilt _ _ items f s c steps hf =>
    let ahead := Run.each items fun i => Run.asBody (f i)
    have built : ((ahead >>= fun steps => Pure.pure (sequence steps)) σ c).answer
        = .ok (sequence steps) := Run.answer_bind_of_ok hf _
    have left : ((ahead >>= fun steps => Pure.pure (sequence steps)) σ c).context
        = (ahead σ c).context := Run.context_bind_of_ok hf _
    refine .next built ?_
    rw [left]
    exact .here
  | unifier unifier s c => exact .next rfl (.first _ (.first _ .here))
  | @policy unifier s c d unify chunks front rest g found hu hc hd hg several hf =>
    -- groups of one value are not put before the policy, which is why there have to be several
    subst hd
    refine .next rfl (.first _ (.next hu (.next hc ?_)))
    rw [hg]
    refine .each g rest hf ?_
    rw [Heap.fuseGroup_of_several unify several]
    exact .first _ .here
  | @reread unifier l retries attempt next s c d first second more hs hd hn hl =>
    subst hd
    refine .next hs ?_
    show Call.Inside _ _ ⟨Run.ordered ">=" (attempt.counted.map (· + 1)) >>= _, _, _⟩
    rw [hn]
    exact .next rfl (.next hl .here)
  | left left right s c => exact .first _ (.delimited (.first _ .here))
  | right right hl => exact .first _ (.delimited (.next hl (.first _ .here)))
  | prepared hp => exact hp.inside (.first _ .here)
  | replayed ho => exact ho.inside (.first _ (.guarded _ _ .here))
  | yielded hb ha hl => exact ha.inside_of_carryOut (.kept hl (.unlessOver hb .here))
  | released ha hx hk =>
    refine ha.inside_of_carryOut (.lettingGo (fun he => hx (Run.error_of_unlessOver he)) ?_ .here)
    exact fun a ha => Routine.not_goesOn_of_answer hk ha
  | resumed ha hw =>
    refine ha.inside fun k => ?_
    rw [Routine.follow_awaiting]
    exact .next hw (.first _ (.guarded _ _ .here))

/-! ## Escape -/

/-- **Failures stay inside and defects get out.**  Let a computation be applied or explored while failures
are guarded, or run on the side whatever the mode.

* No failure ends the application, the exploration, or what is on the side.
* A defect that any call raises in the course of the application is its answer, and so it is of the
  exploration, of whatever else the application is a part of, and under any tower of explorations,
  collectors, delimited parts and raw runs.  Only the error that says there is nothing more to come is
  held by bodies on the way, and by nothing else.
* No two calls in the course of it raise different defects that are not held.  So the first such defect is
  the only one.
* The calls that any computation makes itself are in the course of its application: the computations that
  it is made of, both sides of a fork on the side, and all host code, continuations and thunks and what
  they give, functions that are mapped, items of an iteration, policies, and on every path of a routine,
  also one that is replayed, the start of the body, how it goes on, how it is let go of, and what it
  yields if it is let go of without a fault then. -/
theorem defect_escapes [Written α] (m : Comp V α) (cap : Option (Amount V)) (s : Subject V)
    {σ : Scope V} (hσ : σ.mode = .guarded) (c : Context V) :
    (∀ f, (m.apply s σ c).answer ≠ .error (.failure f) ∧
      (m.explore cap s σ c).answer ≠ .error (.failure f) ∧
      ∀ {β : Type} (n : Comp V β) (τ : Scope V),
        ((probe m n).apply s τ c).answer ≠ .error (.failure f) ∧
        ((probe n m).apply s τ c).answer ≠ .error (.failure f)) ∧
    (∀ (bodies : Bool) (y : Call V) (d : Defect V), y.Raises d → d.Passes bodies →
      (y.Inside bodies ⟨m.apply s, σ, c⟩ → (m.apply s σ c).answer = .error (.defect d) ∧
        ∀ z : Call V, Call.Inside ⟨m.apply s, σ, c⟩ bodies z → z.Raises d) ∧
      (y.Inside bodies ⟨m.apply s, σ.receptive, c⟩ →
        (m.explore cap s σ c).answer = .error (.defect d)) ∧
      ∀ tower : List (Enclosure V), y.Inside bodies ⟨m.apply s, Enclosure.within tower σ, c⟩ →
        (Enclosure.enclosed tower (m.apply s) σ c).answer = .error (.defect d)) ∧
    (∀ (bodies bodies' : Bool) (y y' : Call V) (d d' : Defect V), d.Passes bodies → d'.Passes bodies' →
      y.Inside bodies ⟨m.apply s, σ, c⟩ → y'.Inside bodies' ⟨m.apply s, σ, c⟩ →
      y.Raises d → y'.Raises d' → d = d') ∧
    ∀ (bodies : Bool) {β : Type} (n : Comp V β) (t : Subject V) (τ : Scope V) (e : Context V)
      (y : Call V), Site bodies τ n t e y → y.Inside bodies ⟨n.apply t, τ, e⟩ := by
  refine ⟨fun f => ⟨m.contained_apply s hσ c f, m.contained_explore cap s hσ c f, fun n τ => ?_⟩,
    fun bodies y d hy hd => ⟨fun h => ⟨h.raises hd hy, fun z hz => (h.trans hz).raises hd hy⟩,
      fun h => (h.explore cap).raises hd hy, fun tower h => (h.enclosed tower).raises hd hy⟩, ?_,
    fun bodies β n t τ e y h => h.inside⟩
  · exact ⟨probe_apply_unfailing m n s τ c f, probe_apply_unfailing n m s τ c f⟩
  · intro bodies bodies' y y' d d' hd hd' h h' hy hy'
    have first : (m.apply s σ c).answer = .error (.defect d) := h.raises hd hy
    have second : (m.apply s σ c).answer = .error (.defect d') := h'.raises hd' hy'
    rw [first] at second
    cases second
    rfl

section Instances

open Script

/-- What a continuation raises that gives a number for a computation. -/
def strayed : Defect (Datum Empty) := .notComputation "binder" "int"

/-- A continuation that gives a number for a computation. -/
def straying : Comp (Datum Empty) (Datum Empty) := zero.bind fun _ => Run.reject strayed

/-- A body that forks.  Its first path reads a variable without a binding; the other one runs such a read
on the side, together with a continuation that gives a number for a computation. -/
def strayingOnReplay : Routine (Datum Empty) (List (Datum Empty)) (Datum Empty) :=
  Routine.ofSignals (·.getD .null) (fun _ => Pure.pure ()) fun trail => match trail with
    | [] => Pure.pure (.awaiting (Pure.pure (choose.map fun b => Pure.pure (.bool b))) trail)
    | [.bool true] => Pure.pure (.awaiting (Pure.pure (readVar (.text "x"))) trail)
    | _ => Pure.pure (.awaiting
        (Pure.pure ((probe (readVar (.text "x")) straying).map fun _ => Pure.pure .null)) trail)

/-- The defect on the side of a replayed path, after a failure on the first path and another one on the
other side, is how the whole ends: an exploration in a collector. -/
theorem defect_escapes_straying_on_replay :
    (Scope.of .guarded : Scope (Datum Empty)).mode = .guarded ∧
      (Enclosure.enclosed [.collector ⟨"outer", fun _ => .ok ()⟩, .exploration]
        ((strayingOnReplay.comp "body" 5).apply (.state .empty)) (.of .guarded) {}).answer
        = .error (.defect strayed) := by
  have law := (strayingOnReplay.comp "body" 5).defect_escapes none (.state .empty)
    (σ := .of .guarded) rfl {}
  obtain ⟨-, out, -, inside⟩ := law
  let c : Context (Datum Empty) := { settings := some (.loaded {}) }
  let y : Call (Datum Empty) :=
    ⟨built (Run.reject strayed : Run _ (Comp _ (Datum Empty))) (.state .empty), .of .guarded, c⟩
  have continued : y.Inside true ⟨straying.apply (.state .empty), .of .guarded, c⟩ :=
    inside true _ _ _ _ _ (.continuation _ [] ⟨.state .empty, ()⟩ [] rfl rfl)
  have onTheSide : Call.Inside _ true ⟨(probe (readVar (.text "x")) straying).apply (.state .empty), _, _⟩ :=
    inside true _ _ (.of .guarded) c _ (.right straying rfl)
  have mapped := inside true _ _ (.of .guarded) c _ (.mappedFrom (probe (readVar (.text "x")) straying)
    (fun _ => Pure.pure (Datum.null : Datum Empty)) (.state .empty) c)
  have awaited : strayingOnReplay.Awaits "body" (.of .guarded) 5 (.state .empty) {}
      (Pure.pure ((probe (readVar (.text "x")) straying).map fun _ => Pure.pure .null))
      [.bool false] ⟨[.bool false], .state .empty⟩ c :=
    .mk (.mk (.later rfl .front) rfl) rfl .here
  have yielded := inside true _ _ _ _ _ (.yielded rfl awaited rfl)
  have whole := continued.trans (onTheSide.trans (mapped.trans (.trans (.next rfl .here) yielded)))
  exact ⟨rfl, (out true y strayed rfl fun _ => rfl).2.2 _ whole⟩

/-- What is raised when a certain body is let go of. -/
def notClosed : Defect (Datum Empty) := .raised .key [.text "cleanup"]

/-- A body that waits for a computation, and raises a defect when it is let go of. -/
def closingLoudly (c : Comp (Datum Empty) (Datum Empty)) : Routine (Datum Empty) Unit (Datum Empty) where
  prepare := Pure.pure ()
  start _ := Pure.pure (.awaiting (Pure.pure c) ())
  resume _ v := Pure.pure (.finished v)
  whenOver := (·.getD .null)
  release _ := Run.reject notClosed

/-- A body that waits for a computation and is let go of by doing nothing. -/
def waiting (c : Comp (Datum Empty) (Datum Empty)) : Routine (Datum Empty) Unit (Datum Empty) :=
  { closingLoudly c with release := fun _ => Pure.pure () }

/-- What a mapped function raises that says there is nothing more to come. -/
def spent : Comp (Datum Empty) (Datum Empty) := zero.map fun _ => Run.reject (.raised .stopIteration [])

/-- **A defect can be hidden**, in three ways.  A body that waits for a computation with a defect, and
raises another one when it is let go of, ends in the second one.  A continuation that catches what a
computation raises goes on as if there had been nothing.  And a body goes on from nothing if the
computation that it waits for says there is nothing more to come. -/
theorem defect_hidden :
    (straying.apply (.state .empty) (.of .guarded) {}).answer = .error (.defect strayed) ∧
    strayed ≠ notClosed ∧
    ((closingLoudly straying).comp "n" 1 |>.apply (.state .empty) (.of .guarded) {}).answer
      = .error (.defect notClosed) ∧
    ((zero.bind fun _ => do
      let _ ← Run.attempt (straying.apply (.state .empty))
      return zero).apply (.state .empty) (.of .guarded) {}).answer = .ok [⟨.state .empty, ()⟩] ∧
    (spent.apply (.state .empty) (.of .guarded) {}).answer
      = .error (.defect (.raised .stopIteration [])) ∧
    ((waiting spent).comp "n" 1 |>.apply (.state .empty) (.of .guarded) {}).answer
      = .ok [⟨.state .empty, .null⟩] :=
  ⟨rfl, by simp [strayed, notClosed], rfl, rfl, rfl, rfl⟩

end Instances

end Comp

end SymbolicPaths
