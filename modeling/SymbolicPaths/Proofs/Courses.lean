import SymbolicPaths.Proofs.Closure
import SymbolicPaths.Proofs.Engine
import SymbolicPaths.Proofs.Isolation
import SymbolicPaths.Proofs.Leaves
/-!
# The courses that paths take

A computation that is applied gives branches and drops others, and each of them stands at the end of a
path.  `Comp.Course m s added leaf` says what such a path of `m` from `s` does: it goes from computation to
computation as the combinators lead it, `added` are the members that it puts into the heap on the way, in
order, and it ends in `leaf`.  A routine leads a path from one computation that its body waits for to the
next (`Comp.Underway`), until the body ends or is stopped, or one of these computations does not go on.

That a branch is the end of a course is shown for a whole run at once (`Comp.Piecemeal.charted`): whatever
the run answers with and whatever it drops, also if it ends in a fault, has a course, but for what host code
drops.  `Run.Within A D x`
is the form in which this is carried through sequences, guards and the engine of routines: answers satisfy
`A`, and what is dropped satisfies `D`.

## What host code drops

Host code says how a path goes on and may note and change what it likes.  It has no hand in states: these
only ever come from computations.  But host code can carry out computations of its own, from any state, and
if nobody takes what these drop it is dropped together with the rest.  Such branches are the end of no path,
and all that is said of them is what is known of the host code (`Run.DropsOnly`).
-/

namespace SymbolicPaths

variable {V α β γ ι κ : Type}

namespace Run

/-! ## Answers and dropped branches -/

/-- Whatever a run drops is one of the branches that `H` is about. -/
def DropsOnly (H : Dropped V → Prop) (x : Run V α) : Prop := ∀ σ c, ∀ d ∈ (x σ c).dropped, H d

/-- Some scope and context in which a run fails while failures are guarded. -/
def Fails (x : Run V α) (f : Failure V) : Prop :=
  ∃ σ c, σ.mode = .guarded ∧ (x σ c).answer = .error (.failure f)

/-- Whatever a run in a scope answers with satisfies `A`, and whatever it drops satisfies `D`. -/
def Within (σ : Scope V) (A : α → Prop) (D : Dropped V → Prop) (x : Run V α) : Prop :=
  ∀ c, (∀ a, (x σ c).answer = .ok a → A a) ∧ ∀ d ∈ (x σ c).dropped, D d

namespace DropsOnly

variable {H D : Dropped V → Prop}

theorem mono {x : Run V α} (h : x.DropsOnly H) (hD : ∀ d, H d → D d) : x.DropsOnly D :=
  fun σ c d hd => hD d (h σ c d hd)

theorem of_dropped_eq_nil {x : Run V α} (h : ∀ σ c, (x σ c).dropped = []) : x.DropsOnly D :=
  fun σ c d hd => by
    rw [h] at hd
    cases hd

/-- A sequence drops what its parts drop. -/
theorem family : Family (V := V) (DropsOnly D) where
  pure _ := of_dropped_eq_nil fun _ _ => rfl
  stop _ := of_dropped_eq_nil fun _ _ => rfl
  log e := of_dropped_eq_nil fun σ c => by
    rw [Run.log, emitIf]
    split <;> rfl
  bind {α β x f} h hf σ c d hd := by
    cases hx : (x σ c).answer with
    | ok a =>
      rw [dropped_bind_of_ok hx] at hd
      exact (List.mem_append.1 hd).elim (h σ c d) (hf a (answers_of_answer hx) σ _ d)
    | error e =>
      rw [dropped_bind_of_error hx] at hd
      exact h σ c d hd

/-- What leaves nothing behind but records drops nothing. -/
theorem of_silent {x : Run V α} (h : x.Silent) : x.DropsOnly D := of_dropped_eq_nil fun σ c => by
  rw [← Outcome.filterMap_pending?_news, h]
  rfl

/-- To read an answer as another drops nothing. -/
theorem reading {x : Run V α} (h : x.DropsOnly D) (g : Except (Fault V) α → Except (Fault V) β) :
    (Run.reading g x).DropsOnly D := fun σ c => h σ c

/-- Nor does what is carried out on the side. -/
theorem aside (x : Run V α) : (delimit none x).DropsOnly D := of_dropped_eq_nil (pending_delimit none x)

end DropsOnly

namespace Within

variable {σ : Scope V} {A A' : α → Prop} {B : β → Prop} {D D' : Dropped V → Prop} {x : Run V α}

theorem imp (h : Within σ A D x) (hA : ∀ a, A a → A' a) (hD : ∀ d, D d → D' d) : Within σ A' D' x :=
  fun c => ⟨fun a ha => hA a ((h c).1 a ha), fun d hd => hD d ((h c).2 d hd)⟩

theorem imp_dropped (h : Within σ A D x) (hD : ∀ d, D d → D' d) : Within σ A D' x :=
  h.imp (fun _ ha => ha) hD

/-- What drops only what it may answers with one of its answers. -/
theorem dropping (h : x.DropsOnly D) : Within σ x.Answers D x := fun c =>
  ⟨fun _ ha => answers_of_answer ha, h σ c⟩

protected theorem pure {a : α} (h : A a) : Within σ A D (pure a) :=
  (dropping (DropsOnly.family.pure a)).imp (fun _ ⟨_, _, ha⟩ => Except.ok.inj ha ▸ h) fun _ hd => hd

protected theorem stop (e : Fault V) : Within σ A D (stop e : Run V α) :=
  (dropping (DropsOnly.family.stop e)).imp (fun _ ⟨_, _, ha⟩ => by cases ha) fun _ hd => hd

protected theorem bind {f : α → Run V β} (h : Within σ A D x) (hf : ∀ a, A a → Within σ B D (f a)) :
    Within σ B D (x >>= f) := by
  intro c
  cases hx : (x σ c).answer with
  | ok a =>
    obtain ⟨answered, dropped⟩ := hf a ((h c).1 a hx) (x σ c).context
    rw [answer_bind_of_ok hx, dropped_bind_of_ok hx]
    exact ⟨answered, fun d hd => (List.mem_append.1 hd).elim ((h c).2 d) (dropped d)⟩
  | error e =>
    rw [answer_bind_of_error hx, dropped_bind_of_error hx]
    exact ⟨fun _ hb => (nomatch hb), (h c).2⟩

/-- Items are gone through one after the other, and what is found for them is put together. -/
theorem flatMap {items : List ι} {f : ι → Run V (List α)}
    (h : ∀ i ∈ items, Within σ (fun as => ∀ a ∈ as, A a) D (f i)) :
    Within σ (fun as => ∀ a ∈ as, A a) D (Run.flatMap items f) := by
  induction items with
  | nil => exact .pure fun a ha => by cases ha
  | cons i rest ih =>
    refine (h i (List.mem_cons_self ..)).bind fun here hhere => ?_
    refine (ih fun j hj => h j (List.mem_cons_of_mem i hj)).bind fun others hothers => .pure ?_
    exact fun a ha => (List.mem_append.1 ha).elim (hhere a) (hothers a)

theorem each {items : List ι} {f : ι → Run V α} (h : ∀ i ∈ items, Within σ A D (f i)) :
    Within σ (fun as => ∀ a ∈ as, A a) D (Run.each items f) := by
  induction items with
  | nil => exact .pure fun a ha => by cases ha
  | cons i rest ih =>
    refine (h i (List.mem_cons_self ..)).bind fun here hhere => ?_
    refine (ih fun j hj => h j (List.mem_cons_of_mem i hj)).bind fun others hothers => .pure ?_
    exact List.forall_mem_cons.2 ⟨hhere, hothers⟩

/-- What holds of a value when the items in `front` have been gone through. -/
theorem foldlM {items : List ι} {I : List ι → α → Prop} {f : α → ι → Run V α}
    (h : ∀ front i rest, items = front ++ i :: rest → ∀ a, I front a →
      Within σ (I (front ++ [i])) D (f a i)) {a : α} (ha : I [] a) :
    Within σ (I items) D (items.foldlM f a) := by
  -- the induction is on the items that are left; those that are done are a parameter of the invariant
  have onward : ∀ rest front, items = front ++ rest → ∀ a, I front a →
      Within σ (I items) D (rest.foldlM f a) := by
    intro rest
    induction rest with
    | nil =>
      intro front hitems a ha
      obtain rfl : items = front := by rw [hitems, List.append_nil]
      exact .pure ha
    | cons i rest ih =>
      intro front hitems a ha
      rw [List.foldlM_cons]
      refine (h front i rest hitems a ha).bind fun b hb => ih (front ++ [i]) ?_ b hb
      rw [hitems, List.append_assoc, List.singleton_append]
  exact onward items [] rfl a ha

/-- Whoever takes one error for an end answers with it, or as the run did. -/
theorem unlessOver (h : Within σ A D x) : Within σ
    (fun r => (Run.unlessOver x).Answers r ∧ ∀ a, r = .ok a → A a) D (Run.unlessOver x) := by
  refine fun c => ⟨fun r hr => ⟨answers_of_answer hr, ?_⟩, (h c).2⟩
  rintro a rfl
  exact (h c).1 a (answer_of_unlessOver hr)

/-- What is done after a run makes no other answer of it. -/
theorem afterUnless {last : Run V Unit} (h : Within σ A D x) (hl : last.DropsOnly D) (keep : α → Bool) :
    Within σ A D (Run.afterUnless keep last x) := by
  have attempted : Within σ (fun r => ∀ a, r = .ok a → A a) D (attempt x) := by
    intro c
    rw [attempt_apply]
    refine ⟨fun r hr a ha => (h c).1 a ?_, (h c).2⟩
    subst ha
    cases hx : (x σ c).answer with
    | ok b =>
      rw [hx] at hr
      cases hr
      rfl
    | error e =>
      rw [hx] at hr
      cases e <;> cases hr
  refine attempted.bind fun r hr => ?_
  cases r with
  | ok a =>
    rw [parting]
    split
    · exact .pure (hr a rfl)
    · exact (dropping hl).bind fun _ _ => .pure (hr a rfl)
  | error e => exact (dropping hl).bind fun _ _ => .stop e

theorem fail [Term V] (f : Failure V) : Within σ A D (Run.fail f : Run V α) := by
  cases f with
  | abandoned details => exact .stop _
  | _ => exact (dropping (DropsOnly.family.household.written _)).bind fun _ _ => .stop _

/-! ## Guards and applications -/

/-- A failure is reported with the subject of the guard. -/
theorem report (n : String) {s : Subject V} {f : Failure V} (hD : D ⟨s, f⟩) :
    Within σ (fun _ => True) D (Run.report n s f) := by
  refine (dropping (DropsOnly.family.log _)).bind fun _ _ c => ⟨fun _ _ => trivial, fun d hd => ?_⟩
  rw [emitIf] at hd
  split at hd
  · obtain rfl : d = ⟨s, f⟩ := List.mem_singleton.1 hd
    exact hD
  · cases hd

/-- A guard drops what the part inside does, and the subject if the part fails. -/
theorem guarding (n : String) {s : Subject V} (h : Within σ A D x) (hD : ∀ f, x.Fails f → D ⟨s, f⟩) :
    Within σ (fun r => ∀ a, r = some a → A a) D (Run.guarding n s x) := by
  intro c
  cases hσ : σ.mode with
  | raw =>
    rw [guarding_apply_of_raw n s x hσ]
    exact h.bind (fun a ha => .pure fun b hb => Option.some.inj hb ▸ ha) c
  | guarded =>
    rw [guarding_apply_of_guarded n s x hσ]
    have confined : Within σ (fun r => (∀ a, r = .ok a → A a) ∧ ∀ f, r = .error f → x.Fails f) D
        (confine x) := by
      intro c
      rw [confine_apply]
      refine ⟨fun r hr => ?_, (h c).2⟩
      have hr : Run.confined (x σ c).answer = .ok r := hr
      cases hx : (x σ c).answer with
      | ok a =>
        rw [hx] at hr
        obtain rfl : .ok a = r := Except.ok.inj hr
        exact ⟨fun b hb => Except.ok.inj hb ▸ (h c).1 a hx, fun _ hf => by cases hf⟩
      | error e =>
        rw [hx] at hr
        cases e with
        | failure f =>
          obtain rfl : .error f = r := Except.ok.inj hr
          exact ⟨fun _ hb => (nomatch hb), fun g hg => Except.error.inj hg ▸ ⟨σ, c, hσ, hx⟩⟩
        | defect d => cases hr
        | exhausted => cases hr
    refine confined.bind (fun r hr => ?_) c
    cases r with
    | ok a => exact .pure fun b hb => Option.some.inj hb ▸ hr.1 a rfl
    | error f => exact (report n (hD f (hr.2 f rfl))).bind fun _ _ => .pure fun _ hb => by cases hb

variable [Term V]

/-- What an application does after a success neither drops nor answers anything else. -/
theorem settle {P : Branch V β → Prop} (n : String) {r : Option (List (Branch V β))}
    (h : ∀ bs, r = some bs → ∀ b ∈ bs, P b) :
    Within σ (fun bs => ∀ b ∈ bs, P b) D (Run.settle n r) := by
  cases r with
  | none => exact .pure fun b hb => by cases hb
  | some bs =>
    intro c
    rw [Run.settle, mode_bind]
    split
    · have announced := DropsOnly.of_silent (D := D) (Silent.announce n bs.length)
      exact ((dropping announced).bind fun _ _ => .pure (h bs rfl)) c
    · exact Within.pure (h bs rfl) c

/-- **An application drops what its body does, and the subject if the body fails.** -/
theorem apply {P : Branch V β → Prop} {m : Comp V β} {s : Subject V}
    (h : Within σ (fun bs => ∀ b ∈ bs, P b) D (m.body s)) (hD : ∀ f, (m.body s).Fails f → D ⟨s, f⟩) :
    Within σ (fun bs => ∀ b ∈ bs, P b) D (m.apply s) := by
  rw [Comp.apply_eq]
  exact (h.guarding m.name hD).bind fun r hr => settle m.name hr

end Within

/-- An application drops what its body drops, and the subject. -/
theorem DropsOnly.apply [Term V] {D : Dropped V → Prop} {m : Comp V α} {s : Subject V}
    (h : (m.body s).DropsOnly D) (hs : ∀ f, D ⟨s, f⟩) : (m.apply s).DropsOnly D := by
  intro σ c
  have inside : Within σ (fun bs : List (Branch V α) => ∀ b ∈ bs, True) D (m.body s) :=
    (Within.dropping h).imp (fun _ _ _ _ => trivial) fun _ hd => hd
  exact (inside.apply (fun f _ => hs f) c).2

end Run

/-! ## Courses -/

section Courses

variable [Term V]

/-- The computations that neither are made of others nor put chunks into the heap or together. -/
inductive Comp.Basic : {α : Type} → Comp V α → Prop where
  | pure {α : Type} (a : α) : Basic (pure a)
  | zero : Basic zero
  | stop {α : Type} (e : Fault V) : Basic (stop e : Comp V α)
  | choose : Basic choose
  | readVar (name : V) : Basic (readVar name)
  | storeVar (name value : V) : Basic (storeVar name value)
  | getStore : Basic getStore
  | getHeap : Basic getHeap
  | writeHeap (l v : V) : Basic (heapWrite l v)
  /-- A read that may not compress the heap. -/
  | read (unifier : Run V (Unifier V)) (l : V) (attempt : Amount V) :
      Basic (heapReadWithin unifier l 0 attempt)
  /-- Nothing that happens on the side happens on the path. -/
  | probe {α β : Type} (left : Comp V α) (right : Comp V β) : Basic (probe left right)

/-- `r.Stands trail signal`: a body of `r` that was sent `trail` has come to `signal`. -/
inductive Routine.Stands (r : Routine V κ α) : List V → Signal V κ α → Prop where
  | started {ready : κ} {signal : Signal V κ α} (h : (Run.asBody (r.start ready)).Answers signal) :
      Stands r [] signal
  | sent {trail : List V} {signal next : Signal V κ α} (h : Stands r trail signal) (v : V)
      (hv : (r.send v signal).Answers next) : Stands r (trail ++ [v]) next

/-- `r.Stops trail f`: a body of `r` fails when it is sent `trail`. -/
inductive Routine.Stops (r : Routine V κ α) : List V → Failure V → Prop where
  | replayed {ready : κ} {trail : List V} {f : Failure V} (h : (r.replay ready trail).Fails f) :
      Stops r trail f
  | resumed {trail : List V} {wanted : Run V (Comp V V)} {paused : κ} {v : V} {f : Failure V}
      (h : r.Stands trail (.awaiting wanted paused)) (hv : (Run.asBody (r.resume paused v)).Fails f) :
      Stops r (trail ++ [v]) f

namespace Comp

mutual

/-- `m.Course s added leaf`: a path that `m` takes from `s` puts `added` into the heap, one after the
other, and ends in `leaf`. -/
inductive Course : {α : Type} → Comp V α → Subject V → List (Member V) →
    Leaf V (Branch V α) → Prop where
  /-- What fails itself fails in the state that it is applied to. -/
  | fails {α : Type} {m : Comp V α} {s : Subject V} {f : Failure V} (h : (m.body s).Fails f) :
      Course m s [] (.failed ⟨s, f⟩)
  | basic {α : Type} {m : Comp V α} {s : Subject V} {bs : List (Branch V α)} {b : Branch V α}
      (h : m.Basic) (hbs : (m.body s).Answers bs) (hb : b ∈ bs) : Course m s [] (.ended b)
  | chunk (c : Member V) (s : State V) :
      Course (addChunk c) (.state s) [c] (.ended ⟨.state (s.withHeap (c :: s.heap)), ()⟩)
  | compressed {unifier : Run V (Unifier V)} {s : Subject V} {bs : List (Branch V Unit)}
      {b : Branch V Unit} (hbs : ((compress unifier).body s).Answers bs) (hb : b ∈ bs) :
      Course (compress unifier) s [] (.ended b)
  | read {unifier : Run V (Unifier V)} {l : V} {retries : Nat} {attempt : Amount V} {s : Subject V}
      {added : List (Member V)} {leaf : Leaf V (Branch V V)}
      (h : Course (heapReadWithin unifier l 0 attempt) s added leaf) :
      Course (heapReadWithin unifier l (retries + 1) attempt) s added leaf
  | reread {unifier : Run V (Unifier V)} {l : V} {retries : Nat} {attempt : Amount V} {n : Int}
      {s : Subject V} {added : List (Member V)} {leaf : Leaf V (Branch V V)} {c d : Chunk V}
      {more : List (Chunk V)} (hs : (chunksAt l s).Answers (c :: d :: more)) (hn : attempt.counted = .ok n)
      (h : Course ((compress unifier).andThen (heapReadWithin unifier l retries (.number (n + 1)))) s
        added leaf) :
      Course (heapReadWithin unifier l (retries + 1) attempt) s added leaf
  | first {α β : Type} {m : Comp V α} (f : α → Run V (Comp V β)) {s : Subject V} {added : List (Member V)}
      {d : Dropped V} (h : Course m s added (.failed d)) : Course (m.bind f) s added (.failed d)
  | next {α β : Type} {m : Comp V α} {f : α → Run V (Comp V β)} {s : Subject V}
      {added later : List (Member V)} {b : Branch V α} {leaf : Leaf V (Branch V β)}
      (h : Course m s added (.ended b))
      (hd : Course (defer (m.name ++ " >>=") (f b.value)) b.state later leaf) :
      Course (m.bind f) s (added ++ later) leaf
  | mapFirst {α β : Type} (f : α → Run V β) {m : Comp V α} {s : Subject V} {added : List (Member V)}
      {d : Dropped V} (h : Course m s added (.failed d)) : Course (m.map f) s added (.failed d)
  | mapped {α β : Type} {f : α → Run V β} {m : Comp V α} {s : Subject V} {added : List (Member V)}
      {b : Branch V α} {v : β} (h : Course m s added (.ended b)) (hv : (f b.value).Answers v) :
      Course (m.map f) s added (.ended ⟨b.state, v⟩)
  | relabelled {α β : Type} (f : α → β) {m : Comp V α} {s : Subject V} {added : List (Member V)}
      {leaf : Leaf V (Branch V α)} (h : Course m s added leaf) :
      Course (m.relabel f) s added (leaf.map fun b => ⟨b.state, f b.value⟩)
  | built {α : Type} (name : String) {thunk : Run V (Comp V α)} {m : Comp V α} {s : Subject V}
      {added : List (Member V)} {leaf : Leaf V (Branch V α)} (hm : thunk.Answers m)
      (h : Course m s added leaf) : Course (defer name thunk) s added leaf
  | noSteps {α : Type} (s : Subject V) : Course (sequence ([] : List (Comp V α))) s [] (.ended ⟨s, []⟩)
  | step {α : Type} {front : List (Comp V α)} {m : Comp V α} {s : Subject V}
      {added later : List (Member V)} {path : Branch V (List α)} {b : Branch V α}
      (h : Course (sequence front) s added (.ended path)) (hm : Course m path.state later (.ended b)) :
      Course (sequence (front ++ [m])) s (added ++ later) (.ended ⟨b.state, path.value ++ [b.value]⟩)
  | lastStep {α : Type} {front : List (Comp V α)} {m : Comp V α} (rest : List (Comp V α)) {s : Subject V}
      {added later : List (Member V)} {path : Branch V (List α)} {d : Dropped V}
      (h : Course (sequence front) s added (.ended path)) (hm : Course m path.state later (.failed d)) :
      Course (sequence (front ++ m :: rest)) s (added ++ later) (.failed d)
  | noItems {ι α : Type} (body : ι → Run V (Comp V α)) (s : Subject V) :
      Course (forEach [] body) s [] (.ended ⟨s, ()⟩)
  | item {ι α : Type} {front : List ι} {i : ι} {body : ι → Run V (Comp V α)} {s current : Subject V}
      {added later : List (Member V)} {b : Branch V α}
      (h : Course (forEach front body) s added (.ended ⟨current, ()⟩))
      (hi : Course (delay (body i)) current later (.ended b)) :
      Course (forEach (front ++ [i]) body) s (added ++ later) (.ended ⟨b.state, ()⟩)
  | lastItem {ι α : Type} {front : List ι} {i : ι} (rest : List ι) {body : ι → Run V (Comp V α)}
      {s current : Subject V} {added later : List (Member V)} {d : Dropped V}
      (h : Course (forEach front body) s added (.ended ⟨current, ()⟩))
      (hi : Course (delay (body i)) current later (.failed d)) :
      Course (forEach (front ++ i :: rest) body) s (added ++ later) (.failed d)
  | returned {κ α : Type} {r : Routine V κ α} (name : String) (fuel : Nat) {s : Subject V}
      {added : List (Member V)} {path : Path V} {a : α} (h : Underway r s added path)
      (ha : r.Stands path.trail (.finished a)) : Course (r.comp name fuel) s added (.ended ⟨path.state, a⟩)
  | stopped {κ α : Type} {r : Routine V κ α} (name : String) (fuel : Nat) {s : Subject V}
      {added : List (Member V)} {path : Path V} {f : Failure V} (h : Underway r s added path)
      (hf : r.Stops path.trail f) : Course (r.comp name fuel) s added (.failed ⟨path.state, f⟩)
  | yieldedLast {κ α : Type} {r : Routine V κ α} (name : String) (fuel : Nat) {s : Subject V}
      {added later : List (Member V)} {path : Path V} {wanted : Run V (Comp V V)} {paused : κ}
      {m : Comp V V} {d : Dropped V} (h : Underway r s added path)
      (hw : r.Stands path.trail (.awaiting wanted paused)) (hm : wanted.Answers m)
      (hd : Course m path.state later (.failed d)) :
      Course (r.comp name fuel) s (added ++ later) (.failed d)
  /-- What is waited for says that there is nothing more to come. -/
  | cut {κ α : Type} {r : Routine V κ α} (name : String) (fuel : Nat) {s : Subject V}
      {added : List (Member V)} {path : Path V} {wanted : Run V (Comp V V)} {paused : κ} {details : List V}
      (h : Underway r s added path) (hw : r.Stands path.trail (.awaiting wanted paused))
      (ho : (Run.unlessOver (wanted >>= fun m => m.apply path.state)).Answers (.error details)) :
      Course (r.comp name fuel) s added (.ended ⟨path.state, r.whenOver details.head?⟩)

/-- `Underway r s added path`: a path of the routine `r` from `s` has got to `path`, and has put `added` into
the heap on the way. -/
inductive Underway : {κ α : Type} → Routine V κ α → Subject V → List (Member V) → Path V → Prop where
  | start {κ α : Type} (r : Routine V κ α) (s : Subject V) : Underway r s [] ⟨[], s⟩
  | yielded {κ α : Type} {r : Routine V κ α} {s : Subject V} {added later : List (Member V)} {path : Path V}
      {wanted : Run V (Comp V V)} {paused : κ} {m : Comp V V} {b : Branch V V}
      (h : Underway r s added path) (hw : r.Stands path.trail (.awaiting wanted paused))
      (hm : wanted.Answers m) (hb : Course m path.state later (.ended b)) :
      Underway r s (added ++ later) (.sibling path.trail b)

end

end Comp

/-- Whatever the parts of a routine drop is one of the branches that `H` is about. -/
structure Routine.DropsOnly (H : Dropped V → Prop) (r : Routine V κ α) : Prop where
  prepare : r.prepare.DropsOnly H
  start : ∀ ready, (r.start ready).DropsOnly H
  resume : ∀ paused v, (r.resume paused v).DropsOnly H
  release : ∀ paused, (r.release paused).DropsOnly H
  wanted : ∀ wanted, r.Wants wanted → wanted.DropsOnly H

omit [Term V] in
theorem Routine.DropsOnly.mono {H D : Dropped V → Prop} {r : Routine V κ α} (h : r.DropsOnly H)
    (hD : ∀ d, H d → D d) : r.DropsOnly D where
  prepare := h.prepare.mono hD
  start ready := (h.start ready).mono hD
  resume paused v := (h.resume paused v).mono hD
  release paused := (h.release paused).mono hD
  wanted wanted hw := (h.wanted wanted hw).mono hD

namespace Comp

/-- The computations that programs get from the library without replacing a store or a heap as a whole,
where whatever host code drops itself is one of the branches that `H` is about.  A traversal is a delayed
sequence, and so it is not listed. -/
inductive Piecemeal (H : Dropped V → Prop) : {α : Type} → Comp V α → Prop where
  | basic {α : Type} {m : Comp V α} (h : m.Basic) : Piecemeal H m
  | addChunk (c : Member V) : Piecemeal H (addChunk c)
  | compress {unifier : Run V (Unifier V)} (h : unifier.DropsOnly H)
      (hu : ∀ u, unifier.Answers u → ∀ vs, (u vs).DropsOnly H) : Piecemeal H (compress unifier)
  | readHeap {unifier : Run V (Unifier V)} (h : unifier.DropsOnly H)
      (hu : ∀ u, unifier.Answers u → ∀ vs, (u vs).DropsOnly H) (l : V) (attempt : Amount V) :
      Piecemeal H (heapRead unifier l attempt)
  | bind {α β : Type} {m : Comp V α} {f : α → Run V (Comp V β)} (h : Piecemeal H m)
      (hf : ∀ a, (f a).DropsOnly H) (hd : ∀ a d, (f a).Answers d → Piecemeal H d) : Piecemeal H (m.bind f)
  | map {α β : Type} {f : α → Run V β} {m : Comp V α} (hf : ∀ a, (f a).DropsOnly H)
      (h : Piecemeal H m) : Piecemeal H (m.map f)
  | relabel {α β : Type} (f : α → β) {m : Comp V α} (h : Piecemeal H m) : Piecemeal H (m.relabel f)
  | defer {α : Type} (name : String) {thunk : Run V (Comp V α)} (h : thunk.DropsOnly H)
      (hd : ∀ d, thunk.Answers d → Piecemeal H d) : Piecemeal H (defer name thunk)
  | sequence {α : Type} {steps : List (Comp V α)} (h : ∀ m ∈ steps, Piecemeal H m) :
      Piecemeal H (sequence steps)
  | forEach {ι α : Type} (items : List ι) {body : ι → Run V (Comp V α)}
      (hf : ∀ i, (body i).DropsOnly H) (hd : ∀ i d, (body i).Answers d → Piecemeal H d) :
      Piecemeal H (forEach items body)
  | routine {κ α : Type} {r : Routine V κ α} (name : String) (fuel : Nat) (h : r.DropsOnly H)
      (hd : ∀ wanted, r.Wants wanted → ∀ d, wanted.Answers d → Piecemeal H d) :
      Piecemeal H (r.comp name fuel)

/-! ## Charted computations -/

/-- Some path of `m` from `s` ends in `leaf`. -/
def Ends (m : Comp V α) (s : Subject V) (leaf : Leaf V (Branch V α)) : Prop :=
  ∃ added, m.Course s added leaf

/-- A branch that `m` drops from `s` is the end of a course, or it was host code that dropped it. -/
def Drops (H : Dropped V → Prop) (m : Comp V α) (s : Subject V) (d : Dropped V) : Prop :=
  H d ∨ m.Ends s (.failed d)

/-- Every branch that a computation gives is the end of a course, and so is every branch that it drops and
host code does not. -/
def Charted (H : Dropped V → Prop) (m : Comp V α) : Prop := ∀ s σ,
  Run.Within σ (fun bs => ∀ b ∈ bs, m.Ends s (.ended b)) (m.Drops H s) (m.body s)

open Run (Within DropsOnly)

variable {H : Dropped V → Prop} {m : Comp V α}

/-- What one computation drops another one drops, if its courses are parts of courses of that one. -/
theorem Drops.of_course {n : Comp V β} {s t : Subject V} {d : Dropped V} (h : m.Drops H s d)
    (hn : ∀ added, m.Course s added (.failed d) → n.Ends t (.failed d)) : n.Drops H t d :=
  h.imp_right fun ⟨added, course⟩ => hn added course

/-- An application drops the subject only where a path ends. -/
theorem Charted.apply (h : m.Charted H) (s : Subject V) (σ : Scope V) :
    Within σ (fun bs => ∀ b ∈ bs, m.Ends s (.ended b)) (m.Drops H s) (m.apply s) :=
  (h s σ).apply fun _ hf => .inr ⟨[], .fails hf⟩

theorem Basic.dropsOnly {D : Dropped V → Prop} (h : m.Basic) (s : Subject V) :
    (m.body s).DropsOnly D := by
  have family := (DropsOnly.family (D := D)).household
  cases h with
  | pure a => exact family.pure _
  | zero => exact family.pure _
  | stop e => exact DropsOnly.family.stop e
  | choose => exact family.pure _
  | readVar name => exact family.readVar name s
  | storeVar name value => exact family.storeVar name value s
  | getStore => exact family.getStore s
  | getHeap => exact family.getHeap s
  | writeHeap l v => exact family.writeHeap l v s
  | read unifier l attempt => exact family.readHeap l attempt s
  | probe left right => exact family.bind (.aside _) fun _ _ => family.pure _

theorem Basic.charted (h : m.Basic) : m.Charted H := fun s _ =>
  (Within.dropping (h.dropsOnly s)).imp (fun _ hbs _ hb => ⟨[], .basic h hbs hb⟩) fun _ hd => hd

theorem charted_addChunk (c : Member V) : (addChunk c).Charted H := by
  intro s σ
  cases s with
  | state s => exact .pure fun b hb => ⟨[c], List.mem_singleton.1 hb ▸ .chunk c s⟩
  | foreign v => exact .stop _

theorem charted_compress {unifier : Run V (Unifier V)} (h : unifier.DropsOnly H)
    (hu : ∀ u, unifier.Answers u → ∀ vs, (u vs).DropsOnly H) : (compress unifier).Charted H := fun s _ =>
  (Within.dropping (DropsOnly.family.household.compress h hu s)).imp
    (fun _ hbs _ hb => ⟨[], .compressed hbs hb⟩) fun _ => .inl

theorem charted_defer (name : String) {thunk : Run V (Comp V α)} (h : thunk.DropsOnly H)
    (hd : ∀ d, thunk.Answers d → d.Charted H) : (defer name thunk).Charted H := by
  intro s σ
  have thunked : Within σ thunk.Answers ((defer name thunk).Drops H s) thunk :=
    .dropping (h.mono fun _ => .inl)
  refine thunked.bind fun m hm => ((hd m hm).apply s σ).imp (fun bs hbs b hb => ?_) fun d hd => ?_
  · obtain ⟨added, course⟩ := hbs b hb
    exact ⟨added, .built name hm course⟩
  · exact hd.of_course fun added course => ⟨added, .built name hm course⟩

theorem charted_bind {f : α → Run V (Comp V β)} (h : m.Charted H) (hf : ∀ a, (f a).DropsOnly H)
    (hd : ∀ a d, (f a).Answers d → d.Charted H) : (m.bind f).Charted H := by
  intro s σ
  have first : Within σ (fun bs => ∀ b ∈ bs, m.Ends s (.ended b)) ((m.bind f).Drops H s) (m.apply s) :=
    (h.apply s σ).imp_dropped fun d hd => hd.of_course fun added course => ⟨added, .first f course⟩
  refine first.bind fun bs hbs => .flatMap fun b hb => ?_
  obtain ⟨added, course⟩ := hbs b hb
  have next : (defer (m.name ++ " >>=") (f b.value)).Charted H := charted_defer _ (hf b.value) (hd b.value)
  refine (next.apply b.state σ).imp (fun bs' hbs' b' hb' => ?_) fun d hd => ?_
  · obtain ⟨later, course'⟩ := hbs' b' hb'
    exact ⟨added ++ later, .next course course'⟩
  · exact hd.of_course fun later course' => ⟨added ++ later, .next course course'⟩

theorem charted_map {f : α → Run V β} (hf : ∀ a, (f a).DropsOnly H) (h : m.Charted H) :
    (m.map f).Charted H := by
  intro s σ
  have first : Within σ (fun bs => ∀ b ∈ bs, m.Ends s (.ended b)) ((m.map f).Drops H s) (m.apply s) :=
    (h.apply s σ).imp_dropped fun d hd => hd.of_course fun added course => ⟨added, .mapFirst f course⟩
  refine first.bind fun bs hbs => .each fun b hb => ?_
  obtain ⟨added, course⟩ := hbs b hb
  have image : Within σ (f b.value).Answers ((m.map f).Drops H s) (f b.value) :=
    .dropping ((hf b.value).mono fun _ => .inl)
  exact image.bind fun v hv => .pure ⟨added, .mapped course hv⟩

theorem charted_relabel (f : α → β) (h : m.Charted H) : (m.relabel f).Charted H := by
  intro s σ
  have first : Within σ (fun bs => ∀ b ∈ bs, m.Ends s (.ended b)) ((m.relabel f).Drops H s) (m.body s) :=
    (h s σ).imp_dropped fun d hd => hd.of_course fun added course => ⟨added, .relabelled f course⟩
  refine first.bind fun bs hbs => .pure fun b' hb' => ?_
  obtain ⟨b, hb, rfl⟩ := List.mem_map.1 hb'
  obtain ⟨added, course⟩ := hbs b hb
  exact ⟨added, .relabelled f course⟩

theorem charted_heapReadWithin {unifier : Run V (Unifier V)} (h : unifier.DropsOnly H)
    (hu : ∀ u, unifier.Answers u → ∀ vs, (u vs).DropsOnly H) (l : V) (retries : Nat)
    (attempt : Amount V) : (heapReadWithin unifier l retries attempt).Charted H := by
  induction retries generalizing attempt with
  | zero => exact (Basic.read unifier l attempt).charted
  | succ retries ih =>
    intro s σ
    refine (Within.dropping (DropsOnly.family.household.chunksAt l s)).bind fun chunks hchunks => ?_
    match chunks with
    | [] => exact .fail _
    | [c] =>
      -- with one chunk at the location, retries make no difference: a read without any gives the same
      obtain ⟨τ, k, hchunks⟩ := hchunks
      have here : ((heapReadWithin unifier l 0 attempt).body s).Answers [⟨s, c.value⟩] :=
        ⟨τ, k, Run.answer_bind_of_ok hchunks _⟩
      exact .pure fun b hb => ⟨[], .read (.basic (.read unifier l attempt) here hb)⟩
    | c :: d :: more =>
      cases hn : attempt.counted with
      | error operands => exact .stop _
      | ok n =>
        have again : ((compress unifier).andThen
            (heapReadWithin unifier l retries (.number (n + 1)))).Charted H := by
          refine charted_bind (charted_compress h hu) (fun _ => DropsOnly.family.pure _) fun _ m hm => ?_
          obtain ⟨τ, k, hm⟩ := hm
          obtain rfl : heapReadWithin unifier l retries (.number (n + 1)) = m := Except.ok.inj hm
          exact ih _
        refine (Within.dropping (DropsOnly.family.log _)).bind fun _ _ => ?_
        refine (again.apply s σ).imp (fun bs hbs b hb => ?_) fun d hd => ?_
        · obtain ⟨added, course⟩ := hbs b hb
          exact ⟨added, .reread hchunks hn course⟩
        · exact hd.of_course fun added course => ⟨added, .reread hchunks hn course⟩

theorem charted_sequence {steps : List (Comp V α)} (h : ∀ m ∈ steps, m.Charted H) :
    (sequence steps).Charted H := by
  intro s σ
  refine .foldlM (I := fun front frontier => ∀ path ∈ frontier, (sequence front).Ends s (.ended path))
    (fun front m rest hsteps frontier hfrontier => .flatMap fun path hpath => ?_) ?_
  · obtain ⟨added, course⟩ := hfrontier path hpath
    have hm : m.Charted H := h m (hsteps ▸ List.mem_append_right front (List.mem_cons_self ..))
    have step : Within σ (fun bs => ∀ b ∈ bs, m.Ends path.state (.ended b)) ((sequence steps).Drops H s)
        (m.apply path.state) := (hm.apply path.state σ).imp_dropped fun d hd =>
      hd.of_course fun later course' => ⟨added ++ later, hsteps ▸ .lastStep rest course course'⟩
    refine step.bind fun bs hbs => .pure fun b' hb' => ?_
    obtain ⟨b, hb, rfl⟩ := List.mem_map.1 hb'
    obtain ⟨later, course'⟩ := hbs b hb
    exact ⟨added ++ later, .step course course'⟩
  · exact List.forall_mem_singleton.2 ⟨[], .noSteps s⟩

theorem charted_forEach (items : List ι) {body : ι → Run V (Comp V α)} (hf : ∀ i, (body i).DropsOnly H)
    (hd : ∀ i d, (body i).Answers d → d.Charted H) : (forEach items body).Charted H := by
  intro s σ
  refine Within.bind (A := fun frontier => ∀ t ∈ frontier, (forEach items body).Ends s (.ended ⟨t, ()⟩))
    (.foldlM (I := fun front frontier => ∀ t ∈ frontier, (forEach front body).Ends s (.ended ⟨t, ()⟩))
      (fun front i rest hitems frontier hfrontier => .flatMap fun current hcurrent => ?_) ?_)
    fun frontier hfrontier => .pure fun b hb => ?_
  · obtain ⟨added, course⟩ := hfrontier current hcurrent
    have delayed : (delay (body i)).Charted H := charted_defer "delay" (hf i) (hd i)
    have step : Within σ (fun bs => ∀ b ∈ bs, (delay (body i)).Ends current (.ended b))
        ((forEach items body).Drops H s) ((delay (body i)).apply current) :=
      (delayed.apply current σ).imp_dropped fun d hd =>
        hd.of_course fun later course' => ⟨added ++ later, hitems ▸ .lastItem rest course course'⟩
    refine step.bind fun bs hbs => .pure fun t ht => ?_
    obtain ⟨b, hb, rfl⟩ := List.mem_map.1 ht
    obtain ⟨later, course'⟩ := hbs b hb
    exact ⟨added ++ later, .item course course'⟩
  · exact List.forall_mem_singleton.2 ⟨[], .noItems body s⟩
  · obtain ⟨t, ht, rfl⟩ := List.mem_map.1 hb
    exact hfrontier t ht

end Comp

/-! ## Routines -/

namespace Routine

open Run (Within)

variable {H : Dropped V → Prop} {r : Routine V κ α}

omit [Term V] in
/-- What a body that has come somewhere waits for is wanted by the routine. -/
theorem Stands.wants {trail : List V} {wanted : Run V (Comp V V)} {paused : κ}
    (h : r.Stands trail (.awaiting wanted paused)) : r.Wants wanted := by
  cases h with
  | started h => exact .first _ paused (Run.answers_of_asBody h)
  | @sent trail signal _ h v hv =>
    cases signal with
    | finished a =>
      obtain ⟨σ, c, hv⟩ := hv
      cases hv
    | awaiting other waiting => exact .next waiting paused v (Run.answers_of_asBody hv)

omit [Term V] in
/-- A replay brings a body to where its trail leads. -/
theorem stands_of_replay {ready : κ} {trail : List V} {signal : Signal V κ α}
    (h : (r.replay ready trail).Answers signal) : r.Stands trail signal := by
  -- the trail is sent from the front, while positions grow at the back
  have onward : ∀ back front (middle : Signal V κ α), r.Stands front middle →
      (r.feed back middle).Answers signal → r.Stands (front ++ back) signal := by
    intro back
    induction back with
    | nil =>
      rintro front middle hmiddle ⟨σ, c, h⟩
      obtain rfl : middle = signal := Except.ok.inj h
      rwa [List.append_nil]
    | cons v back ih =>
      rintro front middle hmiddle ⟨σ, c, h⟩
      obtain ⟨next, hnext, h⟩ := Run.exists_of_answer_bind_ok h
      have sent := ih (front ++ [v]) next (.sent hmiddle v (Run.answers_of_answer hnext))
        (Run.answers_of_answer h)
      rwa [List.append_assoc, List.singleton_append] at sent
  obtain ⟨σ, c, h⟩ := h
  obtain ⟨first, hfirst, h⟩ := Run.exists_of_answer_bind_ok h
  exact onward trail [] first (.started (Run.answers_of_answer hfirst)) (Run.answers_of_answer h)

omit [Term V] in
/-- A replay drops what the parts of the routine drop. -/
theorem DropsOnly.replay (hq : r.DropsOnly H) (ready : κ) (trail : List V) :
    (r.replay ready trail).DropsOnly H := by
  have family := Run.DropsOnly.family (D := H)
  have feed : ∀ trail (signal : Signal V κ α), (r.feed trail signal).DropsOnly H := by
    intro trail
    induction trail with
    | nil => exact family.pure
    | cons v trail ih =>
      intro signal
      refine family.bind ?_ fun next _ => ih next
      cases signal with
      | finished a => exact family.pure _
      | awaiting wanted paused => exact (hq.resume paused v).reading _
  exact family.bind ((hq.start ready).reading _) fun signal _ => feed trail signal

variable (name : String) (fuel : Nat) (s : Subject V)

/-- What a path of a routine ends in, and what it leaves waiting. -/
structure Found (r : Routine V κ α) (name : String) (fuel : Nat) (s : Subject V)
    (found : Option (Branch V α) × List (Path V)) : Prop where
  ended : ∀ b, found.1 = some b → (r.comp name fuel).Ends s (.ended b)
  waiting : ∀ p ∈ found.2, ∃ added, Comp.Underway r s added p

/-- Nothing is found where a path fails, besides what waits. -/
theorem Found.none {waiting : List (Path V)} (h : ∀ p ∈ waiting, ∃ added, Comp.Underway r s added p) :
    r.Found name fuel s (none, waiting) := ⟨fun _ hb => (nomatch hb), h⟩

variable (hq : r.DropsOnly H) (hd : ∀ wanted, r.Wants wanted → ∀ d, wanted.Answers d → d.Charted H)

include hq hd

/-- A path that is followed takes its course, and so do the siblings that it leaves waiting. -/
theorem follow_within (σ : Scope V) (depth : Nat) (signal : Signal V κ α) (path : Path V)
    (hp : ∃ added, Comp.Underway r s added path) (hs : r.Stands path.trail signal) :
    Within σ (r.Found name fuel s) ((r.comp name fuel).Drops H s) (r.follow name depth signal path) := by
  have hq' : r.DropsOnly ((r.comp name fuel).Drops H s) := hq.mono fun _ => .inl
  have returned : ∀ {path : Path V} {a : α}, (∃ added, Comp.Underway r s added path) →
      r.Stands path.trail (.finished a) → r.Found name fuel s (some ⟨path.state, a⟩, []) :=
    fun hp ha => ⟨fun b hb => Option.some.inj hb ▸ hp.imp fun _ course => .returned name fuel course ha,
      fun _ h => nomatch h⟩
  induction depth generalizing signal path with
  | zero =>
    cases signal with
    | finished a => exact .pure (returned hp hs)
    | awaiting wanted paused => exact .stop _
  | succ depth ih =>
    cases signal with
    | finished a => exact .pure (returned hp hs)
    | awaiting wanted paused =>
      obtain ⟨added, course⟩ := hp
      have applied : Within σ (fun bs => ∀ b ∈ bs, ∃ m, wanted.Answers m ∧ m.Ends path.state (.ended b))
          ((r.comp name fuel).Drops H s) (wanted >>= fun m => m.apply path.state) := by
        refine (Within.dropping (hq'.wanted wanted hs.wants)).bind fun m hm => ?_
        refine ((hd wanted hs.wants m hm).apply path.state σ).imp (fun bs hbs b hb => ⟨m, hm, hbs b hb⟩)
          fun d hd => hd.of_course fun later course' => ?_
        exact ⟨added ++ later, .yieldedLast name fuel course hs hm course'⟩
      refine (applied.unlessOver.afterUnless ((hq'.release paused).reading _) _).bind fun carried hcarried => ?_
      match carried with
      | .error details =>
        exact .pure ⟨fun b hb => Option.some.inj hb ▸ ⟨added, .cut name fuel course hs hcarried.1⟩,
          fun _ h => nomatch h⟩
      | .ok bs =>
        have siblings : ∀ b ∈ bs, ∃ added, Comp.Underway r s added (.sibling path.trail b) := fun b hb =>
          have ⟨_, hm, hends⟩ := hcarried.2 bs rfl b hb
          hends.imp' (added ++ ·) fun _ course' => .yielded course hs hm course'
        cases bs with
        | nil => exact .pure (.none name fuel s fun _ h => nomatch h)
        | cons first others =>
          have next := siblings first (List.mem_cons_self ..)
          have waiting : ∀ p ∈ others.map (.sibling path.trail), ∃ added, Comp.Underway r s added p :=
            List.forall_mem_map.2 fun b hb => siblings b (List.mem_cons_of_mem first hb)
          have resumed : Within σ (Run.asBody (r.resume paused first.value)).Answers
              ((r.comp name fuel).Drops H s) (Run.asBody (r.resume paused first.value)) :=
            .dropping ((hq'.resume paused first.value).reading _)
          refine (resumed.guarding name fun f hf => .inr ?_).bind fun signal hsignal => ?_
          · exact next.imp fun _ course => .stopped name fuel course (.resumed hs hf)
          · cases signal with
            | none => exact .pure (.none name fuel s waiting)
            | some signal =>
              -- the body has been sent one value more, and so has the path
              have stands := Stands.sent hs first.value (hsignal signal rfl)
              refine (ih signal (.sibling path.trail first) next stands).bind fun found hfound => .pure ?_
              exact ⟨hfound.ended, fun p hp => (List.mem_append.1 hp).elim (hfound.waiting p) (waiting p)⟩

/-- A path that is taken up again goes on with its course. -/
theorem pursue_within (σ : Scope V) (depth : Nat) (path : Path V)
    (hp : ∃ added, Comp.Underway r s added path) :
    Within σ (r.Found name fuel s) ((r.comp name fuel).Drops H s) (r.pursue name depth path) := by
  have hq' : r.DropsOnly ((r.comp name fuel).Drops H s) := hq.mono fun _ => .inl
  refine (Within.dropping hq'.prepare).bind fun ready _ => ?_
  have replayed : Within σ (r.replay ready path.trail).Answers ((r.comp name fuel).Drops H s)
      (r.replay ready path.trail) := .dropping (hq'.replay ready path.trail)
  refine (replayed.guarding name fun f hf => .inr ?_).bind fun signal hsignal => ?_
  · exact hp.imp fun _ course => .stopped name fuel course (.replayed hf)
  · cases signal with
    | none => exact .pure (.none name fuel s fun _ h => nomatch h)
    | some signal =>
      exact follow_within name fuel s hq hd σ depth signal path hp (stands_of_replay (hsignal signal rfl))

/-- Every branch of a routine is the end of a course, and so is every branch that it drops and host code
does not. -/
theorem charted_comp : (r.comp name fuel).Charted H := by
  intro s σ
  have exhausted : ∀ left waiting, (∀ p ∈ waiting, ∃ added, Comp.Underway r s added p) →
      Within σ (fun bs => ∀ b ∈ bs, (r.comp name fuel).Ends s (.ended b)) ((r.comp name fuel).Drops H s)
        (r.exhaust name fuel left waiting) := by
    intro left
    induction left with
    | zero =>
      intro waiting _
      cases waiting with
      | nil => exact .pure fun _ h => nomatch h
      | cons path waiting => exact .stop _
    | succ left ih =>
      intro waiting hwaiting
      cases waiting with
      | nil => exact .pure fun _ h => nomatch h
      | cons path waiting =>
        obtain ⟨hp, hrest⟩ := List.forall_mem_cons.1 hwaiting
        refine (pursue_within name fuel s hq hd σ fuel path hp).bind fun found hfound => ?_
        refine (ih _ (List.forall_mem_append.2 ⟨hfound.waiting, hrest⟩)).bind fun others hothers => ?_
        refine .pure (List.forall_mem_append.2 ⟨fun b hb => ?_, hothers⟩)
        exact hfound.ended b (Option.mem_toList.1 hb)
  exact exhausted fuel _ (List.forall_mem_singleton.2 ⟨[], .start r s⟩)

end Routine

/-- **Every path of a computation takes its course.** -/
theorem Comp.Piecemeal.charted {H : Dropped V → Prop} {m : Comp V α} (h : m.Piecemeal H) :
    m.Charted H := by
  induction h with
  | basic h => exact h.charted
  | addChunk c => exact charted_addChunk c
  | compress h hu => exact charted_compress h hu
  | readHeap h hu l attempt => exact charted_heapReadWithin h hu l _ attempt
  | bind _ hf _ ih ihd => exact charted_bind ih hf ihd
  | map hf _ ih => exact charted_map hf ih
  | relabel f _ ih => exact charted_relabel f ih
  | defer name h _ ih => exact charted_defer name h ih
  | sequence _ ih => exact charted_sequence ih
  | forEach items hf _ ih => exact charted_forEach items hf ih
  | routine name fuel h _ ih => exact Routine.charted_comp name fuel h ih

end Courses

end SymbolicPaths
