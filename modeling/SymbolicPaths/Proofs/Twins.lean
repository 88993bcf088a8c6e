import Mathlib.Order.Filter.AtTopBot.Basic
import SymbolicPaths.Proofs.Engine
import SymbolicPaths.Proofs.Conclusion
import SymbolicPaths.Proofs.Telling
/-!
# Runs side by side

Two runs are compared that start from states which are alike but not the same: their stores agree, and
their heaps stand in a relation.  A `Likeness` says which relation this is and by which policies heaps may
be compressed.  `Run.Twin` says that wherever the first run ends, the second one ends alike: answers are
related, and the dropped branches are, one by one and in order, with equal errors and states that are alike.

The relation goes from the first run to the second.  It asks nothing where the first one ran out of steps,
and of the second one only that it ends alike once it may take enough steps.  That is why the second run
comes as a family, one run for each number of steps that routines in it may take, and why the members of
the family have to agree from some number on: what follows is chosen by what they answer.

## Strict and lax likenesses

In a strict likeness the two runs do the same things, so their contexts are the same at every point.  In a
lax one either run may compress its heap where the other does not, and has then looked at the settings
earlier; so contexts are compared up to that, and only where runs are served.
-/

namespace SymbolicPaths

open Filter

variable {V α β γ δ ι κ : Type}

/-- Answers are related, or the same error stands in their place. -/
inductive Answered {ε : Type} (A : α → β → Prop) : Except ε α → Except ε β → Prop
  | ok {a : α} {b : β} (h : A a b) : Answered A (.ok a) (.ok b)
  | error (e : ε) : Answered A (.error e) (.error e)

namespace Answered

variable {ε : Type} {A : α → β → Prop}

theorem eq_error {e : ε} {r : Except ε β} (h : Answered A (.error e) r) : r = .error e := by
  cases h
  rfl

theorem exists_ok {a : α} {r : Except ε β} (h : Answered A (.ok a) r) : ∃ b, r = .ok b ∧ A a b := by
  cases h with
  | ok h => exact ⟨_, rfl, h⟩

theorem refl {A : α → α → Prop} (hA : ∀ a, A a a) (r : Except ε α) : Answered A r r := by
  cases r with
  | ok a => exact .ok (hA a)
  | error e => exact .error e

theorem imp {B : α → β → Prop} (hAB : ∀ a b, A a b → B a b) {r : Except ε α} {s : Except ε β}
    (h : Answered A r s) : Answered B r s := by
  cases h with
  | ok h => exact .ok (hAB _ _ h)
  | error e => exact .error e

/-- What is related is related after both runs were confined. -/
theorem confined {r : Except (Fault V) α} {s : Except (Fault V) β} (h : Answered A r s) :
    Answered (Answered A) (Run.confined r) (Run.confined s) := by
  rcases h with (hab | (f | d | _))
  · exact .ok (.ok hab)
  · exact .ok (.error f)
  · exact .error _
  · exact .error _

theorem attempted {r : Except (Fault V) α} {s : Except (Fault V) β} (h : Answered A r s) :
    Answered (Answered A) (Run.attempted r) (Run.attempted s) := by
  rcases h with (hab | (f | d | _))
  · exact .ok (.ok hab)
  · exact .ok (.error _)
  · exact .ok (.error _)
  · exact .error _

theorem mapError (f : ε → ε) {r : Except ε α} {s : Except ε β} (h : Answered A r s) :
    Answered A (r.mapError f) (s.mapError f) := by
  cases h with
  | ok h => exact .ok h
  | error e => exact .error (f e)

/-- What is related is related for whoever takes an error for an end. -/
theorem withOver {r : Except (Fault V) α} {s : Except (Fault V) β} (h : Answered A r s) :
    Answered (Answered A) (Run.withOver r) (Run.withOver s) := by
  cases h with
  | ok h => exact .ok (.ok h)
  | error e =>
    rw [Run.withOver, Run.withOver]
    split
    · exact .ok (.error _)
    · exact .error e

end Answered

/-- Which states are alike, and by which policies their heaps may be compressed. -/
structure Likeness (V : Type) [Term V] where
  carrier : Carrier V
  /-- The policy in force. -/
  policy : Policy V
  /-- Which heaps are alike. -/
  heap : List (Chunk V) → List (Chunk V) → Prop
  /-- What compressions and reads may be given. -/
  unifier : Unifying V → Prop
  /-- Whether a run may compress its heap where the other one does not. -/
  lax : Prop

section Likeness

variable [Term V]

namespace Likeness

variable (L : Likeness V)

/-- Subjects that are alike. -/
inductive Subjects : Subject V → Subject V → Prop
  | state {s t : Store V} {h k : List (Chunk V)} (store : L.carrier.Agree s t) (heap : L.heap h k) :
      Subjects (.state (.ofChunks s h)) (.state (.ofChunks t k))

/-- Branches that are alike, with results that are related. -/
structure Branches (A : α → β → Prop) (b : Branch V α) (b' : Branch V β) : Prop where
  state : L.Subjects b.state b'.state
  value : A b.value b'.value

/-- Lists of branches that are alike, position by position. -/
abbrev BranchLists (A : α → β → Prop) : List (Branch V α) → List (Branch V β) → Prop :=
  List.Forall₂ (L.Branches A)

theorem branchLists_imp {L : Likeness V} {A B : α → β → Prop} (hAB : ∀ a b, A a b → B a b)
    (bs : List (Branch V α)) (bs' : List (Branch V β)) (h : L.BranchLists A bs bs') :
    L.BranchLists B bs bs' :=
  List.Forall₂.imp (fun _ _ hb => ⟨hb.state, hAB _ _ hb.value⟩) h

/-- Dropped branches that are alike: the same error, in states that are alike. -/
structure Drops (d d' : Dropped V) : Prop where
  state : L.Subjects d.state d'.state
  error : d.error = d'.error

/-- Contexts that are alike at some point of two runs in the same scope. -/
structure Contexts (σ : Scope V) (c d : Context V) : Prop where
  records : ∀ e, σ.records e = .ok ()
  receives : ∀ d, σ.receives d = .ok ()
  policy : c.policy = L.policy
  strict : ¬ L.lax → c = d
  lax : L.lax → σ.Serves c ∧ c.primed = d.primed

variable {L} {σ : Scope V} {c d : Context V}

namespace Contexts

theorem policy_right (h : L.Contexts σ c d) : d.policy = L.policy := by
  by_cases hL : L.lax
  · rw [← h.policy, ← Context.policy_primed d, ← (h.lax hL).2, Context.policy_primed]
  · rw [← h.strict hL, h.policy]

/-- Where runs are compared up to the settings, the second one is served too. -/
theorem serves_right (h : L.Contexts σ c d) (hL : L.lax) : σ.Serves d :=
  (h.lax hL).1.of_primed_eq (h.lax hL).2

/-- In a lax likeness it does not matter whether the settings have been read. -/
theorem of_primed_eq (h : L.Contexts σ c d) (hL : L.lax) {c' d' : Context V} (hc : c'.primed = c.primed)
    (hd : d'.primed = d.primed) : L.Contexts σ c' d' := by
  refine ⟨h.records, h.receives, ?_, fun hn => absurd hL hn, fun _ => ⟨?_, ?_⟩⟩
  · rw [← h.policy, ← Context.policy_primed c', hc, Context.policy_primed]
  · exact (h.lax hL).1.of_primed_eq hc.symm
  · rw [hc, hd]
    exact (h.lax hL).2

end Contexts

/-- How an outcome of the second run goes with where the first one left off. -/
structure Echo (L : Likeness V) (σ : Scope V) (left : Context V) (r : Except (Fault V) β)
    (ds : List (Dropped V)) (p : Outcome V β) : Prop where
  answer : p.answer = r
  dropped : p.dropped = ds
  contexts : L.Contexts σ left p.context

end Likeness

namespace Run

variable (L : Likeness V)

/-- A run that starts here ends alike with the second one, if that may take enough steps. -/
def TwinAt (A : α → β → Prop) (σ : Scope V) (c : Context V) (x : Run V α) (y : Nat → Run V β) : Prop :=
  (x σ c).answer ≠ .error .exhausted → ∃ r ds, Answered A (x σ c).answer r ∧
    List.Forall₂ L.Drops (x σ c).dropped ds ∧
      ∀ᶠ n in atTop, ∀ ⦃d⦄, L.Contexts σ c d → L.Echo σ (x σ c).context r ds (y n σ d)

/-- Wherever the first run ends, the second one ends alike if it may take enough steps. -/
def Twin (A : α → β → Prop) (x : Run V α) (y : Nat → Run V β) : Prop :=
  ∀ ⦃σ c d⦄, L.Contexts σ c d → TwinAt L A σ c x y

variable {L} {A : α → β → Prop} {B : γ → δ → Prop} {σ : Scope V} {c : Context V} {x x' : Run V α}
  {y y' : Nat → Run V β}

/-- Twins are compared where they are carried out. -/
theorem TwinAt.congr (h : TwinAt L A σ c x y) (hx : x' σ c = x σ c) (hy : ∀ n d, y' n σ d = y n σ d) :
    TwinAt L A σ c x' y' := by
  intro hne
  rw [hx] at hne ⊢
  obtain ⟨r, ds, hr, hds, eventually⟩ := h hne
  refine ⟨r, ds, hr, hds, eventually.mono fun n hn d hd => ?_⟩
  rw [hy]
  exact hn hd

/-- Nothing is asked where the first run is out of steps. -/
theorem TwinAt.of_exhausted (h : (x σ c).answer = .error .exhausted) : TwinAt L A σ c x y :=
  fun hne => absurd h hne

/-- Sequences are twins here if their first parts are, and whatever follows is anywhere. -/
theorem TwinAt.bind {d : Context V} {f : α → Run V γ} {g : Nat → β → Run V δ} (h : TwinAt L A σ c x y)
    (hcd : L.Contexts σ c d) (hf : ∀ a b, A a b → Twin L B (f a) fun n => g n b) :
    TwinAt L B σ c (x >>= f) fun n => y n >>= g n := by
  intro hne
  obtain ⟨r, ds, hr, hds, eventually⟩ := h fun he => hne (answer_bind_of_error he f)
  cases ha : (x σ c).answer with
  | error e =>
    rw [ha] at hr
    obtain rfl := hr.eq_error
    rw [answer_bind_of_error ha, dropped_bind_of_error ha, context_bind_of_error ha]
    refine ⟨.error e, ds, .error e, hds, eventually.mono fun n hn d hd => ?_⟩
    have echo := hn hd
    refine ⟨answer_bind_of_error echo.answer _, ?_, ?_⟩
    · rw [dropped_bind_of_error echo.answer, echo.dropped]
    · rw [context_bind_of_error echo.answer]
      exact echo.contexts
  | ok a =>
    rw [ha] at hr
    obtain ⟨b, rfl, hab⟩ := hr.exists_ok
    -- some member of the family answers, and what follows starts where it leaves off
    obtain ⟨m, hm⟩ := eventually.exists
    rw [answer_bind_of_ok ha] at hne
    obtain ⟨r', ds', hr', hds', eventually'⟩ := hf a b hab (hm hcd).contexts hne
    rw [answer_bind_of_ok ha, dropped_bind_of_ok ha, context_bind_of_ok ha]
    refine ⟨r', ds ++ ds', hr', List.rel_append hds hds', ?_⟩
    filter_upwards [eventually, eventually'] with n hn hn' d hd
    have echo := hn hd
    have echo' := hn' echo.contexts
    refine ⟨?_, ?_, ?_⟩
    · rw [answer_bind_of_ok echo.answer, echo'.answer]
    · rw [dropped_bind_of_ok echo.answer, echo.dropped, echo'.dropped]
    · rw [context_bind_of_ok echo.answer]
      exact echo'.contexts

/-- In a lax likeness, runs that nobody could tell from related answers are twins here. -/
theorem TwinAt.of_alike (hL : L.lax) {r : Except (Fault V) α} {s : Except (Fault V) β}
    (hx : Outcome.Alike σ (x σ c) (ofExcept r σ c))
    (hy : ∀ n d, L.Contexts σ c d → Outcome.Alike σ (y n σ d) (ofExcept s σ d)) (h : Answered A r s) :
    TwinAt L A σ c x y := by
  intro _
  refine ⟨s, [], hx.answer ▸ h, ?_, .of_forall fun n d hd => ?_⟩
  · rw [hx.dropped]
    exact .nil
  · have there := hy n d hd
    exact ⟨there.answer, there.dropped, hd.of_primed_eq hL hx.context there.context⟩

namespace Twin

/-- Only what the second run does with enough steps counts. -/
theorem of_eventually (h : Twin L A x y) (hy : ∀ᶠ n in atTop, y' n = y n) : Twin L A x y' := by
  intro σ c d hcd hne
  obtain ⟨r, ds, hr, hds, eventually⟩ := h hcd hne
  refine ⟨r, ds, hr, hds, ?_⟩
  filter_upwards [eventually, hy] with n hn heq d hd
  rw [heq]
  exact hn hd

/-- Answers may be related more loosely. -/
theorem imp {A' : α → β → Prop} (h : Twin L A x y) (hA : ∀ a b, A a b → A' a b) : Twin L A' x y := by
  intro σ c d hcd hne
  obtain ⟨r, ds, hr, rest⟩ := h hcd hne
  exact ⟨r, ds, hr.imp hA, rest⟩

theorem exhausted : Twin L A Run.exhausted y := fun _ _ _ _ => .of_exhausted rfl

/-- Runs that tell answers are twins if the answers are related. -/
theorem of_tells {r : Except (Fault V) α} {s : Except (Fault V) β} (hx : x.Tells L.policy r)
    (hy : ∀ n, (y n).Tells L.policy s) (h : Answered A r s) : Twin L A x y := by
  intro σ c d hcd hne
  obtain ⟨answer, -, context⟩ := hx hcd.records hcd.policy
  refine ⟨s, [], answer ▸ h, ?_, .of_forall fun n d hd => ?_⟩
  · rw [hx.dropped hcd.records hcd.policy]
    exact .nil
  · obtain ⟨answer', -, context'⟩ := hy n hd.records hd.policy_right
    refine ⟨answer', (hy n).dropped hd.records hd.policy_right, ?_⟩
    rw [context, context']
    exact hd

protected theorem pure {a : α} {b : β} (h : A a b) : Twin L A (pure a) fun _ => pure b :=
  of_tells (tells_pure a) (fun _ => tells_pure b) (.ok h)

protected theorem stop (e : Fault V) : Twin L A (stop e) fun _ => stop e :=
  of_tells (tells_stop e) (fun _ => tells_stop e) (.error e)

/-- A run that tells something is its own twin. -/
theorem same {x : Run V α} (h : x.Telling L.policy) : Twin L Eq x fun _ => x :=
  of_tells h.tells (fun _ => h.tells) (.refl (fun _ => rfl) _)

/-- **Sequences are twins if their parts are.** -/
protected theorem bind {f : α → Run V γ} {g : Nat → β → Run V δ} (h : Twin L A x y)
    (hf : ∀ a b, A a b → Twin L B (f a) fun n => g n b) : Twin L B (x >>= f) fun n => y n >>= g n :=
  fun _ _ _ hcd => (h hcd).bind hcd hf

/-! ## Runs that come to an answer -/

section Lax

variable (hL : L.lax)

include hL

theorem of_comes {r : Except (Fault V) α} {s : Except (Fault V) β} (hx : x.Comes L.policy r)
    (hy : ∀ n, (y n).Comes L.policy s) (h : Answered A r s) : Twin L A x y := fun _ _ _ hcd =>
  .of_alike hL (hx (hcd.lax hL).1 hcd.policy) (fun n _ hd => hy n (hd.serves_right hL) hd.policy_right) h

/-- What only the first run does, and comes to an answer, can be left out. -/
theorem skip_left {f : α → Run V γ} {g : Nat → Run V δ} {a : α} (hx : x.Comes L.policy (.ok a))
    (h : Twin L B (f a) g) : Twin L B (x >>= f) g := by
  intro σ c d hcd hne
  have alike := hx (hcd.lax hL).1 hcd.policy
  have ha : (x σ c).answer = .ok a := alike.answer
  have nothing : (x σ c).dropped = [] := alike.dropped
  have later : ∀ {d}, L.Contexts σ c d → L.Contexts σ (x σ c).context d := fun hd =>
    hd.of_primed_eq hL alike.context rfl
  rw [answer_bind_of_ok ha] at hne
  obtain ⟨r, ds, hr, hds, eventually⟩ := h (later hcd) hne
  rw [answer_bind_of_ok ha, dropped_bind_of_ok ha, context_bind_of_ok ha, nothing]
  exact ⟨r, ds, hr, hds, eventually.mono fun n hn d hd => hn (later hd)⟩

/-- What only the second run does, and comes to an answer, can be left out. -/
theorem skip_right {f : Run V γ} {g : Nat → β → Run V δ} {b : β} (hy : ∀ n, (y n).Comes L.policy (.ok b))
    (h : Twin L B f fun n => g n b) : Twin L B f fun n => y n >>= g n := by
  intro σ c d hcd hne
  obtain ⟨r, ds, hr, hds, eventually⟩ := h hcd hne
  refine ⟨r, ds, hr, hds, eventually.mono fun n hn d hd => ?_⟩
  have alike := hy n (hd.serves_right hL) hd.policy_right
  have hb : (y n σ d).answer = .ok b := alike.answer
  have nothing : (y n σ d).dropped = [] := alike.dropped
  have echo := hn (hd.of_primed_eq hL rfl alike.context)
  refine ⟨?_, ?_, ?_⟩
  · rw [answer_bind_of_ok hb, echo.answer]
  · rw [dropped_bind_of_ok hb, nothing, echo.dropped]
    rfl
  · rw [context_bind_of_ok hb]
    exact echo.contexts

end Lax

/-! ## Lists -/

theorem flatMap {I : ι → κ → Prop} {items : List ι} {items' : List κ} {f : ι → Run V (List α)}
    {g : Nat → κ → Run V (List β)} (h : List.Forall₂ I items items')
    (hf : ∀ i j, I i j → Twin L (List.Forall₂ A) (f i) fun n => g n j) :
    Twin L (List.Forall₂ A) (Run.flatMap items f) fun n => Run.flatMap items' (g n) := by
  induction h with
  | nil => exact .pure .nil
  | cons hij _ ih =>
    refine (hf _ _ hij).bind fun here here' hhere => ?_
    exact ih.bind fun others others' hothers => .pure (List.rel_append hhere hothers)

theorem foldlM {I : ι → κ → Prop} {items : List ι} {items' : List κ} {f : α → ι → Run V α}
    {g : Nat → β → κ → Run V β} (h : List.Forall₂ I items items')
    (hf : ∀ a b i j, A a b → I i j → Twin L A (f a i) fun n => g n b j) {a : α} {b : β} (hab : A a b) :
    Twin L A (items.foldlM f a) fun n => items'.foldlM (g n) b := by
  induction h generalizing a b with
  | nil => exact .pure hab
  | cons hij _ ih =>
    simp only [List.foldlM_cons]
    exact (hf a b _ _ hab hij).bind fun _ _ hab' => ih hab'

theorem joined {f : Run V (List α)} {g : Nat → Run V (List β)} {k : Run V (List α)}
    {l : Nat → Run V (List β)} (h : Twin L (List.Forall₂ A) f g) (h' : Twin L (List.Forall₂ A) k l) :
    Twin L (List.Forall₂ A) (Run.joined f k) fun n => Run.joined (g n) (l n) :=
  h.bind fun _ _ hhere => h'.bind fun _ _ hothers => .pure (List.rel_append hhere hothers)

/-! ## Guards and applications -/

variable {s t : Subject V}

/-- A branch is given up alike. -/
theorem report (n : String) (n' : Nat → String) (hs : L.Subjects s t) (f : Failure V) :
    Twin L (fun _ _ => True) (Run.report n s f) fun i => Run.report (n' i) t f := by
  have reported : ∀ (m : String) (u : Subject V) {σ : Scope V} {c d : Context V}, L.Contexts σ c d →
      ∀ k, Run.report m u f σ k
        = ⟨.ok (), k, [.entry (.dropping m f), .dropped ⟨u, f⟩]⟩ := by
    intro m u σ c d hcd k
    have kept : Run.log (.dropping m f) σ k = ⟨.ok (), k, [.entry (.dropping m f)]⟩ := by
      rw [Run.log, emitIf, hcd.records]
    have received : emitIf (·.receives ⟨u, f⟩) (.dropped ⟨u, f⟩) σ k
        = ⟨.ok (), k, [.dropped ⟨u, f⟩]⟩ := by rw [emitIf, hcd.receives]
    rw [Run.report, bind_apply_of_ok kept, received]
    rfl
  intro σ c d hcd _
  rw [reported n s hcd]
  refine ⟨.ok (), [⟨t, f⟩], .ok trivial, .cons ⟨hs, rfl⟩ .nil, .of_forall fun m d' hd => ?_⟩
  show L.Echo σ _ _ _ (Run.report (n' m) t f σ d')
  rw [reported (n' m) t hd]
  exact ⟨rfl, rfl, hd⟩

/-- Answers that are only read as something else are alike if the readings are; a run out of steps stays one. -/
theorem reading {g : Except (Fault V) α → Except (Fault V) γ} {g' : Except (Fault V) β → Except (Fault V) δ}
    (h : Twin L A x y) (hg : g (.error .exhausted) = .error .exhausted)
    (hgg : ∀ r r', Answered A r r' → Answered B (g r) (g' r')) :
    Twin L B (Run.reading g x) fun n => Run.reading g' (y n) := by
  intro σ c d hcd hne
  obtain ⟨r, ds, hr, hds, eventually⟩ := h hcd fun he => hne (by rw [Run.reading, he, hg])
  refine ⟨g' r, ds, hgg _ _ hr, hds, eventually.mono fun n hn d hd => ?_⟩
  have echo := hn hd
  exact ⟨congrArg g' echo.answer, echo.dropped, echo.contexts⟩

theorem confine (h : Twin L A x y) : Twin L (Answered A) (Run.confine x) fun n => Run.confine (y n) := by
  have confined : ∀ {α : Type} (x : Run V α), Run.confine x = Run.reading Run.confined x := fun x =>
    funext₂ (confine_apply x)
  simp only [confined]
  exact h.reading rfl fun _ _ => Answered.confined

theorem attempt (h : Twin L A x y) : Twin L (Answered A) (Run.attempt x) fun n => Run.attempt (y n) := by
  have attempted : ∀ {α : Type} (x : Run V α), Run.attempt x = Run.reading Run.attempted x := fun x =>
    funext₂ (attempt_apply x)
  simp only [attempted]
  exact h.reading rfl fun _ _ => Answered.attempted

/-! ## Ends of bodies -/

theorem unlessOver (h : Twin L A x y) :
    Twin L (Answered A) (Run.unlessOver x) fun n => Run.unlessOver (y n) :=
  h.reading rfl fun _ _ => Answered.withOver

theorem asBody (h : Twin L A x y) : Twin L A (Run.asBody x) fun n => Run.asBody (y n) :=
  h.reading rfl fun _ _ => Answered.mapError _

/-- What is done last is alike, and it is done by both runs or by neither. -/
theorem afterUnless {keep : α → Bool} {keep' : β → Bool} {last : Run V Unit} {last' : Nat → Run V Unit}
    (h : Twin L A x y) (hkeep : ∀ a b, A a b → keep a = keep' b)
    (hlast : Twin L (fun _ _ => True) last last') :
    Twin L A (Run.afterUnless keep last x) fun n => Run.afterUnless keep' (last' n) (y n) := by
  refine h.attempt.bind fun r r' hr => ?_
  cases hr with
  | error e => exact hlast.bind fun _ _ _ => .stop e
  | @ok a b hab =>
    have same := hkeep a b hab
    cases hk : keep a with
    | true =>
      simp only [parting, ← same, hk, if_true]
      exact .pure hab
    | false =>
      simp only [parting, ← same, hk, Bool.false_eq_true, if_false]
      exact hlast.bind fun _ _ _ => .pure hab

/-! ## Guarded parts -/

/-- **Guards around twins are twins**, under whatever names. -/
theorem guarding (n : String) (n' : Nat → String) (hs : L.Subjects s t) (h : Twin L A x y) :
    Twin L (Option.Rel A) (Run.guarding n s x) fun i => Run.guarding (n' i) t (y i) := by
  intro σ c d hcd
  cases hm : σ.mode with
  | raw =>
    have through : Twin L (Option.Rel A) (x >>= fun a => pure (some a)) fun i =>
        y i >>= fun b => pure (some b) :=
      h.bind fun _ _ hab => .pure (.some hab)
    exact (through hcd).congr (guarding_apply_of_raw n s x hm c) fun i =>
      guarding_apply_of_raw (n' i) t (y i) hm
  | guarded =>
    have rescued : Twin L (Option.Rel A) (Run.confine x >>= rescue n s)
        fun i => Run.confine (y i) >>= rescue (n' i) t := by
      refine h.confine.bind fun r r' hr => ?_
      cases hr with
      | ok hab => exact .pure (.some hab)
      | error f => exact (report n n' hs f).bind fun _ _ _ => .pure .none
    exact (rescued hcd).congr (guarding_apply_of_guarded n s x hm c) fun i =>
      guarding_apply_of_guarded (n' i) t (y i) hm

end Twin

omit [Term V] in
/-- A look at the settings leaves the policy in force. -/
theorem policy_settings (σ : Scope V) (c : Context V) : (settings σ c).context.policy = c.policy := by
  cases hc : c.settings with
  | some i => rw [settings_apply_of_installed hc]
  | none =>
    cases he : Settings.ofEnvironment c.environment with
    | error p =>
      rw [settings, context_bind, hc]
      show ((context >>= _) σ c).context.policy = _
      rw [context_bind, load, he]
      rfl
    | ok s =>
      have readable := Context.primed_of_readable hc he
      rw [settings_apply_of_primed (i := .loaded s) (by rw [readable]) σ, Context.policy_primed]

/-- In a strict likeness the settings are looked at by both runs or by neither. -/
theorem twinAt_settings (hL : ¬ L.lax) : TwinAt L Eq σ c settings fun _ => settings := by
  intro _
  have silent : ∀ e : Context V, (settings σ e).dropped = [] := fun e => by
    rw [settings_apply]
    rfl
  refine ⟨_, [], .refl (fun _ => rfl) _, ?_, .of_forall fun _ d hd => ?_⟩
  · rw [silent]
    exact .nil
  · obtain rfl := hd.strict hL
    exact ⟨rfl, silent c, hd.records, hd.receives, (policy_settings σ c).trans hd.policy, fun _ => rfl,
      fun h => absurd h hL⟩

/-- How many branches there are is said alike, if it is said in the guarded mode. -/
theorem twinAt_announce (n : String) (n' : Nat → String) (k : Nat) {d : Context V}
    (hcd : L.Contexts σ c d) (hm : σ.mode = .guarded) :
    TwinAt L (fun _ _ => True) σ c (announce n k) fun i => announce (n' i) k := by
  by_cases hL : L.lax
  · exact .of_alike hL (r := .ok ()) (s := .ok ()) (announce_alike_pure (hcd.lax hL).1 hm rfl n k)
      (fun i d hd => announce_alike_pure (hd.serves_right hL) hm rfl (n' i) k) (.ok trivial)
  · have family := (Telling.family L.policy).household
    have debugging : TwinAt L Eq σ c Run.debugging fun _ => Run.debugging :=
      (twinAt_settings hL).bind hcd fun i j hij => by
        subst hij
        exact .same (family.having ..)
    refine debugging.bind hcd fun on on' hon => ?_
    subst hon
    cases on with
    | false => exact .pure trivial
    | true => exact .of_tells (tells_log _) (fun _ => tells_log _) (.ok trivial)

namespace Twin

/-- What a guard makes of a fault is alike. -/
theorem surrender (n : String) (n' : Nat → String) {s t : Subject V} (hs : L.Subjects s t) (e : Fault V) :
    Twin L (fun _ _ => True) (Run.surrender n s e) fun i => Run.surrender (n' i) t e := by
  cases e with
  | defect d => exact .stop _
  | exhausted => exact .stop _
  | failure f =>
    intro σ c d hcd
    cases hm : σ.mode with
    | guarded =>
      refine (report n n' hs f hcd).congr ?_ fun i d => ?_
      all_goals rw [Run.surrender, mode_bind, hm]
    | raw =>
      have stopped : Twin L (fun _ _ => True) (Run.stop (.failure f) : Run V Unit) fun _ =>
        (Run.stop (.failure f) : Run V Unit) := .stop _
      refine (stopped hcd).congr ?_ fun i d => ?_
      all_goals rw [Run.surrender, mode_bind, hm]

theorem settle (n : String) (n' : Nat → String) {r : Option (List (Branch V α))}
    {r' : Option (List (Branch V β))} (h : Option.Rel (L.BranchLists A) r r') :
    Twin L (L.BranchLists A) (Run.settle n r) fun i => Run.settle (n' i) r' := by
  cases h with
  | none => exact .pure .nil
  | @some bs bs' hbs =>
    intro σ c d hcd
    cases hm : σ.mode with
    | raw =>
      have quiet : Twin L (L.BranchLists A) (pure bs) fun _ => pure bs' := .pure hbs
      refine (quiet hcd).congr ?_ fun _ d => ?_
      all_goals
        rw [Run.settle, mode_bind, hm]
        rfl
    | guarded =>
      have said : TwinAt L (L.BranchLists A) σ c (announce n bs.length >>= fun _ => pure bs)
          fun i => announce (n' i) bs'.length >>= fun _ => pure bs' := by
        rw [← hbs.length_eq]
        exact (twinAt_announce n n' bs.length hcd hm).bind hcd fun _ _ _ => .pure hbs
      refine said.congr ?_ fun _ d => ?_
      all_goals
        rw [Run.settle, mode_bind, hm]
        rfl

/-- **Applications are twins if the bodies are.** -/
theorem apply {m : Comp V α} {m' : Nat → Comp V β} {s t : Subject V} (hs : L.Subjects s t)
    (h : Twin L (L.BranchLists A) (m.body s) fun n => (m' n).body t) :
    Twin L (L.BranchLists A) (m.apply s) fun n => (m' n).apply t := by
  have applied : Twin L (L.BranchLists A) (Run.guarding m.name s (m.body s) >>= Run.settle m.name)
      fun n => Run.guarding (m' n).name t ((m' n).body t) >>= Run.settle (m' n).name :=
    (guarding m.name (fun n => (m' n).name) hs h).bind fun _ _ => settle m.name fun n => (m' n).name
  simpa only [Comp.apply_eq] using applied

/-! ## Combinators -/

/-- Sequences are twins if their first parts are, and whatever is built for related results is under its
guard. -/
theorem bindComp {m : Comp V α} {m' : Nat → Comp V β} {f : α → Run V (Comp V γ)}
    {g : Nat → β → Run V (Comp V δ)} {s t : Subject V}
    (hm : Twin L (L.BranchLists A) (m.apply s) fun n => (m' n).apply t)
    (hf : ∀ a b, A a b → ∀ {s t}, L.Subjects s t → Twin L (L.BranchLists B)
      ((Comp.defer (m.name ++ " >>=") (f a)).apply s)
      fun n => (Comp.defer ((m' n).name ++ " >>=") (g n b)).apply t) :
    Twin L (L.BranchLists B) ((m.bind f).body s) fun n => ((m' n).bind (g n)).body t :=
  hm.bind fun _ _ hbs => flatMap hbs fun b b' hb => hf b.value b'.value hb.value hb.state

theorem forEach {I : ι → κ → Prop} {items : List ι} {items' : List κ} {f : ι → Run V (Comp V α)}
    {g : Nat → κ → Run V (Comp V β)} {s t : Subject V} (hs : L.Subjects s t)
    (hitems : List.Forall₂ I items items')
    (hf : ∀ i j, I i j → ∀ {s t}, L.Subjects s t → Twin L (L.BranchLists A)
      ((Comp.delay (f i)).apply s) fun n => (Comp.delay (g n j)).apply t) :
    Twin L (L.BranchLists fun _ _ => True) ((Comp.forEach items f).body s)
      fun n => (Comp.forEach items' (g n)).body t := by
  have step : ∀ frontier frontier' i j, List.Forall₂ L.Subjects frontier frontier' → I i j →
      Twin L (List.Forall₂ L.Subjects)
        (Run.flatMap frontier fun current =>
          (Comp.delay (f i)).apply current >>= fun bs => pure (bs.map (·.state)))
        fun n => Run.flatMap frontier' fun current =>
          (Comp.delay (g n j)).apply current >>= fun bs => pure (bs.map (·.state)) := by
    intro frontier frontier' i j hfrontier hij
    refine flatMap (g := fun n current => (Comp.delay (g n j)).apply current >>= fun bs =>
      pure (bs.map (·.state))) hfrontier fun current current' hcurrent => ?_
    refine (hf i j hij hcurrent).bind fun bs bs' hbs => .pure ?_
    exact List.forall₂_map_left_iff.2 (List.forall₂_map_right_iff.2 (hbs.imp fun _ _ hb => hb.state))
  refine (foldlM hitems (fun _ _ i j hfrontier hij => step _ _ i j hfrontier hij) (.cons hs .nil)).bind
    fun frontier frontier' hfrontier => .pure ?_
  exact List.forall₂_map_left_iff.2 (List.forall₂_map_right_iff.2
    (hfrontier.imp fun _ _ hcurrent => ⟨hcurrent, trivial⟩))

end Twin

end Run

/-! ## Outcomes -/

/-- Outcomes that go together: the same error, or branches that go together one by one and in order; and
dropped branches with equal errors that go together as well. -/
structure Outcome.Related (S : Subject V → Subject V → Prop) (A : α → β → Prop)
    (o : Outcome V (List (Branch V α))) (o' : Outcome V (List (Branch V β))) : Prop where
  answer : Answered (List.Forall₂ fun b b' => S b.state b'.state ∧ A b.value b'.value) o.answer o'.answer
  dropped : List.Forall₂ (fun d d' => S d.state d'.state ∧ d.error = d'.error) o.dropped o'.dropped

/-- What twins come to, with enough steps for the second one. -/
theorem Run.Twin.related {L : Likeness V} {A : α → β → Prop} {x : Run V (List (Branch V α))}
    {y : Nat → Run V (List (Branch V β))} (h : Run.Twin L (L.BranchLists A) x y)
    {S : Subject V → Subject V → Prop} (hS : ∀ s t, L.Subjects s t → S s t) {σ : Scope V} {c d : Context V}
    (hcd : L.Contexts σ c d) (hne : (x σ c).answer ≠ .error .exhausted) :
    ∃ steps, ∀ n ≥ steps, Outcome.Related S A (x σ c) (y n σ d) := by
  obtain ⟨r, ds, hr, hds, eventually⟩ := h hcd hne
  obtain ⟨steps, hsteps⟩ := eventually_atTop.1 eventually
  refine ⟨steps, fun n hn => ?_⟩
  have echo := hsteps n hn hcd
  refine ⟨?_, ?_⟩
  · rw [echo.answer]
    exact hr.imp fun _ _ hbs => hbs.imp fun _ _ hb => ⟨hS _ _ hb.state, hb.value⟩
  · rw [echo.dropped]
    exact hds.imp fun _ _ hd => ⟨hS _ _ hd.state, hd.error⟩

end Likeness

end SymbolicPaths
