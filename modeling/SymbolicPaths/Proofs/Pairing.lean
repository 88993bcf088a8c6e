import SymbolicPaths.Proofs.Closure
import SymbolicPaths.Proofs.Paths
import SymbolicPaths.Proofs.Twins
/-!
# Runs in step

The same computation is applied to two subjects that differ in a part which it does not look into.  Then
the two runs take the same steps: they fail at the same points, they answer with as many branches, and the
branches go together one by one.  `Run.Paired c A x y` says so of two runs that are carried out guarded, in
contexts like `c`: answers are related by `A` or the same error stands in their place, and both runs leave
contexts like `c`.

The relation has a rule for everything that programs are made of, and `Program.Over.paired` goes through a
program once, for all relations between subjects that the primitives in it keep (`Run.Pairing`).  Both runs
have the same number of steps for their routines and take them at the same points, so nothing has to be said
of running out of them.

This is a plainer relation than that of `SymbolicPaths.Proofs.Twins`, where heaps are compressed at
different points of two runs and enough steps have to be left for the one that does more.
-/

namespace SymbolicPaths

variable {V α β γ δ ι κ : Type}

/-! ## Branches that go together -/

/-- Branches in related subjects, with the same result. -/
structure Branch.Beside (S : Subject V → Subject V → Prop) (b b' : Branch V α) : Prop where
  state : S b.state b'.state
  value : b.value = b'.value

/-- Lists of branches that go together, position by position. -/
abbrev Branch.AllBeside (S : Subject V → Subject V → Prop) : List (Branch V α) → List (Branch V α) → Prop :=
  List.Forall₂ (Branch.Beside S)

variable [Term V]

namespace Run

/-- Guarded runs that take the same steps in contexts like `c`, with answers related by `A`. -/
def Paired (c : Context V) (A : α → β → Prop) (x : Run V α) (y : Run V β) : Prop :=
  ∀ ⦃d e : Context V⦄, d.primed = c.primed → e.primed = c.primed →
    Answered A (x (.of .guarded) d).answer (y (.of .guarded) e).answer ∧
      (x (.of .guarded) d).context.primed = c.primed ∧ (y (.of .guarded) e).context.primed = c.primed

namespace Paired

variable {c : Context V} {A : α → β → Prop} {B : γ → δ → Prop} {x : Run V α} {y : Run V β}

/-! ## Sequences and lists -/

/-- Runs that only look are in step if they answer alike in one context. -/
theorem ofLooks (hx : x.Looks) (hy : y.Looks)
    (h : Answered A (x (.of .guarded) c).answer (y (.of .guarded) c).answer) : Paired c A x y := by
  intro d e hd he
  rw [hx.answer_eq hd, hy.answer_eq he, hx.still, hy.still]
  exact ⟨h, hd, he⟩

/-- A run that only looks is in step with itself. -/
theorem same (h : x.Looks) : Paired c Eq x x := ofLooks h h (.refl (fun _ => rfl) _)

protected theorem pure {a : α} {b : β} (h : A a b) : Paired c A (pure a) (pure b) :=
  ofLooks (Looks.family.pure a) (Looks.family.pure b) (.ok h)

protected theorem stop (e : Fault V) : Paired c A (stop e : Run V α) (stop e : Run V β) :=
  ofLooks (Looks.family.stop e) (Looks.family.stop e) (.error e)

omit [Term V] in
/-- **Sequences are in step if their parts are.** -/
protected theorem bind {f : α → Run V γ} {g : β → Run V δ} (h : Paired c A x y)
    (hf : ∀ a b, A a b → x.Answers a → Paired c B (f a) (g b)) : Paired c B (x >>= f) (y >>= g) := by
  intro d e hd he
  obtain ⟨answered, hd', he'⟩ := h hd he
  cases hx : (x (.of .guarded) d).answer with
  | error fault =>
    have hy := (hx ▸ answered).eq_error
    rw [answer_bind_of_error hx, answer_bind_of_error hy, context_bind_of_error hx,
      context_bind_of_error hy]
    exact ⟨.error fault, hd', he'⟩
  | ok a =>
    obtain ⟨b, hy, hab⟩ := (hx ▸ answered).exists_ok
    rw [answer_bind_of_ok hx, answer_bind_of_ok hy, context_bind_of_ok hx, context_bind_of_ok hy]
    exact hf a b hab (answers_of_answer hx) hd' he'

/-- What follows the same look is in step with itself. -/
theorem looking {f : α → Run V γ} {g : α → Run V δ} (h : x.Looks)
    (hf : ∀ a, x.Answers a → Paired c B (f a) (g a)) : Paired c B (x >>= f) (x >>= g) :=
  (same h).bind fun a b hab ha => by
    obtain rfl : a = b := hab
    exact hf a ha

/-- A failure that is about the same is raised by both runs. -/
theorem fail (f : Failure V) : Paired c A (Run.fail f : Run V α) (Run.fail f : Run V β) := by
  cases f with
  | abandoned details => exact .stop _
  | _ => exact .looking (Looks.family.household.written _) fun _ _ => .stop _

theorem complain (d : Defect V) :
    Paired c A (Run.complain d : Run V α) (Run.complain d : Run V β) :=
  .looking (Looks.family.household.written _) fun _ _ => .stop _

theorem flatMap {I : ι → κ → Prop} {items : List ι} {items' : List κ} {f : ι → Run V (List α)}
    {g : κ → Run V (List β)} (h : List.Forall₂ I items items')
    (hf : ∀ i j, I i j → Paired c (List.Forall₂ A) (f i) (g j)) :
    Paired c (List.Forall₂ A) (Run.flatMap items f) (Run.flatMap items' g) := by
  induction h with
  | nil => exact .pure .nil
  | cons hij _ ih =>
    refine (hf _ _ hij).bind fun here here' hhere _ => ?_
    exact ih.bind fun others others' hothers _ => .pure (List.rel_append hhere hothers)

theorem foldlM {items : List ι} {f : α → ι → Run V α} {g : β → ι → Run V β}
    (hf : ∀ a b, ∀ i ∈ items, A a b → Paired c A (f a i) (g b i)) {a : α} {b : β} (hab : A a b) :
    Paired c A (items.foldlM f a) (items.foldlM g b) := by
  induction items generalizing a b with
  | nil => exact .pure hab
  | cons i rest ih =>
    simp only [List.foldlM_cons]
    refine (hf a b i (List.mem_cons_self ..) hab).bind fun a' b' hab' _ => ?_
    exact ih (fun a b j hj => hf a b j (List.mem_cons_of_mem i hj)) hab'

/-! ## Guards and applications -/

omit [Term V] in
/-- Answers that are only read as something else are in step if the readings are. -/
theorem reading {g : Except (Fault V) α → Except (Fault V) γ} {g' : Except (Fault V) β → Except (Fault V) δ}
    (h : Paired c A x y) (hgg : ∀ r r', Answered A r r' → Answered B (g r) (g' r')) :
    Paired c B (Run.reading g x) (Run.reading g' y) := fun _ _ hd he =>
  ⟨hgg _ _ (h hd he).1, (h hd he).2⟩

/-- What only looks is done last by both runs or by neither. -/
theorem afterUnless {keep : α → Bool} {keep' : β → Bool} {last : Run V Unit} (h : Paired c A x y)
    (hkeep : ∀ a b, A a b → keep a = keep' b) (hlast : last.Looks) :
    Paired c A (Run.afterUnless keep last x) (Run.afterUnless keep' last y) := by
  have attempted : Paired c (Answered A) (Run.attempt x) (Run.attempt y) := by
    intro d e hd he
    obtain ⟨answered, contexts⟩ := h hd he
    rw [attempt_apply, attempt_apply]
    exact ⟨answered.attempted, contexts⟩
  refine attempted.bind fun r r' hr _ => ?_
  cases hr with
  | error fault => exact .looking hlast fun _ _ => .stop fault
  | @ok a b hab =>
    have same := hkeep a b hab
    rw [parting, parting, ← same]
    split
    · exact .pure hab
    · exact .looking hlast fun _ _ => .pure hab

/-- Guards around runs in step are in step, whatever they report. -/
theorem guarding (n n' : String) (s t : Subject V) (h : Paired c A x y) :
    Paired c (Option.Rel A) (Run.guarding n s x) (Run.guarding n' t y) := by
  have confined : Paired c (Answered A) (confine x) (confine y) := by
    intro d e hd he
    obtain ⟨answered, contexts⟩ := h hd he
    rw [confine_apply, confine_apply]
    exact ⟨answered.confined, contexts⟩
  have rescued : Paired c (Option.Rel A) (confine x >>= rescue n s) (confine y >>= rescue n' t) := by
    refine confined.bind fun r r' hr _ => ?_
    cases hr with
    | ok hab => exact .pure (.some hab)
    | error f =>
      intro d e hd he
      exact ⟨.ok .none, hd, he⟩
  intro d e hd he
  rw [guarding_apply_of_guarded n s x rfl, guarding_apply_of_guarded n' t y rfl]
  exact rescued hd he

section Applied

variable {S : Subject V → Subject V → Prop} {s t : Subject V} (hc : c.Loadable)

include hc

/-- Where there are settings to read, looking at them after a success keeps runs in step. -/
theorem settle (n n' : String) {r r' : Option (List (Branch V α))}
    (h : Option.Rel (Branch.AllBeside S) r r') :
    Paired c (Branch.AllBeside S) (Run.settle n r) (Run.settle n' r') := by
  intro d e hd he
  have left := settle_alike n r (.of_loadable .guarded (hc.of_primed_eq hd.symm)) (rfl : d.primed = _)
  have right := settle_alike n' r' (.of_loadable .guarded (hc.of_primed_eq he.symm)) (rfl : e.primed = _)
  rw [left.answer, right.answer, left.context, right.context]
  refine ⟨.ok ?_, hd, he⟩
  cases h with
  | none => exact .nil
  | some h => exact h

/-- **Applications are in step if the bodies are.** -/
theorem apply {m m' : Comp V α} (h : Paired c (Branch.AllBeside S) (m.body s) (m'.body t)) :
    Paired c (Branch.AllBeside S) (m.apply s) (m'.apply t) := by
  rw [Comp.apply_eq, Comp.apply_eq]
  exact (h.guarding m.name m'.name s t).bind fun _ _ hr _ => settle hc m.name m'.name hr

end Applied

/-! ## Combinators -/

section Combinators

variable {S : Subject V → Subject V → Prop} {s t : Subject V}

theorem bindComp {m : Comp V α} {f : α → Run V (Comp V γ)}
    (hm : Paired c (Branch.AllBeside S) (m.apply s) (m.apply t))
    (hf : ∀ a s t, S s t → Paired c (Branch.AllBeside S)
      ((Comp.defer (m.name ++ " >>=") (f a)).apply s) ((Comp.defer (m.name ++ " >>=") (f a)).apply t)) :
    Paired c (Branch.AllBeside S) ((m.bind f).body s) ((m.bind f).body t) :=
  hm.bind fun _ _ hbs _ => flatMap hbs fun b b' hb => by
    rw [← hb.value]
    exact hf b.value _ _ hb.state

theorem sequence {steps : List (Comp V α)} (hs : S s t)
    (h : ∀ m ∈ steps, ∀ s t, S s t → Paired c (Branch.AllBeside S) (m.apply s) (m.apply t)) :
    Paired c (Branch.AllBeside S) ((Comp.sequence steps).body s) ((Comp.sequence steps).body t) := by
  refine foldlM (fun _ _ m hm hfrontier => flatMap hfrontier fun path path' hpath => ?_)
    (.cons ⟨hs, rfl⟩ .nil)
  refine (h m hm _ _ hpath.state).bind fun bs bs' hbs _ => .pure ?_
  refine List.forall₂_map_left_iff.2 (List.forall₂_map_right_iff.2 (hbs.imp fun b b' hb => ⟨hb.state, ?_⟩))
  show path.value ++ [b.value] = path'.value ++ [b'.value]
  rw [hpath.value, hb.value]

theorem forEach {items : List ι} {body : ι → Run V (Comp V α)} (hs : S s t)
    (h : ∀ i ∈ items, ∀ s t, S s t → Paired c (Branch.AllBeside S)
      ((Comp.delay (body i)).apply s) ((Comp.delay (body i)).apply t)) :
    Paired c (Branch.AllBeside S) ((Comp.forEach items body).body s)
      ((Comp.forEach items body).body t) := by
  have frontiers : Paired c (List.Forall₂ S)
      (items.foldlM (fun frontier i => Run.flatMap frontier fun current =>
        (Comp.delay (body i)).apply current >>= fun bs => pure (bs.map (·.state))) [s])
      (items.foldlM (fun frontier i => Run.flatMap frontier fun current =>
        (Comp.delay (body i)).apply current >>= fun bs => pure (bs.map (·.state))) [t]) := by
    refine foldlM (fun _ _ i hi hfrontier => flatMap hfrontier fun current current' hcurrent => ?_)
      (.cons hs .nil)
    refine (h i hi _ _ hcurrent).bind fun bs bs' hbs _ => .pure ?_
    exact List.forall₂_map_left_iff.2 (List.forall₂_map_right_iff.2 (hbs.imp fun _ _ hb => hb.state))
  refine frontiers.bind fun frontier frontier' hfrontier _ => .pure ?_
  exact List.forall₂_map_left_iff.2 (List.forall₂_map_right_iff.2
    (hfrontier.imp fun _ _ hcurrent => ⟨hcurrent, rfl⟩))

end Combinators

end Paired

end Run

/-! ## Routines -/

/-- Paths that go together: they have sent the same values, and go on in related subjects. -/
structure Path.Beside (S : Subject V → Subject V → Prop) (p q : Path V) : Prop where
  trail : p.trail = q.trail
  state : S p.state q.state

namespace Routine

open Run (Paired Looks)
open Run.Closure (Sent sent_of_resume sent_of_replay)

/-- What goes together of what two paths end in and leave waiting. -/
structure Beside (S : Subject V → Subject V → Prop)
    (found found' : Option (Branch V α) × List (Path V)) : Prop where
  ended : Option.Rel (Branch.Beside S) found.1 found'.1
  waiting : List.Forall₂ (Path.Beside S) found.2 found'.2

variable {r : Routine V κ α} {S : Subject V → Subject V → Prop} {c : Context V}

omit [Term V] in
/-- Siblings go together if their branches do. -/
theorem forall₂_siblings {p q : Path V} (hp : Path.Beside S p q) {bs bs' : List (Branch V V)}
    (h : Branch.AllBeside S bs bs') :
    List.Forall₂ (Path.Beside S) (bs.map (.sibling p.trail)) (bs'.map (.sibling q.trail)) := by
  refine List.forall₂_map_left_iff.2 (List.forall₂_map_right_iff.2 (h.imp fun b b' hb => ⟨?_, hb.state⟩))
  show p.trail ++ [b.value] = q.trail ++ [b'.value]
  rw [hp.trail, hb.value]

section Bodies

variable (hstart : ∀ ready, (r.start ready).Looks) (hresume : ∀ paused v, (r.resume paused v).Looks)
  (hrelease : ∀ paused, (r.release paused).Looks)

include hresume

/-- A body that only looks does so when it is sent values. -/
theorem looks_feed (trail : List V) (signal : Signal V κ α) : (r.feed trail signal).Looks := by
  induction trail generalizing signal with
  | nil => exact Looks.family.pure signal
  | cons v trail ih =>
    refine Looks.family.bind ?_ fun next _ => ih next
    cases signal with
    | finished a => exact Looks.family.pure _
    | awaiting wanted paused => exact (hresume paused v).asBody

variable (hw : ∀ wanted, r.Wants wanted → wanted.Looks)
  (hd : ∀ wanted, r.Wants wanted → ∀ d, wanted.Answers d → ∀ s t, S s t →
    Paired c (Branch.AllBeside S) (d.apply s) (d.apply t))

include hrelease hw hd

omit hresume in
/-- What a body waits for is carried out in step. -/
theorem carryOut_paired {wanted : Run V (Comp V V)} (due : r.Wants wanted) (paused : κ) {s t : Subject V}
    (hs : S s t) : Paired c (Answered (Branch.AllBeside S)) (r.carryOut wanted paused s)
      (r.carryOut wanted paused t) := by
  have carried : Paired c (Branch.AllBeside S) (wanted >>= fun d => d.apply s)
      (wanted >>= fun d => d.apply t) :=
    .looking (hw wanted due) fun d hanswer => hd wanted due d hanswer _ _ hs
  refine (carried.reading fun _ _ => Answered.withOver).afterUnless (fun a b related => ?_)
    (hrelease paused).asBody
  cases related with
  | error details => rfl
  | ok branches => cases branches <;> rfl

/-- Paths that go together are followed in step. -/
theorem follow_paired (name : String) (fuel : Nat) (signal : Signal V κ α) (hs : Sent r signal)
    {p q : Path V} (hp : Path.Beside S p q) :
    Paired c (Beside S) (r.follow name fuel signal p) (r.follow name fuel signal q) := by
  induction fuel generalizing signal p q with
  | zero =>
    cases signal with
    | finished a => exact .pure ⟨.some ⟨hp.state, rfl⟩, .nil⟩
    | awaiting wanted paused => exact .stop _
  | succ fuel ih =>
    cases signal with
    | finished a => exact .pure ⟨.some ⟨hp.state, rfl⟩, .nil⟩
    | awaiting wanted paused =>
      have due : r.Wants wanted := hs wanted paused rfl
      refine (carryOut_paired hrelease hw hd due paused hp.state).bind fun carried carried' hcarried _ => ?_
      cases hcarried with
      | error details => exact .pure ⟨.some ⟨hp.state, rfl⟩, .nil⟩
      | ok hbs =>
        cases hbs with
        | nil => exact .pure ⟨.none, .nil⟩
        | @cons first first' siblings siblings' hfirst hsiblings =>
          have waiting := forall₂_siblings hp hsiblings
          have next : Path.Beside S (.sibling p.trail first) (.sibling q.trail first') :=
            ⟨by rw [Path.sibling, Path.sibling, hp.trail, hfirst.value], hfirst.state⟩
          have resumed : Paired c (Option.Rel Eq)
              (Run.guarding name first.state (Run.asBody (r.resume paused first.value)))
              (Run.guarding name first'.state (Run.asBody (r.resume paused first'.value))) := by
            -- both bodies are sent the same value, so it is one signal that both runs go on with
            rw [← hfirst.value]
            exact .guarding name name _ _ (.same (hresume paused first.value).asBody)
          refine resumed.bind fun signal signal' hsignal hanswer => ?_
          cases hsignal with
          | none => exact .pure ⟨.none, waiting⟩
          | @some signal signal' heq =>
            obtain rfl : signal = signal' := heq
            have sent := sent_of_resume (Run.answers_of_asBody (Run.answers_of_guarding hanswer))
            refine (ih signal sent ?_).bind fun found found' hfound _ => ?_
            · exact next
            · exact .pure ⟨hfound.ended, List.rel_append hfound.waiting waiting⟩

include hstart

variable {ready : κ} (hprepare : r.prepare = pure ready)

include hprepare

/-- Waiting paths that go together are worked off in step. -/
theorem exhaust_paired (name : String) (depth fuel : Nat) {waiting waiting' : List (Path V)}
    (h : List.Forall₂ (Path.Beside S) waiting waiting') :
    Paired c (Branch.AllBeside S) (r.exhaust name depth fuel waiting)
      (r.exhaust name depth fuel waiting') := by
  induction fuel generalizing waiting waiting' with
  | zero =>
    cases h with
    | nil => exact .pure .nil
    | cons _ _ => exact .stop _
  | succ fuel ih =>
    cases h with
    | nil => exact .pure .nil
    | @cons p q rest rest' hp hrest =>
      have pursued : Paired c (Beside S) (r.pursue name depth p) (r.pursue name depth q) := by
        have replay : (r.replay ready p.trail).Looks :=
          Looks.family.bind (hstart ready).asBody fun signal _ => looks_feed hresume p.trail signal
        rw [pursue_eq, pursue_eq, hprepare, pure_bind, pure_bind, ← hp.trail]
        refine (Paired.guarding name name _ _ (.same replay)).bind fun signal signal' hsignal hanswer => ?_
        cases hsignal with
        | none => exact .pure ⟨.none, .nil⟩
        | @some signal signal' heq =>
          obtain rfl : signal = signal' := heq
          have sent := sent_of_replay (Run.answers_of_guarding hanswer)
          exact follow_paired hresume hrelease hw hd name depth signal sent hp
      refine pursued.bind fun ⟨ended, siblings⟩ ⟨ended', siblings'⟩ hfound _ => ?_
      have hended : Option.Rel (Branch.Beside S) ended ended' := hfound.ended
      refine (ih (List.rel_append hfound.waiting hrest)).bind fun others others' hothers _ => .pure ?_
      refine List.rel_append ?_ hothers
      cases hended with
      | none => exact .nil
      | some hb => exact .cons hb .nil

end Bodies

end Routine

/-! ## Programs over some of the primitives -/

mutual

/-- Programs that are built from primitives of a kind, and from reads of the heap if these are allowed. -/
inductive Program.Over (kind : ∀ α : Type, Primitive V α → Prop) (reads : Prop) :
    {α : Type} → Program V α → Prop
  | primitive {α : Type} {p : Primitive V α} (h : kind α p) : Program.Over kind reads (.primitive p)
  | readHeap (h : reads) (u : Unifying V) (l : V) (attempt : Amount V) :
      Program.Over kind reads (.readHeap u l attempt)
  | bind {α β : Type} {p : Program V α} {f : α → Builder V β} (h : Program.Over kind reads p)
      (hf : ∀ a, Builder.Over kind reads (f a)) : Program.Over kind reads (.bind p f)
  | defer {α : Type} (name : String) {thunk : Builder V α} (h : Builder.Over kind reads thunk) :
      Program.Over kind reads (.defer name thunk)
  | sequence {ι α : Type} (items : List ι) {step : ι → Program V α}
      (h : ∀ i, Program.Over kind reads (step i)) : Program.Over kind reads (.sequence items step)
  | forEach {ι α : Type} (items : List ι) {body : ι → Builder V α}
      (h : ∀ i, Builder.Over kind reads (body i)) : Program.Over kind reads (.forEach items body)
  | routine {α : Type} (name : String) (whenOver : Option V → α) {body : List V → Turn V α}
      (h : ∀ trail, Turn.Over kind reads (body trail)) :
      Program.Over kind reads (.routine name whenOver body)

/-- Host functions that give such programs. -/
inductive Builder.Over (kind : ∀ α : Type, Primitive V α → Prop) (reads : Prop) :
    {α : Type} → Builder V α → Prop
  | build {α : Type} {p : Program V α} (h : Program.Over kind reads p) :
      Builder.Over kind reads (.build p)
  | raise {α : Type} (e : Fault V) : Builder.Over kind reads (.raise e : Builder V α)

/-- Bodies of routines that yield such programs. -/
inductive Turn.Over (kind : ∀ α : Type, Primitive V α → Prop) (reads : Prop) :
    {α : Type} → Turn V α → Prop
  | yields {α : Type} {p : Program V V} (h : Program.Over kind reads p) (closing : Except (Fault V) Unit) :
      Turn.Over kind reads (.yields p closing : Turn V α)
  | returns {α : Type} (a : α) : Turn.Over kind reads (.returns a)
  | raises {α : Type} (e : Fault V) : Turn.Over kind reads (.raises e : Turn V α)

end

/-- A relation between subjects that primitives of a kind keep: their bodies are in step, and so are
compressions, where there are reads, and what reads look at is the same. -/
structure Run.Pairing (host : Host V) (c : Context V) (S : Subject V → Subject V → Prop)
    (kind : ∀ α : Type, Primitive V α → Prop) (reads : Prop) : Prop where
  primitive : ∀ {α : Type} {p : Primitive V α}, kind α p → ∀ {s t}, S s t →
    Paired c (Branch.AllBeside S) ((p.comp host).body s) ((p.comp host).body t)
  compress : reads → ∀ (u : Unifying V) {s t}, S s t →
    Paired c (Branch.AllBeside S) ((Comp.compress (u.run host)).body s)
      ((Comp.compress (u.run host)).body t)
  chunksAt : reads → ∀ (l : V) {s t}, S s t → Comp.chunksAt l s = Comp.chunksAt l t

/-- What the body of a routine does next is said at once. -/
theorem Turn.looks_signal (host : Host V) (t : Turn V α) (trail : List V) : (t.signal host trail).Looks := by
  cases t with
  | yields p closing => exact Run.Looks.family.pure _
  | returns a => exact Run.Looks.family.pure _
  | raises e => exact Run.Looks.family.stop e

/-- So is what comes of letting go of it. -/
theorem Turn.looks_release (t : Turn V α) : t.release.Looks := by
  cases t with
  | yields p closing => exact Run.Looks.family.ofExcept closing
  | returns a => exact Run.Looks.family.pure _
  | raises e => exact Run.Looks.family.pure _

section Programs

open Run (Paired Pairing Looks)

variable {host : Host V} {c : Context V} {S : Subject V → Subject V → Prop}
  {kind : ∀ α : Type, Primitive V α → Prop} {reads : Prop}

/-- Reads of the heap are in step. -/
theorem Run.Pairing.heapReadWithin (hc : c.Loadable) (pairing : Pairing host c S kind reads) (h : reads)
    (u : Unifying V) (l : V) (retries : Nat) (attempt : Amount V) {s t : Subject V} (hs : S s t) :
    Paired c (Branch.AllBeside S) ((Comp.heapReadWithin (u.run host) l retries attempt).body s)
      ((Comp.heapReadWithin (u.run host) l retries attempt).body t) := by
  have family := (Looks.family (V := V)).household
  induction retries generalizing attempt s t with
  | zero =>
    show Paired c _ (Comp.chunksAt l s >>= _) (Comp.chunksAt l t >>= _)
    rw [← pairing.chunksAt h l hs]
    refine .looking (Unifying.looks_chunksAt l s) fun chunks _ => ?_
    match chunks with
    | [] => exact .fail _
    | [d] => exact .pure (.cons ⟨hs, rfl⟩ .nil)
    | _ :: _ :: _ => exact .looking (family.ordered ..) fun _ _ => .complain _
  | succ retries ih =>
    show Paired c _ (Comp.chunksAt l s >>= _) (Comp.chunksAt l t >>= _)
    rw [← pairing.chunksAt h l hs]
    refine .looking (Unifying.looks_chunksAt l s) fun chunks _ => ?_
    match chunks with
    | [] => exact .fail _
    | [d] => exact .pure (.cons ⟨hs, rfl⟩ .nil)
    | _ :: _ :: _ =>
      refine .looking (family.ordered ..) fun next _ => .looking (Looks.family.log _) fun _ _ => ?_
      refine .apply hc (.bindComp (.apply hc (pairing.compress h u hs)) fun _ s t hs => .apply hc ?_)
      exact .apply hc (ih _ hs)

mutual

/-- **Programs over primitives that keep a relation are in step.** -/
theorem Program.Over.paired (hc : c.Loadable) (pairing : Pairing host c S kind reads) {α : Type}
    {p : Program V α} :
    p.Over kind reads → ∀ {s t}, S s t →
      Paired c (Branch.AllBeside S) ((p.comp host).apply s) ((p.comp host).apply t)
  | .primitive h, _, _, hs => .apply hc (pairing.primitive h hs)
  | .readHeap h u l attempt, _, _, hs => .apply hc (Pairing.heapReadWithin hc pairing h u l _ attempt hs)
  | .bind h hf, _, _, hs =>
    .apply hc (.bindComp (h.paired hc pairing hs) fun a _ _ hs => (hf a).paired hc pairing _ hs)
  | .defer name h, _, _, hs => h.paired hc pairing name hs
  | .sequence items h, _, _, hs => .apply hc (.sequence hs fun m hm s t hs => by
      obtain ⟨i, -, rfl⟩ := List.mem_map.1 hm
      exact (h i).paired hc pairing hs)
  | .forEach items h, _, _, hs => .apply hc (.forEach hs fun i _ _ _ hs => (h i).paired hc pairing _ hs)
  | .routine name _ h, _, _, hs => by
    refine .apply hc (Routine.exhaust_paired (fun _ => Turn.looks_signal host _ _)
      (fun _ _ => Turn.looks_signal host _ _) (fun _ => Turn.looks_release _) ?_ ?_ rfl name _ _
      (.cons ⟨rfl, hs⟩ .nil))
    · rintro wanted (⟨_, _, hfirst⟩ | ⟨_, _, _, hnext⟩)
      · exact ((h _).paired hc pairing hfirst).1
      · exact ((h _).paired hc pairing hnext).1
    · rintro wanted (⟨_, _, hfirst⟩ | ⟨_, _, _, hnext⟩)
      · exact ((h _).paired hc pairing hfirst).2
      · exact ((h _).paired hc pairing hnext).2

/-- What host functions give is in step under the guards that it is put off with. -/
theorem Builder.Over.paired (hc : c.Loadable) (pairing : Pairing host c S kind reads) {α : Type}
    {b : Builder V α} :
    b.Over kind reads → ∀ (name : String) {s t}, S s t →
      Paired c (Branch.AllBeside S) ((Comp.defer name (b.run host)).apply s)
        ((Comp.defer name (b.run host)).apply t)
  | .build h, name, s, t, hs => by
    refine .apply hc ?_
    exact h.paired hc pairing hs
  | .raise e, name, _, _, hs => .apply hc (.stop e)

/-- What the body of a routine waits for is in step. -/
theorem Turn.Over.paired (hc : c.Loadable) (pairing : Pairing host c S kind reads) {α : Type}
    {turn : Turn V α} :
    turn.Over kind reads → ∀ {trail : List V} {wanted : Run V (Comp V V)} {paused : List V},
      (turn.signal host trail).Answers (.awaiting wanted paused) → wanted.Looks ∧
        ∀ d, wanted.Answers d → ∀ s t, S s t →
          Paired c (Branch.AllBeside S) (d.apply s) (d.apply t)
  | .yields (p := p) h _, trail, wanted, paused, hanswer => by
    obtain ⟨σ, e, hanswer⟩ := hanswer
    obtain rfl : pure (p.comp host) = wanted := (Signal.awaiting.inj (Except.ok.inj hanswer)).1
    refine ⟨Looks.family.pure _, fun d hd s t hs => ?_⟩
    obtain ⟨σ, e, hd⟩ := hd
    obtain rfl : p.comp host = d := Except.ok.inj hd
    exact h.paired hc pairing hs
  | .returns a, _, _, _, hanswer => by
    obtain ⟨σ, e, hanswer⟩ := hanswer
    cases hanswer
  | .raises e, _, _, _, hanswer => by
    obtain ⟨σ, e, hanswer⟩ := hanswer
    cases hanswer

end

end Programs

end SymbolicPaths
