import SymbolicPaths.Proofs.Guard
import Mathlib.Data.List.Perm.Basic
/-!
# Runs in another order

A sequence of sequences visits the branches of a computation level by level, and a sequence whose
continuations are sequences visits them one by one.  So the two carry out the same parts in different
orders, and what they leave behind is the same only up to that order.

* `Run.Inert x`: the run leaves the context as it found it, except that the settings may have been
  read, and does not notice whether they have been.  Two such runs can change places
  (`Run.MatchedBy.swap`).
* `Run.MatchedBy x y`: whenever `x` answers, `y` gives the same answer and drops the same branches in
  some order.  The relation is one-sided because runs that end in a fault stop where they are: of two
  runs in different orders each may have done things that the other never got to.  All that can be
  said of them is that neither answers, and this is what the relation says taken both ways.
* `Run.Reordered x y`: the relation taken both ways.  Going on from all the branches of some items is
  going on from the branches of each, reordered (`Run.Reordered.flatMap_bind`).
-/

namespace SymbolicPaths

variable {V α β γ ι : Type} [Term V]

namespace Run

/-! ## Runs that leave nothing behind -/

/-- A run that leaves the context as it found it, except that the settings may have been read, and
that does not notice whether they have been. -/
structure Inert (x : Run V α) : Prop where
  steady : x.Steady
  keeps : ∀ ⦃σ : Scope V⦄ ⦃c : Context V⦄, σ.Serves c → (x σ c).context.primed = c.primed

namespace Inert

/-- Where an inert run ends, runs are served as before. -/
theorem serves {x : Run V α} (h : x.Inert) {σ : Scope V} {c : Context V} (hs : σ.Serves c) :
    σ.Serves (x σ c).context := hs.of_primed_eq (h.keeps hs).symm

theorem ofAlike {x y : Run V α} (h : x.Inert) (hxy : x.Alike y) : y.Inert :=
  ⟨hxy.steady_right, fun _ _ hs => (hxy hs rfl).context.symm.trans (h.keeps hs)⟩

protected theorem pure (a : α) : (pure a : Run V α).Inert := ⟨steady_pure a, fun _ _ _ => rfl⟩

protected theorem stop (e : Fault V) : (stop e : Run V α).Inert := ⟨steady_stop e, fun _ _ _ => rfl⟩

protected theorem bind {x : Run V α} {f : α → Run V β} (h : x.Inert)
    (hf : ∀ a, x.Answers a → (f a).Inert) : (x >>= f).Inert := by
  refine ⟨h.steady.bind fun a ha => (hf a ha).steady, fun σ c hs => ?_⟩
  cases hx : (x σ c).answer with
  | ok a =>
    rw [context_bind_of_ok hx, (hf a (answers_of_answer hx)).keeps (h.serves hs), h.keeps hs]
  | error e => rw [context_bind_of_error hx, h.keeps hs]

theorem emitIf (taken : Scope V → Except (Defect V) Unit) (e : Event V) :
    (Run.emitIf taken e).Inert := by
  refine ⟨steady_emitIf taken e, fun σ c _ => ?_⟩
  rw [Run.emitIf]
  cases taken σ <;> rfl

theorem report (n : String) (s : Subject V) (f : Failure V) : (Run.report n s f).Inert :=
  (emitIf _ _).bind fun _ _ => emitIf _ _

theorem guarding {x : Run V α} (h : x.Inert) (n : String) (s : Subject V) :
    (Run.guarding n s x).Inert := by
  refine ⟨fun σ c d hs hcd => (h.steady hs hcd).guarding n n s, fun σ c hs => ?_⟩
  cases hm : σ.mode with
  | raw =>
    rw [guarding_apply_of_raw n s x hm]
    exact (h.bind fun a _ => Inert.pure (some a)).keeps hs
  | guarded =>
    have confinement : (confine x).Inert := by
      refine ⟨fun τ k l ht hkl => (h.steady ht hkl).confine, fun τ k ht => ?_⟩
      rw [confine_apply]
      exact h.keeps ht
    rw [guarding_apply_of_guarded n s x hm]
    refine (confinement.bind fun r _ => ?_).keeps hs
    cases r with
    | ok a => exact Inert.pure (some a)
    | error f => exact (report n s f).bind fun _ _ => Inert.pure none

theorem caught {x : Run V (List α)} (h : x.Inert) (n : String) (s : Subject V) :
    (Run.caught n s x).Inert := (h.guarding n s).bind fun r _ => Inert.pure (r.getD [])

/-- A computation whose body leaves nothing behind leaves nothing behind when it is applied. -/
theorem apply {c : Comp V α} {s : Subject V} (h : (c.body s).Inert) : (c.apply s).Inert := by
  have alike : (Run.caught c.name s (c.body s)).Alike (c.apply s) := fun _ _ _ hs hcd =>
    (Comp.apply_alike_caught (h.steady (hs.of_primed_eq hcd) hcd.symm) c.name).symm
  exact (h.caught c.name s).ofAlike alike

/-- To leave nothing behind is inherited by sequences. -/
theorem sequential : Sequential (V := V) Inert := ⟨Inert.pure, Inert.bind⟩

theorem flatMap {items : List ι} {f : ι → Run V (List α)} (h : ∀ i ∈ items, (f i).Inert) :
    (Run.flatMap items f).Inert := sequential.flatMap h

end Inert

end Run

/-! ## The same answer and the same dropped branches -/

/-- What the first outcome answers the second one answers too, with the same branches dropped in some
order; and runs are served on. -/
def Outcome.MatchedBy (σ : Scope V) (o p : Outcome V α) : Prop :=
  ∀ a, o.answer = .ok a →
    p.answer = .ok a ∧ o.dropped.Perm p.dropped ∧ o.context.primed = p.context.primed ∧
      σ.Serves o.context

/-- Whenever the first run answers where it is served, so does the second, with the same branches
dropped in some order. -/
def Run.MatchedBy (x y : Run V α) : Prop :=
  ∀ ⦃σ : Scope V⦄ ⦃c d : Context V⦄, σ.Serves c → c.primed = d.primed →
    Outcome.MatchedBy σ (x σ c) (y σ d)

namespace Outcome

variable {σ : Scope V} {o p q : Outcome V α}

theorem Alike.matchedBy (h : Alike σ o p) : MatchedBy σ o p := fun _ ha =>
  ⟨h.answer ▸ ha, h.dropped ▸ List.Perm.refl _, h.context, h.serves⟩

theorem MatchedBy.trans (h : MatchedBy σ o p) (h' : MatchedBy σ p q) : MatchedBy σ o q := by
  intro a ha
  obtain ⟨hp, dropped, context, serves⟩ := h a ha
  obtain ⟨hq, dropped', context', -⟩ := h' a hp
  exact ⟨hq, dropped.trans dropped', context.trans context', serves⟩

/-- Sequences match if their first parts do and whatever follows does. -/
theorem MatchedBy.bind {x y : Run V α} {f g : α → Run V β} {c d : Context V}
    (h : MatchedBy σ (x σ c) (y σ d)) (hf : ∀ a, x.Answers a → (f a).MatchedBy (g a)) :
    MatchedBy σ ((x >>= f) σ c) ((y >>= g) σ d) := by
  intro b hb
  obtain ⟨a, ha, hfa⟩ := Run.exists_of_answer_bind_ok hb
  obtain ⟨hy, dropped, context, serves⟩ := h a ha
  obtain ⟨hg, dropped', context', serves'⟩ := hf a (Run.answers_of_answer ha) serves context b hfa
  refine ⟨?_, ?_, ?_, ?_⟩
  · rw [Run.answer_bind_of_ok hy, hg]
  · rw [Run.dropped_bind_of_ok ha, Run.dropped_bind_of_ok hy]
    exact dropped.append dropped'
  · rw [Run.context_bind_of_ok ha, Run.context_bind_of_ok hy, context']
  · rw [Run.context_bind_of_ok ha]
    exact serves'

end Outcome

namespace Run

variable {x y z : Run V α}

theorem Alike.matchedBy (h : x.Alike y) : x.MatchedBy y := fun _ _ _ hs hcd => (h hs hcd).matchedBy

theorem MatchedBy.trans (h : x.MatchedBy y) (h' : y.MatchedBy z) : x.MatchedBy z :=
  fun _ _ _ hs hcd => (h hs hcd).trans (h' (hs.of_primed_eq hcd) rfl)

theorem MatchedBy.bind {f g : α → Run V β} (h : x.MatchedBy y)
    (hf : ∀ a, x.Answers a → (f a).MatchedBy (g a)) : (x >>= f).MatchedBy (y >>= g) :=
  fun _ _ _ hs hcd => (h hs hcd).bind hf

/-- **Two runs that leave nothing behind can change places.** -/
theorem MatchedBy.swap {y : Run V β} {k : α → β → Run V γ} (hx : x.Inert) (hy : y.Inert)
    (hk : ∀ a b, (k a b).Steady) :
    (x >>= fun a => y >>= fun b => k a b).MatchedBy (y >>= fun b => x >>= fun a => k a b) := by
  intro σ c d hs hcd r hr
  obtain ⟨a, ha, hr⟩ := exists_of_answer_bind_ok hr
  obtain ⟨b, hb, hr⟩ := exists_of_answer_bind_ok hr
  -- the second run would have done the same in the place of the first, and the other way round
  have early := hy.steady (hx.serves hs) ((hx.keeps hs).trans hcd)
  have hb' : (y σ d).answer = .ok b := early.answer ▸ hb
  have hd : σ.Serves d := hs.of_primed_eq hcd
  have late := hx.steady hs (hcd.trans (hy.keeps hd).symm)
  have ha' : (x σ (y σ d).context).answer = .ok a := late.answer ▸ ha
  have both : (y σ (x σ c).context).context.primed = (x σ (y σ d).context).context.primed := by
    rw [hy.keeps (hx.serves hs), hx.keeps hs, hx.keeps (hy.serves hd), hy.keeps hd, hcd]
  have rest := hk a b (hy.serves (hx.serves hs)) both
  have served := rest.serves
  refine ⟨?_, ?_, ?_, ?_⟩
  · rw [answer_bind_of_ok hb', answer_bind_of_ok ha', ← rest.answer, hr]
  · rw [dropped_bind_of_ok ha, dropped_bind_of_ok hb, dropped_bind_of_ok hb', dropped_bind_of_ok ha',
      late.dropped, early.dropped, rest.dropped, ← List.append_assoc, ← List.append_assoc]
    exact List.perm_append_comm.append_right _
  · rw [context_bind_of_ok ha, context_bind_of_ok hb, context_bind_of_ok hb', context_bind_of_ok ha',
      rest.context]
  · rw [context_bind_of_ok ha, context_bind_of_ok hb]
    exact served

end Run

/-- Runs that answer the same where they answer, with the same branches dropped in some order. -/
structure Run.Reordered (x y : Run V α) : Prop where
  forth : x.MatchedBy y
  back : y.MatchedBy x

namespace Run

theorem Alike.reordered {x y : Run V α} (h : x.Alike y) : x.Reordered y :=
  ⟨h.matchedBy, h.symm.matchedBy⟩

theorem Steady.reordered {x : Run V α} (h : x.Steady) : x.Reordered x := Alike.reordered h

namespace Reordered

variable {x y z : Run V α}

theorem trans (h : x.Reordered y) (h' : y.Reordered z) : x.Reordered z :=
  ⟨h.forth.trans h'.forth, h'.back.trans h.back⟩

theorem bind {f g : α → Run V β} (h : x.Reordered y) (hf : ∀ a, (f a).Reordered (g a)) :
    (x >>= f).Reordered (y >>= g) :=
  ⟨h.forth.bind fun a _ => (hf a).forth, h.back.bind fun a _ => (hf a).back⟩

theorem swap {y : Run V β} {k : α → β → Run V γ} (hx : x.Inert) (hy : y.Inert)
    (hk : ∀ a b, (k a b).Steady) :
    (x >>= fun a => y >>= fun b => k a b).Reordered (y >>= fun b => x >>= fun a => k a b) :=
  ⟨MatchedBy.swap hx hy hk, MatchedBy.swap hy hx fun b a => hk a b⟩

end Reordered

/-! ## Level by level and one by one -/

section Levels

omit [Term V]

/-- A walk level by level, with what becomes of the first item apart. -/
theorem flatMap_cons_bind (i : ι) (rest : List ι) (f : ι → Run V (List α)) (g : α → Run V (List β)) :
    (flatMap (i :: rest) f >>= fun ys => flatMap ys g)
      = f i >>= fun here => flatMap rest f >>= fun others => flatMap here g >>= fun us =>
          flatMap others g >>= fun vs => pure (us ++ vs) := by
  simp only [flatMap_cons, bind_assoc, pure_bind, flatMap_append, joined]

/-- A walk one by one, with what becomes of the first item apart. -/
theorem flatMap_bind_cons (i : ι) (rest : List ι) (f : ι → Run V (List α)) (g : α → Run V (List β)) :
    (flatMap (i :: rest) fun j => f j >>= fun ys => flatMap ys g)
      = f i >>= fun here => flatMap here g >>= fun us =>
          (flatMap rest fun j => f j >>= fun ys => flatMap ys g) >>= fun vs => pure (us ++ vs) := by
  simp only [flatMap_cons, bind_assoc]

end Levels

/-- **Level by level is one by one in another order**, for parts that leave nothing behind. -/
theorem Reordered.flatMap_bind {items : List ι} {f : ι → Run V (List α)} {g : α → Run V (List β)}
    (hf : ∀ i ∈ items, (f i).Inert) (hg : ∀ a, (g a).Inert) :
    (Run.flatMap items f >>= fun ys => Run.flatMap ys g).Reordered
      (Run.flatMap items fun i => f i >>= fun ys => Run.flatMap ys g) := by
  have onward : ∀ ys, (Run.flatMap ys g).Inert := fun ys => Inert.flatMap fun a _ => hg a
  induction items with
  | nil => exact (steady_pure []).reordered
  | cons i rest ih =>
    have hi := hf i (List.mem_cons_self ..)
    have hrest : ∀ j ∈ rest, (f j).Inert := fun j hj => hf j (List.mem_cons_of_mem i hj)
    rw [flatMap_bind_cons, flatMap_cons_bind]
    refine hi.steady.reordered.bind fun here => ?_
    -- what becomes of the first item moves in front of the first level of the rest
    refine (Reordered.swap (Inert.flatMap hrest) (onward here) fun others us =>
      (onward others).steady.bind fun vs _ => steady_pure (us ++ vs)).trans ?_
    refine (onward here).steady.reordered.bind fun us => ?_
    have parts : ((Run.flatMap rest f >>= fun others => Run.flatMap others g) >>=
          fun vs => pure (us ++ vs))
        = Run.flatMap rest f >>= fun others => Run.flatMap others g >>= fun vs => pure (us ++ vs) :=
      bind_assoc ..
    rw [← parts]
    exact (ih hrest).bind fun vs => (steady_pure (us ++ vs)).reordered

end Run

end SymbolicPaths
