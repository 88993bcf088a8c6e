import SymbolicPaths.Proofs.Wrapping
/-!
# Names around names

What an arrow is called is found by looking one link into the function that it is made of.  An arrow
around another one has a function of its own, which takes over the name of the function before it, and
which is called after what it does (`"applied"`, `"composed"` or `"mapped"`) if there is no name to take
over.  So a name that is missing at the start is made up by the first layer, and the second layer looks at
the made-up name.

* An arrow of any number of layers is called what the function of the innermost arrow is called, or else
  what the first layer is, up to the layer before its own (`Arrow.Underlies.inner?_eq`,
  `Arrow.Underlies.name?_eq`).
* A function that says that it stands for another one gives its arrow the name of the other one.  With the
  first layer around the arrow its own name is back.
* A name at the start therefore survives all layers but the missing first one.  Without a name, an arrow of a
  function is still called `"<kleisli>"` with one layer around it and no longer with two, and an arrow of a
  routine is called after its factory from the first layer on (`Arrow.name_survives_iff`).
* Log records name the arrow as the computation does: that of a branch that is dropped, and that of the
  branches that are given (`Comp.apply_apply_of_answer`).  A routine inside drops its paths under a name of its
  own, which is that of the function or else `"<do>"` (`Routine.dropping_mem_events_of_start`).
-/

namespace SymbolicPaths

variable {V α β γ : Type} [Term V]

/-! ## Records -/

section Records

variable {σ : Scope V} {c : Context V} {s : Subject V}

/-- A computation that gives branches under a guard is logged under its name, if steps are logged. -/
theorem Comp.apply_apply_of_answer {d : Comp V α} {branches : List (Branch V α)} {i : Installed V}
    {on : Bool} (hm : σ.mode = .guarded) (records : ∀ r, σ.records r = .ok ())
    (h : (d.body s σ c).answer = .ok branches) (hi : (d.body s σ c).context.primed.settings = some i)
    (hon : i.debug? = .ok on) : d.apply s σ c = ⟨.ok branches, (d.body s σ c).context.primed,
      (d.body s σ c).events ++ if on then [.entry (.produced d.name branches.length)] else []⟩ := by
  have unfailing : ∀ f, (d.body s σ c).answer ≠ .error (.failure f) := fun f hf => by
    cases h.symm.trans hf
  have settled : Run.settle d.name (some branches) σ (d.body s σ c).context
      = ⟨.ok branches, (d.body s σ c).context.primed,
          if on then [.entry (.produced d.name branches.length)] else []⟩ := by
    rw [Run.settle, Run.mode_bind, hm]
    have announced : Run.announce d.name branches.length σ (d.body s σ c).context
        = ⟨.ok (), (d.body s σ c).context.primed,
            if on then [.entry (.produced d.name branches.length)] else []⟩ := by
      rw [Run.announce_apply_of_primed hi hon]
      cases on with
      | true => exact Run.log_apply_of_ok _ (records _)
      | false => rfl
    refine (Run.bind_apply_of_ok announced _).trans ?_
    cases on <;> rfl
  rw [Comp.apply_apply_of_unfailing unfailing, Run.bind_apply_of_answer_ok h, settled]

omit [Term V] in
/-- A guarded part that fails is told under the name of its computation. -/
theorem Run.guarding_apply_of_received {x : Run V α} {e : Failure V} (hm : σ.mode = .guarded)
    (records : ∀ r, σ.records r = .ok ()) (receives : σ.receives ⟨s, e⟩ = .ok ())
    (h : (x σ c).answer = .error (.failure e)) (n : String) : guarding n s x σ c
      = ⟨.ok none, (x σ c).context, (x σ c).events ++ [.entry (.dropping n e), .dropped ⟨s, e⟩]⟩ := by
  have reported := report_apply_of_received (x σ c).context (records (.dropping n e)) receives
  rw [guarding_apply_of_guarded n s x hm, bind_apply_of_ok (confine_apply_of_failure h), rescue,
    bind_apply_of_ok reported]
  rfl

/-- **A routine drops its paths under its own name**: here the first one, if the body fails before it waits for
anything. -/
theorem Routine.dropping_mem_events_of_start {κ : Type} {r : Routine V κ α} {ready : κ} {e : Failure V}
    (hm : σ.mode = .guarded) (records : ∀ r, σ.records r = .ok ()) (receives : σ.receives ⟨s, e⟩ = .ok ())
    (prepared : (r.prepare σ c).answer = .ok ready)
    (failed : ((Run.asBody (r.start ready)) σ (r.prepare σ c).context).answer = .error (.failure e))
    (n : String) (fuel : Nat) :
    .entry (.dropping n e) ∈ ((r.comp n (fuel + 1)).body s σ c).events := by
  have replayed : (r.replay ready [] σ (r.prepare σ c).context).answer = .error (.failure e) :=
    Run.answer_bind_of_error failed _
  have dropped := Run.guarding_apply_of_received hm records receives replayed n
  have pursued : r.pursue n (fuel + 1) ⟨[], s⟩ σ c
      = ⟨.ok (none, []), (r.replay ready [] σ (r.prepare σ c).context).context, (r.prepare σ c).events
        ++ ((r.replay ready [] σ (r.prepare σ c).context).events
          ++ [.entry (.dropping n e), .dropped ⟨s, e⟩])⟩ := by
    rw [pursue, Run.bind_apply_of_answer_ok prepared, Run.bind_apply_of_ok dropped]
    simp only [Run.pure_apply, List.append_nil]
  show _ ∈ ((r.pursue n (fuel + 1) ⟨[], s⟩ >>= _) σ c).events
  rw [Run.bind_apply_of_ok pursued]
  simp

end Records

namespace Arrow

/-! ## Layers -/

/-- `k.Underlies ws l`: the arrow `l` is `k` in layers whose own names would be `ws`, from inside out. -/
inductive Underlies (k : Arrow V α) : List String → {β : Type} → Arrow V β → Prop
  | refl : Underlies k [] k
  | partialApply {ws : List String} {β : Type} {l : Arrow V β} (h : Underlies k ws l) (given : Args V) :
      Underlies k (ws ++ ["applied"]) (l.partialApply given)
  | andThen {ws : List String} {β γ : Type} {l : Arrow V β} (h : Underlies k ws l)
      (f : β → Run V (Comp V γ)) : Underlies k (ws ++ ["composed"]) (l.andThen f)
  | fmap {ws : List String} {β γ : Type} {l : Arrow V β} (h : Underlies k ws l) (f : β → Run V γ) :
      Underlies k (ws ++ ["mapped"]) (l.fmap f)

namespace Underlies

variable {k : Arrow V α} {l : Arrow V β} {ws : List String} {w : String}

/-- The function inside is called what it was called at the start, or else what the first layer is. -/
theorem inner?_eq (h : k.Underlies ws l) : l.inner? = k.inner?.or ws.head? := by
  have layer : ∀ {β γ : Type} {l : Arrow V β} {ws : List String} (w : String)
      (f : Args V → Run V (Comp V γ)), l.inner? = k.inner?.or ws.head? →
      (l.around w f).inner? = k.inner?.or (ws ++ [w]).head? := by
    intro β γ l ws w f ih
    rw [around, ih]
    cases k.inner? <;> cases ws <;> rfl
  induction h with
  | refl => exact Option.or_none.symm
  | partialApply _ given ih => exact layer "applied" _ ih
  | andThen _ f ih => exact layer "composed" _ ih
  | fmap _ f ih => exact layer "mapped" _ ih

/-- An arrow in layers is called what the function inside the layer before is called. -/
theorem name?_eq (h : k.Underlies ws l) :
    l.name? = if ws = [] then k.name? else k.inner?.or ws.dropLast.head? := by
  have named : ∀ {β : Type} {l : Arrow V β} {ws : List String} (w : String), k.Underlies ws l →
      l.inner? = if ws ++ [w] = [] then k.name? else k.inner?.or (ws ++ [w]).dropLast.head? := by
    intro β l ws w h
    rw [if_neg (List.append_ne_nil_of_right_ne_nil ws (List.cons_ne_nil w [])), List.dropLast_concat,
      h.inner?_eq]
  cases h with
  | refl => rfl
  | partialApply h given => exact named "applied" h
  | andThen h f => exact named "composed" h
  | fmap h f => exact named "mapped" h

/-- No layer is called like an arrow without a name. -/
theorem ne_of_mem (h : k.Underlies ws l) (hw : w ∈ ws) : w ≠ "<kleisli>" := by
  induction h with
  | refl => cases hw
  | partialApply _ _ ih | andThen _ _ ih | fmap _ _ ih =>
    obtain hw | hw := List.mem_append.1 hw
    · exact ih hw
    · obtain rfl := List.mem_singleton.1 hw
      decide

end Underlies

/-! ## Whose name survives -/

section Survival

variable {l : Arrow V β} {ws : List String} {σ : Scope V} {c : Context V}

/-- A name at the start survives from the first layer on, and without one an arrow of a function gets a name
with the second layer.  Without a layer the arrow is called what is found one link into the function. -/
theorem name_eq_iff_of_function {label : Label} {f : Args V → Run V (Comp V α)}
    (h : (ofFunction label f).Underlies ws l) :
    l.name = label.own?.getD "<kleisli>" ↔
      if ws = [] then label.found?.getD "<kleisli>" = label.own?.getD "<kleisli>"
      else label.own?.isSome ∨ ws.length ≤ 1 := by
  have called := h.name?_eq
  by_cases first : ws = []
  · rw [if_pos first, name, called, if_pos first]
    rfl
  · rw [if_neg first]
    rw [if_neg first] at called
    cases own : label.own? with
    | some n =>
      have kept : l.name? = some n := by
        rw [called, ofFunction, own]
        rfl
      simp [name, kept]
    | none =>
      have shown : l.name? = ws.dropLast.head? := by
        rw [called, ofFunction, own]
        rfl
      have short : ws.dropLast = [] ↔ ws.length ≤ 1 := by
        rw [List.eq_nil_iff_length_eq_zero, List.length_dropLast, Nat.sub_eq_zero_iff_le]
      rw [name, shown, ← short]
      cases cut : ws.dropLast with
      | nil => simp
      | cons w rest =>
        have made : w ∈ ws := ws.dropLast_subset (by rw [cut]; exact List.mem_cons_self)
        simp [h.ne_of_mem made]

/-- So does one of an arrow that is called through a factory, which has a name of its own. -/
theorem name_eq_iff_of_wrapped {name? : Option String} {f : Args V → Run V (Comp V α)}
    (h : (ofWrapped name? f).Underlies ws l) :
    l.name = name?.getD "<kleisli>" ↔ name?.isSome ∨ ws = [] := by
  have called := h.name?_eq
  by_cases first : ws = []
  · have kept : l.name? = name? := called.trans (if_pos first)
    simp [name, kept, first]
  · have kept : l.name? = some (name?.getD "comp_factory") := called.trans (if_neg first)
    cases name? <;> simp [name, kept, first]

/-- **Whose name survives being wrapped.**  Let an arrow be built of another one by any number of portions
of arguments, continuations and mappings.

* With layers the new arrow has the name of the function inside the first arrow, or else the name of the
  first layer before its own, if there is one.
* If the first arrow is that of a function, the new one has the function's own name, or is nameless if it has
  none, exactly in these cases: with a layer, if the function has a name or there is no second layer; without
  one, if the function does not stand for another one of another name.
* If it is that of a routine, or of another function through a factory, exactly if that has a name or there
  is no layer at all.
* The computations of the new arrow have its name, and this is the name in the record of a branch that is
  dropped because one of them fails, and in the record of how many branches one of them gives.
* The paths of a routine are dropped under the name of its function, and if this has none, under another one
  than that of its arrow. -/
theorem name_survives_iff (label : Label) (f : Args V → Run V (Comp V α)) (l : Arrow V β)
    (ws : List String) (args : Args V) (s : Subject V) (hm : σ.mode = .guarded)
    (records : ∀ r, σ.records r = .ok ()) (c : Context V) :
    (∀ k : Arrow V α, k.Underlies ws l →
      l.name? = if ws = [] then k.name? else k.inner?.or ws.dropLast.head?) ∧
    ((ofFunction label f).Underlies ws l → (l.name = label.own?.getD "<kleisli>" ↔
      if ws = [] then label.found?.getD "<kleisli>" = label.own?.getD "<kleisli>"
      else label.own?.isSome ∨ ws.length ≤ 1)) ∧
    ((ofWrapped label.own? f).Underlies ws l →
      (l.name = label.own?.getD "<kleisli>" ↔ label.own?.isSome ∨ ws = [])) ∧
    (l.deferred args).name = l.name ∧
    (∀ e, σ.receives ⟨s, e⟩ = .ok () → ((l.deferred args).body s σ c).answer = .error (.failure e) →
      (l.deferred args).apply s σ c = ⟨.ok [], ((l.deferred args).body s σ c).context,
        ((l.deferred args).body s σ c).events
          ++ [.entry (.dropping l.name e), .dropped ⟨s, e⟩]⟩) ∧
    (∀ branches i on, ((l.deferred args).body s σ c).answer = .ok branches →
      ((l.deferred args).body s σ c).context.primed.settings = some i → i.debug? = .ok on →
      (l.deferred args).apply s σ c = ⟨.ok branches, ((l.deferred args).body s σ c).context.primed,
        ((l.deferred args).body s σ c).events
          ++ if on then [.entry (.produced l.name branches.length)] else []⟩) ∧
    ∀ (κ : Type) (fuel : Nat) (body : Args V → Routine V κ α), ∃ m,
      (ofRoutine label.own? (fuel + 1) body).invoke args = pure m ∧
      (m.name = (ofRoutine label.own? (fuel + 1) body).name ↔ label.own?.isSome) ∧
      ∀ ready e, σ.receives ⟨s, e⟩ = .ok () → ((body args).prepare σ c).answer = .ok ready →
        (Run.asBody ((body args).start ready) σ ((body args).prepare σ c).context).answer
          = .error (.failure e) →
        .entry (.dropping (label.own?.getD "<do>") e) ∈ (m.body s σ c).events := by
  refine ⟨fun k h => h.name?_eq, name_eq_iff_of_function, name_eq_iff_of_wrapped, rfl,
    fun e received failed => ?_, fun branches i on answered hi hon => ?_,
    fun κ fuel body => ⟨_, rfl, ?_, fun ready e received ready? failed => ?_⟩⟩
  · rw [Comp.apply_apply_of_failure hm failed, Run.caught_apply_of_received hm records received failed]
    rfl
  · exact Comp.apply_apply_of_answer hm records answered hi hon
  · show label.own?.getD "<do>" = label.own?.getD "<kleisli>" ↔ _
    cases label.own? <;> simp
  · exact Routine.dropping_mem_events_of_start hm records received ready? failed _ fuel

end Survival

section Instances

open Script

/-- The arrow of a function that fails. -/
def failing (label : Label) : Arrow (Datum Empty) (Datum Empty) :=
  ofFunction label fun _ => Run.stop (.failure (.abandoned []))

/-- The same through a factory. -/
def failingThrough (name? : Option String) : Arrow (Datum Empty) (Datum Empty) :=
  ofWrapped name? fun _ => Run.stop (.failure (.abandoned []))

/-- The arrow of a routine that fails at once. -/
def failingAtOnce (name? : Option String) : Arrow (Datum Empty) (Datum Empty) :=
  ofRoutine name? 1 fun _ => {
    prepare := pure ()
    start := fun _ => Run.stop (.failure (.abandoned []))
    resume := fun _ _ => Run.stop (.failure (.abandoned []))
    whenOver := fun v => v.getD .null
    release := fun _ => pure () }

/-- A name survives two layers and is in the record of the branches that the outer one gives, and one layer
does not name what had no name. -/
theorem name_survives_failing :
    (((failing ⟨some "f", none⟩).partialApply {}).fmap pure).name = "f" ∧
    ((((((failing ⟨some "f", none⟩).partialApply {}).fmap pure).deferred {}).apply (.state .empty)
        (.of .guarded) { settings := some (.loaded { debug := true }) }).events.getLast?
      = some (.entry (.produced "f" 0))) ∧
    ((failing ⟨none, none⟩).partialApply {}).name = "<kleisli>" ∧
    ((failingThrough (some "f")).partialApply {}).name = "f" := by
  have twice : (failing ⟨some "f", none⟩).Underlies _
      (((failing ⟨some "f", none⟩).partialApply {}).fmap pure) := .fmap (.partialApply .refl {}) pure
  obtain ⟨-, named, -, -, -, records, -⟩ := name_survives_iff (σ := .of .guarded) ⟨some "f", none⟩
    (fun _ => Run.stop (.failure (.abandoned []))) (((failing ⟨some "f", none⟩).partialApply {}).fmap pure)
    ["applied", "mapped"] {} (.state .empty) rfl (fun _ => rfl)
    { settings := some (.loaded { debug := true }) }
  obtain ⟨-, nameless, -⟩ := name_survives_iff (σ := .of .guarded) ⟨none, none⟩
    (fun _ => Run.stop (.failure (.abandoned []))) ((failing ⟨none, none⟩).partialApply {}) ["applied"] {}
    (.state .empty) rfl (fun _ => rfl) {}
  obtain ⟨-, -, factory, -⟩ := name_survives_iff (σ := .of .guarded) ⟨some "f", none⟩
    (fun _ => Run.stop (.failure (.abandoned []))) ((failingThrough (some "f")).partialApply {})
    ["applied"] {} (.state .empty) rfl (fun _ => rfl) {}
  refine ⟨(named twice).2 (.inl rfl), ?_, (nameless (.partialApply .refl {})).2 (.inr (by decide)),
    (factory (.partialApply .refl {})).2 (.inl rfl)⟩
  rw [records [] (.loaded { debug := true }) true rfl rfl rfl, List.getLast?_append]
  rfl

/-- **Arrows without a name get names of layers.**  The second layer around an arrow of a nameless function
is called after the first, and the first around an arrow of a nameless routine is called after the
factory.  A function with a name that wraps a nameless one makes a nameless arrow.  And a nameless routine
drops its paths under another name than that of its arrow. -/
theorem layers_name_the_nameless :
    (failing ⟨none, none⟩).name = "<kleisli>" ∧
      (((failing ⟨none, none⟩).partialApply {}).partialApply {}).name = "applied" ∧
    (failingThrough none).name = "<kleisli>" ∧
      ((failingThrough none).partialApply {}).name = "comp_factory" ∧
    (failing (.wrapping none "wrapper")).name = "<kleisli>" ∧
      ((failing (.wrapping none "wrapper")).partialApply {}).name = "wrapper" ∧
    (failingAtOnce none).name = "<kleisli>" ∧
      (((failingAtOnce none).deferred {}).apply (.state .empty) (.of .guarded) {}).events
        = [.entry (.dropping "<do>" (.abandoned [])), .dropped ⟨.state .empty, .abandoned []⟩] :=
  ⟨rfl, rfl, rfl, rfl, rfl, rfl, rfl, rfl⟩

end Instances

end Arrow

end SymbolicPaths
