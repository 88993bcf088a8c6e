import SymbolicPaths.Proofs.Enclosure
/-!
# Computations on the side

A fork on the side applies two computations to the state of a path and hands both lists of branches to
the caller.  The path itself goes on as if nothing had happened, and that is what this file is about: not
what the sides find, but what can be seen of them from outside.

* The sides are applied in a scope of their own (`Comp.probe_body_apply`).  It is the one at the top
  level, where failures are guarded and nobody receives what is dropped, whatever the scope outside.
* What they leave behind outside are their log records, what they noted, and what was received by
  somebody inside them (`Comp.news_probe`).  Nothing that is dropped inside is pending outside.
* Whatever the mode outside, no failure ends a fork on the side (`Comp.probe_apply_unfailing`).

So a fork on the side is the same under every tower of enclosing operations, up to the one thing that
every application does in the guarded mode: it looks at the settings after a success.

## What the sides share

Both sides are applied to the same state, one after the other.  What host code changes while the left one
is carried out, the right one finds changed.  So the right list is what the computation gives where the left
one left off, and what it gives from the start if the left one leaves the context alone.
-/

namespace SymbolicPaths

variable {V α β : Type}

/-! ## Runs that leave nothing behind but records -/

/-- A run that leaves nothing behind but log records. -/
def Run.Silent (x : Run V α) : Prop := ∀ σ c, (x σ c).news = []

namespace Run.Silent

theorem family : Family (V := V) Silent where
  pure _ _ _ := rfl
  stop _ _ _ := rfl
  log e σ c := by
    rw [Run.log, emitIf]
    split <;> rfl
  bind h hf σ c := by
    cases hx : (_ : Outcome V _).answer with
    | ok a =>
      rw [news_bind_of_ok hx, h, hf a (answers_of_answer hx)]
      rfl
    | error e => rw [news_bind_of_error hx, h]

theorem settings : (Run.settings : Run V (Installed V)).Silent := fun σ c => by
  rw [settings_apply]
  rfl

variable [Term V]

theorem announce (n : String) (k : Nat) : (Run.announce n k : Run V Unit).Silent := by
  refine family.bind (family.household.debugging settings) fun on _ => ?_
  cases on with
  | true => exact family.log _
  | false => exact family.pure ()

/-- What an application does after a success leaves only log records. -/
theorem settle (n : String) (r : Option (List (Branch V α))) : (Run.settle n r).Silent := by
  intro σ c
  cases r with
  | none => rfl
  | some branches =>
    rw [Run.settle, mode_bind]
    split
    · exact family.bind (announce n branches.length) (fun _ _ => family.pure branches) σ c
    · rfl

end Run.Silent

namespace Comp

variable [Term V] (left : Comp V α) (right : Comp V β) (s : Subject V)

/-! ## Inside and outside -/

/-- **The sides are applied in a scope of their own**: the one at the top level. -/
theorem probe_body_apply (σ : Scope V) (c : Context V) : (probe left right).body s σ c =
    ⟨(sides left right s (.top σ.records) c).answer.map fun both => [⟨s, both⟩],
      (sides left right s (.top σ.records) c).context,
      (sides left right s (.top σ.records) c).events.filter fun e => e.pending?.isNone⟩ := by
  have inside := Run.delimit_none_apply (sides left right s) σ c
  rw [probe_body]
  show _ = (⟨(sides left right s (σ.receptive.withMode .guarded) c).answer.map _, _, _⟩ : Outcome V _)
  cases hs : (sides left right s (σ.receptive.withMode .guarded) c).answer with
  | ok both =>
    rw [hs] at inside
    rw [Run.bind_apply_of_ok inside, Run.pure_apply, List.append_nil]
    rfl
  | error e =>
    rw [hs] at inside
    rw [Run.bind_apply_of_error inside]
    rfl

theorem probe_apply (σ : Scope V) (c : Context V) : (probe left right).apply s σ c
    = ((probe left right).body s >>= fun found => Run.settle "branch" (some found)) σ c :=
  apply_apply_of_unfailing fun f => probe_body_unfailing left right s σ c f

/-- **What is seen of the sides from outside** is what they leave behind less what they drop. -/
theorem news_probe (σ : Scope V) (c : Context V) : ((probe left right).apply s σ c).news
    = (sides left right s (.top σ.records) c).news.filter fun e => e.pending?.isNone := by
  have inside : ((probe left right).body s σ c).news
      = (sides left right s (.top σ.records) c).news.filter fun e => e.pending?.isNone := by
    rw [probe_body_apply, Outcome.news, Outcome.news, List.filter_filter, List.filter_filter]
    exact List.filter_congr fun e _ => Bool.and_comm ..
  rw [probe_apply]
  cases hb : ((probe left right).body s σ c).answer with
  | ok found => rw [Run.news_bind_of_ok hb, inside, Run.Silent.settle, List.append_nil]
  | error e => rw [Run.news_bind_of_error hb, inside]

/-- Nothing that is dropped on the side is pending outside. -/
theorem dropped_probe (σ : Scope V) (c : Context V) :
    ((probe left right).apply s σ c).dropped = [] := by
  rw [← Outcome.filterMap_pending?_news, news_probe, List.filterMap_eq_nil_iff]
  intro e he
  have taken := (List.mem_filter.1 he).2
  exact Option.isNone_iff_eq_none.1 taken

variable {left right s}

/-- In the raw mode the answer is what the sides gave. -/
theorem probe_answer_of_raw {σ : Scope V} (hσ : σ.mode = .raw) {c : Context V}
    {both : Delimited (List (Branch V α)) (List (Branch V β))}
    (h : (sides left right s (.top σ.records) c).answer = .ok both) :
    ((probe left right).apply s σ c).answer = .ok [⟨s, both⟩] := by
  rw [apply_apply_of_raw hσ, probe_body_apply, h]
  rfl

/-- Whatever the mode it is, if the fork is served where the sides are done. -/
theorem probe_answer_of_serves {σ : Scope V} {c : Context V}
    {both : Delimited (List (Branch V α)) (List (Branch V β))}
    (h : (sides left right s (.top σ.records) c).answer = .ok both)
    (hs : σ.Serves (sides left right s (.top σ.records) c).context) :
    ((probe left right).apply s σ c).answer = .ok [⟨s, both⟩] := by
  have inside := probe_body_apply left right s σ c
  rw [h] at inside
  have answered : ((probe left right).body s σ c).answer = .ok [⟨s, both⟩] :=
    congrArg Outcome.answer inside
  have done : ((probe left right).body s σ c).context = (sides left right s (.top σ.records) c).context :=
    congrArg Outcome.context inside
  rw [probe_apply, Run.answer_bind_of_ok answered, done]
  exact (Run.settle_alike "branch" (some [⟨s, both⟩]) hs rfl).answer

/-- A side that fails gives no branches, and the other one is run all the same. -/
theorem apply_answer_of_failure {m : Comp V α} {σ : Scope V} (hσ : σ.mode = .guarded)
    {c : Context V} {f : Failure V} (hf : (m.body s σ c).answer = .error (.failure f))
    (kept : ∀ e, σ.records e = .ok ()) (taken : ∀ d, σ.receives d = .ok ()) :
    (m.apply s σ c).answer = .ok [] := by
  rw [apply_apply_of_failure hσ hf, Run.caught_apply_of_received hσ kept (taken _) hf]

/-- An application that ends in nothing but failures answers where failures are guarded. -/
theorem exists_answer_of_innocent {m : Comp V α} {σ : Scope V} (hσ : σ.mode = .guarded) {c : Context V}
    (h : ∀ e, (m.apply s σ c).answer = .error e → ∃ f, e = .failure f) :
    ∃ found, (m.apply s σ c).answer = .ok found := by
  cases hm : (m.apply s σ c).answer with
  | ok found => exact ⟨found, rfl⟩
  | error e =>
    obtain ⟨f, rfl⟩ := h e hm
    exact absurd hm (m.contained_apply s hσ c f)

variable (left right s)

/-- **A fork on the side is isolated.**  Let two computations be run on the side under any tower of
explorations, collectors, delimited parts and raw runs.

* The outcome is that in the scope there.  No failure ends it, and nothing is dropped in it.  What is seen
  of it besides log records is what the sides leave behind at the top level less what they drop, so no
  operation of the tower receives any of it.
* If the sides raise nothing but failures at the top level, both of them answer there, the right one where
  the left one left off.  Both lists are the one result of the fork, which goes on in the state that it was
  given: always in the raw mode, and in the guarded mode if log records are kept and there are settings to
  read.
* If the left side leaves the context alone and the right one does not notice whether the settings have been
  read, the right list is what the right side gives from the start.
* A left side that fails gives no branches, so it never keeps the right side from being run. -/
theorem probe_isolated (records : Entry V → Except (Defect V) Unit) (tower : List (Enclosure V))
    (c : Context V) :
    (Enclosure.enclosed tower ((probe left right).apply s) (.top records) c
        = (probe left right).apply s (Enclosure.within tower (.top records)) c ∧
      (∀ f, (Enclosure.enclosed tower ((probe left right).apply s) (.top records) c).answer
        ≠ .error (.failure f)) ∧
      (Enclosure.enclosed tower ((probe left right).apply s) (.top records) c).dropped = [] ∧
      (Enclosure.enclosed tower ((probe left right).apply s) (.top records) c).news
        = (sides left right s (.top records) c).news.filter fun e => e.pending?.isNone) ∧
    ((∀ e, (left.apply s (.top records) c).answer = .error e → ∃ f, e = .failure f) →
      (∀ e, (right.apply s (.top records) (left.apply s (.top records) c).context).answer = .error e →
        ∃ f, e = .failure f) →
      ∃ L R, (left.apply s (.top records) c).answer = .ok L ∧
        (right.apply s (.top records) (left.apply s (.top records) c).context).answer = .ok R ∧
        ((Enclosure.within tower (.top records)).mode = .raw ∨ (∀ e, records e = .ok ()) ∧
            (sides left right s (.top records) c).context.Loadable →
          (Enclosure.enclosed tower ((probe left right).apply s) (.top records) c).answer
            = .ok [⟨s, ⟨L, R⟩⟩]) ∧
        ((left.apply s (.top records) c).context.primed = c.primed → (right.apply s).Steady →
          (∀ e, records e = .ok ()) → c.Loadable → (right.apply s (.top records) c).answer = .ok R)) ∧
    ((∀ e, records e = .ok ()) → ∀ f, (left.body s (.top records) c).answer = .error (.failure f) →
      (left.apply s (.top records) c).answer = .ok []) := by
  have inScope := Enclosure.enclosed_apply tower (dropped_probe left right s) (.top records) c
  have sameRecords := Enclosure.records_within tower (.top records)
  rw [inScope]
  refine ⟨⟨rfl, probe_apply_unfailing left right s _ c, dropped_probe left right s _ c, ?_⟩, ?_, ?_⟩
  · rw [news_probe, sameRecords]
    rfl
  · intro innocentLeft innocentRight
    obtain ⟨L, hL⟩ := exists_answer_of_innocent rfl innocentLeft
    obtain ⟨R, hR⟩ := exists_answer_of_innocent rfl innocentRight
    have both : (sides left right s (.top records) c).answer = .ok ⟨L, R⟩ := by
      rw [sides, Run.answer_bind_of_ok hL, Run.answer_bind_of_ok hR]
      rfl
    refine ⟨L, R, hL, hR, ?_, ?_⟩
    · rintro (raw | ⟨kept, settings⟩)
      · exact probe_answer_of_raw raw (sameRecords ▸ both)
      · exact probe_answer_of_serves (sameRecords ▸ both)
          ⟨fun e => sameRecords ▸ kept e, fun _ => sameRecords ▸ settings⟩
    · intro alone steady kept hc
      rw [← hR]
      exact (steady (σ := .top records) ⟨kept, fun _ => hc⟩ alone.symm).answer
  · exact fun kept f hf => apply_answer_of_failure rfl hf kept fun _ => rfl

section Instances

open Script

/-- A read of a variable that lets its failure through, whatever is around it. -/
def readRaw : Comp (Datum Empty) (Datum Empty) := ⟨"raw", (readVar (.text "x")).runRaw⟩

/-- On the left a raw run fails, on the right one of two paths does, and around the fork there are a raw
run and a collector.  The fork goes on with an empty list and a list of one. -/
theorem probe_isolated_readRaw :
    ((readRaw.apply (.state .empty) (.top fun _ => .ok ()) {}).answer = .ok [] ∧
      (forkAndRead.apply (.state .empty) (.top fun _ => .ok ()) {}).answer
        = .ok [⟨.state .empty, .int 1⟩]) ∧
      (forkAndRead.apply (.state .empty)).Steady ∧ ({} : Context (Datum Empty)).Loadable ∧
      (Enclosure.enclosed [.raw, .collector ⟨"outer", fun _ => .ok ()⟩]
        ((probe readRaw forkAndRead).apply (.state .empty)) (.top fun _ => .ok ()) {}).answer
        = .ok [⟨.state .empty, ⟨[], [⟨.state .empty, .int 1⟩]⟩⟩] := by
  have law := probe_isolated readRaw forkAndRead (.state .empty) (fun _ => .ok ())
    [.raw, .collector ⟨"outer", fun _ => .ok ()⟩] {}
  have steady : (forkAndRead.apply (.state .empty)).Steady :=
    (Run.Composed.apply (assembled_forkAndRead.composed (.state .empty))).steady
  have hl : (readRaw.apply (.state .empty) (.top fun _ => .ok ()) {}).answer = .ok [] :=
    law.2.2 (fun _ => rfl) (.unbound (.text "x")) rfl
  have hr : (forkAndRead.apply (.state .empty) (.top fun _ => .ok ())
      (readRaw.apply (.state .empty) (.top fun _ => .ok ()) {}).context).answer
        = .ok [⟨.state .empty, .int 1⟩] := rfl
  obtain ⟨L, R, hL, hR, whole, alone⟩ := law.2.1 (fun e h => by rw [hl] at h; cases h)
    (fun e h => by rw [hr] at h; cases h)
  obtain rfl : [] = L := Except.ok.inj (hl.symm.trans hL)
  obtain rfl : [⟨.state .empty, .int 1⟩] = R := Except.ok.inj (hr.symm.trans hR)
  exact ⟨⟨hl, alone rfl steady (fun _ => rfl) Context.loadable_default⟩, steady,
    Context.loadable_default, whole (.inl rfl)⟩

/-- A state with two chunks at one location. -/
def twofold : State (Datum Empty) :=
  .ofChunks {} [⟨.location (.int 1) (.text "f"), .int 1⟩, ⟨.location (.int 1) (.text "f"), .int 2⟩]

/-- A computation that installs a policy and does nothing else. -/
def choosing : Comp (Datum Empty) Unit :=
  ⟨"choosing", fun s => do
    let _ ← Run.setPolicy (.chosen .null)
    return [⟨s, ()⟩]⟩

/-- A read of a location with the policy in force; any other policy than the first is the least term. -/
def readInForce : Comp (Datum Empty) (Datum Empty) :=
  heapRead (Unifier.inForce fun _ vs => match vs with
    | [] => Run.reject .nothingToUnify
    | v :: rest => Unifier.best Unifier.smaller v rest) (.location (.int 1) (.text "f")) (.number 0)

/-- **Two things outside a state can be seen of a fork on the side.**  Where the settings cannot be read,
two sides that give no branches each are a fork that ends in a defect.  And where the left side installs a
policy, the right side gives something else than alone. -/
theorem probe_unlike_alone :
    (((readVar (.text "x") : Comp (Datum Empty) _).apply (.state .empty) (.of .guarded)
        Context.misconfigured).answer = .ok [] ∧
      ((probe (readVar (.text "x") : Comp (Datum Empty) _) (readVar (.text "x"))).apply (.state .empty)
        (.of .guarded) Context.misconfigured).answer
        = .error (.defect (.settings (.malformedCap "abc")))) ∧
    ((choosing.apply (.state twofold) (.of .guarded) {}).answer = .ok [⟨.state twofold, ()⟩] ∧
      ((readInForce.apply (.state twofold) (.of .guarded) {}).answer.map fun bs => bs.map (·.value))
        = .ok [.int 2] ∧
      (((probe choosing readInForce).apply (.state twofold) (.of .guarded) {}).answer.map fun bs =>
        bs.map fun b => b.value.right.map (·.value)) = .ok [[.int 1]]) :=
  ⟨⟨rfl, rfl⟩, rfl, rfl, rfl⟩

end Instances

end Comp

end SymbolicPaths
