import SymbolicPaths.Comp
/-!
# What is seen of a run

Two runs can differ in ways that nobody who asked for them can tell.  A computation that is built in
another way carries other names, so its log records read differently; and a guarded application that
gives branches looks at the settings, so a run with more guards in it has read them earlier.  What is
left once these are forgotten is the answer, the events other than log records (`Outcome.news`), and
the context as it is once the settings have been read (`Context.primed`).

`Run.Alike x y` says that `x` and `y` cannot be told apart in this way, whichever of two contexts that
cannot be told apart either of them starts from.  It is not reflexive: `Run.Steady x`, which is
`x.Alike x`, says that `x` itself does not notice whether the settings have been read and leaves them
readable.

## Why there is a condition on scopes

The relation asks nothing where a run is not *served* (`Scope.Serves`): log records have to be kept,
and in the guarded mode there have to be settings to read.  The second half is needed.  A guarded
application that drops its branch does not look at the settings, so in an environment without usable
settings a computation that fails gives no branches while the same computation with one more
successful guard around it ends in a defect.  In the raw mode no guard looks at the settings, and
nothing is asked of them.
-/

namespace SymbolicPaths

variable {V α β : Type}

/-! ## Contexts -/

namespace Context

/-- The context once the settings have been read, if that is possible. -/
def primed (c : Context V) : Context V :=
  match c.settings, Settings.ofEnvironment c.environment with
  | none, .ok s => { c with settings := some (.loaded s) }
  | _, _ => c

theorem primed_of_installed {c : Context V} {i : Installed V} (h : c.settings = some i) :
    c.primed = c := by
  rw [primed, h]

theorem primed_of_readable {c : Context V} {s : Settings} (h : c.settings = none)
    (hs : Settings.ofEnvironment c.environment = .ok s) :
    c.primed = { c with settings := some (.loaded s) } := by
  rw [primed, h, hs]

theorem primed_of_unreadable {c : Context V} {p : Settings.Problem} (h : c.settings = none)
    (hp : Settings.ofEnvironment c.environment = .error p) : c.primed = c := by
  rw [primed, h, hp]

/-- Reading the settings a second time changes nothing. -/
@[simp] theorem primed_primed (c : Context V) : c.primed.primed = c.primed := by
  cases h : c.settings with
  | some i => rw [primed_of_installed h, primed_of_installed h]
  | none =>
    cases hs : Settings.ofEnvironment c.environment with
    | ok s =>
      rw [primed_of_readable h hs]
      exact primed_of_installed rfl
    | error p => rw [primed_of_unreadable h hs, primed_of_unreadable h hs]

/-- Reading the settings does not touch the policy in force. -/
@[simp] theorem policy_primed (c : Context V) : c.primed.policy = c.policy := by
  unfold primed
  split <;> rfl

variable [Term V]

/-- There are settings to read, and they say whether steps are logged. -/
def Loadable (c : Context V) : Prop :=
  ∃ i on, c.primed.settings = some i ∧ i.debug? = .ok on

theorem Loadable.of_primed_eq {c d : Context V} (h : c.Loadable) (hcd : c.primed = d.primed) :
    d.Loadable := by
  obtain ⟨i, on, hi, hon⟩ := h
  exact ⟨i, on, hcd ▸ hi, hon⟩

/-- Where nothing can be loaded, reading the settings changes nothing. -/
theorem primed_of_not_loadable {c : Context V} (h : ¬ c.Loadable) : c.primed = c := by
  cases hc : c.settings with
  | some i => exact primed_of_installed hc
  | none =>
    cases hs : Settings.ofEnvironment c.environment with
    | ok s =>
      refine absurd ⟨.loaded s, s.debug, ?_, rfl⟩ h
      rw [primed_of_readable hc hs]
    | error p => exact primed_of_unreadable hc hs

/-- Contexts in which nothing can be loaded are told apart by everything. -/
theorem eq_of_not_loadable {c d : Context V} (h : ¬ c.Loadable) (hcd : c.primed = d.primed) :
    c = d := by
  have hd : ¬ d.Loadable := fun hd => h (hd.of_primed_eq hcd.symm)
  rw [← primed_of_not_loadable h, hcd, primed_of_not_loadable hd]

/-- A context in which no settings are installed and none can be read. -/
def misconfigured : Context V := { environment := [(Settings.capVariable, "abc")] }

/-- In an empty environment there are settings to read. -/
theorem loadable_default : ({} : Context V).Loadable := ⟨.loaded {}, false, rfl, rfl⟩

end Context

namespace Run

/-- Looking at settings that can be read leaves nothing behind but that they are read. -/
theorem settings_apply_of_primed {c : Context V} {i : Installed V} (h : c.primed.settings = some i)
    (σ : Scope V) : settings σ c = ⟨.ok i, c.primed, []⟩ := by
  cases hc : c.settings with
  | some j =>
    rw [Context.primed_of_installed hc] at h ⊢
    exact settings_apply_of_installed h σ
  | none =>
    rw [settings, context_bind, hc]
    cases hs : Settings.ofEnvironment c.environment with
    | ok s =>
      rw [Context.primed_of_readable hc hs] at h ⊢
      obtain rfl : Installed.loaded s = i := Option.some.inj h
      show (context >>= _) σ c = _
      rw [context_bind, load, hs]
      rfl
    | error p =>
      rw [Context.primed_of_unreadable hc hs, hc] at h
      exact absurd h (by simp)

theorem debugging_apply_of_primed [Term V] {c : Context V} {i : Installed V} {on : Bool}
    (h : c.primed.settings = some i) (hon : i.debug? = .ok on) (σ : Scope V) :
    debugging σ c = ⟨.ok on, c.primed, []⟩ := by
  rw [debugging, bind_apply_of_ok (settings_apply_of_primed h σ), hon]
  rfl

end Run

/-! ## Events -/

namespace Event

/-- Whether an event is a log record. -/
def isRecord : Event V → Bool
  | entry _ => true
  | _ => false

end Event

namespace Outcome

/-- The events of a run other than log records. -/
def news (o : Outcome V α) : List (Event V) := o.events.filter fun e => !e.isRecord

/-- The branches that a run dropped and nobody inside received, in order. -/
def dropped (o : Outcome V α) : List (Dropped V) := o.events.filterMap Event.pending?

/-- Dropped branches are news. -/
theorem filterMap_pending?_news (o : Outcome V α) :
    o.news.filterMap Event.pending? = o.dropped := by
  have unseen : (fun e : Event V => if (!e.isRecord) = true then e.pending? else none)
      = Event.pending? := by
    funext e
    cases e <;> rfl
  rw [news, dropped, List.filterMap_filter, unseen]

end Outcome

namespace Run

/-- Some scope and context in which a run answers with `a`. -/
def Answers (x : Run V α) (a : α) : Prop := ∃ σ c, (x σ c).answer = .ok a

theorem answers_of_answer {x : Run V α} {σ : Scope V} {c : Context V} {a : α}
    (h : (x σ c).answer = .ok a) : x.Answers a := ⟨σ, c, h⟩

section Sequencing

variable {x : Run V α} {σ : Scope V} {c : Context V} {a : α} {e : Fault V}

/-- `bind_apply_of_ok` from the answer alone. -/
theorem bind_apply_of_answer_ok (h : (x σ c).answer = .ok a) (f : α → Run V β) :
    (x >>= f) σ c = ⟨(f a σ (x σ c).context).answer, (f a σ (x σ c).context).context,
      (x σ c).events ++ (f a σ (x σ c).context).events⟩ := by
  have hx : x σ c = ⟨.ok a, (x σ c).context, (x σ c).events⟩ := by rw [← h]
  exact bind_apply_of_ok hx f

/-- `bind_apply_of_error` from the answer alone. -/
theorem bind_apply_of_answer_error (h : (x σ c).answer = .error e) (f : α → Run V β) :
    (x >>= f) σ c = ⟨.error e, (x σ c).context, (x σ c).events⟩ := by
  have hx : x σ c = ⟨.error e, (x σ c).context, (x σ c).events⟩ := by rw [← h]
  exact bind_apply_of_error hx f

/-- What follows a run matters only for what the run answers, and where it leaves off. -/
theorem bind_apply_congr {f g : α → Run V β}
    (h : ∀ a, (x σ c).answer = .ok a → f a σ (x σ c).context = g a σ (x σ c).context) :
    (x >>= f) σ c = (x >>= g) σ c := by
  cases hx : (x σ c).answer with
  | ok a => rw [bind_apply_of_answer_ok hx, bind_apply_of_answer_ok hx, h a hx]
  | error e => rw [bind_apply_of_answer_error hx, bind_apply_of_answer_error hx]

/-- The first part of a sequence matters only where it is carried out. -/
theorem bind_apply_congr_left {y : Run V α} (h : x σ c = y σ c) (f : α → Run V β) :
    (x >>= f) σ c = (y >>= f) σ c := by
  show Run.bind x f σ c = Run.bind y f σ c
  rw [Run.bind, Run.bind, h]

theorem answer_bind_of_ok (h : (x σ c).answer = .ok a) (f : α → Run V β) :
    ((x >>= f) σ c).answer = (f a σ (x σ c).context).answer := by
  rw [bind_apply_of_answer_ok h]

theorem context_bind_of_ok (h : (x σ c).answer = .ok a) (f : α → Run V β) :
    ((x >>= f) σ c).context = (f a σ (x σ c).context).context := by
  rw [bind_apply_of_answer_ok h]

theorem news_bind_of_ok (h : (x σ c).answer = .ok a) (f : α → Run V β) :
    ((x >>= f) σ c).news = (x σ c).news ++ (f a σ (x σ c).context).news := by
  rw [bind_apply_of_answer_ok h]
  exact List.filter_append ..

theorem dropped_bind_of_ok (h : (x σ c).answer = .ok a) (f : α → Run V β) :
    ((x >>= f) σ c).dropped = (x σ c).dropped ++ (f a σ (x σ c).context).dropped := by
  rw [bind_apply_of_answer_ok h]
  exact List.filterMap_append ..

theorem answer_bind_of_error (h : (x σ c).answer = .error e) (f : α → Run V β) :
    ((x >>= f) σ c).answer = .error e := by
  rw [bind_apply_of_answer_error h]

theorem context_bind_of_error (h : (x σ c).answer = .error e) (f : α → Run V β) :
    ((x >>= f) σ c).context = (x σ c).context := by
  rw [bind_apply_of_answer_error h]

theorem news_bind_of_error (h : (x σ c).answer = .error e) (f : α → Run V β) :
    ((x >>= f) σ c).news = (x σ c).news := by
  rw [bind_apply_of_answer_error h]
  rfl

theorem dropped_bind_of_error (h : (x σ c).answer = .error e) (f : α → Run V β) :
    ((x >>= f) σ c).dropped = (x σ c).dropped := by
  rw [bind_apply_of_answer_error h]
  rfl

/-- What a sequence answered, its second part answered, from where its first part left off. -/
theorem exists_of_answer_bind_ok {f : α → Run V β} {b : β} (h : ((x >>= f) σ c).answer = .ok b) :
    ∃ a, (x σ c).answer = .ok a ∧ (f a σ (x σ c).context).answer = .ok b := by
  cases hx : (x σ c).answer with
  | ok a => exact ⟨a, rfl, by rw [← answer_bind_of_ok hx, h]⟩
  | error e =>
    rw [answer_bind_of_error hx] at h
    exact absurd h (by simp)

/-- Where a sequence ended, its first part did, or its second part from where that left off. -/
theorem cases_of_answer_bind_error {f : α → Run V β} {e : Fault V}
    (h : ((x >>= f) σ c).answer = .error e) : (x σ c).answer = .error e ∨
      ∃ a, (x σ c).answer = .ok a ∧ (f a σ (x σ c).context).answer = .error e := by
  cases hx : (x σ c).answer with
  | ok a => exact .inr ⟨a, rfl, by rw [← answer_bind_of_ok hx, h]⟩
  | error e' =>
    rw [answer_bind_of_error hx] at h
    exact .inl (congrArg Except.error (Except.error.inj h))

end Sequencing

end Run

/-! ## Properties that sequences inherit -/

/-- A property of runs that answers have and that sequences inherit. -/
structure Run.Sequential (P : ∀ {α : Type}, Run V α → Prop) : Prop where
  pure : ∀ {α : Type} (a : α), P (pure a : Run V α)
  bind : ∀ {α β : Type} {x : Run V α} {f : α → Run V β}, P x → (∀ a, x.Answers a → P (f a)) →
    P (x >>= f)

namespace Run.Sequential

variable {ι : Type} {P : ∀ {α : Type}, Run V α → Prop} (sequential : Sequential P)

include sequential

theorem flatMap {items : List ι} {f : ι → Run V (List α)} (h : ∀ i ∈ items, P (f i)) :
    P (Run.flatMap items f) := by
  induction items with
  | nil => exact sequential.pure []
  | cons i rest ih =>
    refine sequential.bind (h i (List.mem_cons_self ..)) fun here _ => ?_
    refine sequential.bind (ih fun j hj => h j (List.mem_cons_of_mem i hj)) fun others _ => ?_
    exact sequential.pure (here ++ others)

theorem each {items : List ι} {f : ι → Run V α} (h : ∀ i ∈ items, P (f i)) :
    P (Run.each items f) := by
  induction items with
  | nil => exact sequential.pure []
  | cons i rest ih =>
    refine sequential.bind (h i (List.mem_cons_self ..)) fun here _ => ?_
    refine sequential.bind (ih fun j hj => h j (List.mem_cons_of_mem i hj)) fun others _ => ?_
    exact sequential.pure (here :: others)

theorem foldlM (items : List ι) {f : β → ι → Run V β} (h : ∀ b, ∀ i ∈ items, P (f b i)) (b : β) :
    P (items.foldlM f b) := by
  induction items generalizing b with
  | nil => exact sequential.pure b
  | cons i rest ih =>
    rw [List.foldlM_cons]
    refine sequential.bind (h b i (List.mem_cons_self ..)) fun b' _ => ?_
    exact ih (fun d j hj => h d j (List.mem_cons_of_mem i hj)) b'

/-- What is done after a run inherits what is done there and ends are. -/
theorem parting (stop : ∀ {α : Type} (e : Fault V), P (Run.stop e : Run V α)) {last : Run V Unit}
    (h : P last) (keep : α → Bool) (answer : Except (Fault V) α) : P (Run.parting keep last answer) := by
  cases answer with
  | ok a =>
    rw [Run.parting]
    split
    · exact sequential.pure a
    · exact sequential.bind h fun _ _ => sequential.pure a
  | error e => exact sequential.bind h fun _ _ => stop e

end Run.Sequential

/-! ## Events that are taken -/

section Taken

variable {taken : Scope V → Except (Defect V) Unit} {σ : Scope V} {x : Defect V} (c : Context V)

theorem Run.emitIf_apply_of_ok (h : taken σ = .ok ()) (e : Event V) :
    Run.emitIf taken e σ c = ⟨.ok (), c, [e]⟩ := by
  rw [Run.emitIf, h]

theorem Run.emitIf_apply_of_error (h : taken σ = .error x) (e : Event V) :
    Run.emitIf taken e σ c = ⟨.error (.defect x), c, []⟩ := by
  rw [Run.emitIf, h]

theorem Run.log_apply_of_ok {e : Entry V} (h : σ.records e = .ok ()) :
    Run.log e σ c = ⟨.ok (), c, [.entry e]⟩ := emitIf_apply_of_ok c h _

theorem Run.log_apply_of_error {e : Entry V} (h : σ.records e = .error x) :
    Run.log e σ c = ⟨.error (.defect x), c, []⟩ := emitIf_apply_of_error c h _

/-- A branch that is given up is recorded and received, if it can be. -/
theorem Run.report_apply_of_received {n : String} {s : Subject V} {f : Failure V}
    (records : σ.records (.dropping n f) = .ok ()) (receives : σ.receives ⟨s, f⟩ = .ok ()) :
    Run.report n s f σ c = ⟨.ok (), c, [.entry (.dropping n f), .dropped ⟨s, f⟩]⟩ := by
  rw [report, bind_apply_of_ok (log_apply_of_ok c records), emitIf_apply_of_ok c receives]
  rfl

end Taken

/-! ## Runs that cannot be told apart -/

/-- A run in this scope and context is served: log records are kept, and in the guarded mode there
are settings to read. -/
structure Scope.Serves [Term V] (σ : Scope V) (c : Context V) : Prop where
  records : ∀ e, σ.records e = .ok ()
  settings : σ.mode = .guarded → c.Loadable

/-- Outcomes that agree in everything but log records and whether the settings have been read; the
first one leaves a context in which runs are served on. -/
structure Outcome.Alike [Term V] (σ : Scope V) (o p : Outcome V α) : Prop where
  answer : o.answer = p.answer
  news : o.news = p.news
  context : o.context.primed = p.context.primed
  serves : σ.Serves o.context

/-- Runs that cannot be told apart where they are served. -/
def Run.Alike [Term V] (x y : Run V α) : Prop :=
  ∀ ⦃σ : Scope V⦄ ⦃c d : Context V⦄, σ.Serves c → c.primed = d.primed →
    Outcome.Alike σ (x σ c) (y σ d)

/-- A run that does not notice whether the settings have been read, and leaves them readable. -/
def Run.Steady [Term V] (x : Run V α) : Prop := x.Alike x

section Alike

variable [Term V]

namespace Scope.Serves

variable {σ : Scope V} {c d : Context V}

/-- A scope in which everything is kept serves where there are settings to read. -/
theorem of_loadable (m : Mode) (h : c.Loadable) : (Scope.of m).Serves c := ⟨fun _ => rfl, fun _ => h⟩

theorem of_primed_eq (h : σ.Serves c) (hcd : c.primed = d.primed) : σ.Serves d :=
  ⟨h.records, fun hm => (h.settings hm).of_primed_eq hcd⟩

end Scope.Serves

namespace Outcome.Alike

variable {σ : Scope V} {o p q : Outcome V α}

theorem dropped (h : Outcome.Alike σ o p) : o.dropped = p.dropped := by
  rw [← o.filterMap_pending?_news, h.news, p.filterMap_pending?_news]

theorem symm (h : Outcome.Alike σ o p) : Outcome.Alike σ p o :=
  ⟨h.answer.symm, h.news.symm, h.context.symm, h.serves.of_primed_eq h.context⟩

theorem trans (h : Outcome.Alike σ o p) (h' : Outcome.Alike σ p q) : Outcome.Alike σ o q :=
  ⟨h.answer.trans h'.answer, h.news.trans h'.news, h.context.trans h'.context, h.serves⟩

/-- An outcome is like itself if runs are served on where it ends. -/
theorem refl_of_serves (h : σ.Serves o.context) : Outcome.Alike σ o o := ⟨rfl, rfl, rfl, h⟩

/-- Sequences agree if their first parts do and whatever follows does. -/
theorem bind {x y : Run V α} {f g : α → Run V β} {c d : Context V}
    (h : Outcome.Alike σ (x σ c) (y σ d)) (hf : ∀ a, x.Answers a → (f a).Alike (g a)) :
    Outcome.Alike σ ((x >>= f) σ c) ((y >>= g) σ d) := by
  cases hx : (x σ c).answer with
  | ok a =>
    have hy : (y σ d).answer = .ok a := by rw [← h.answer, hx]
    have next := hf a (Run.answers_of_answer hx) h.serves h.context
    refine ⟨?_, ?_, ?_, ?_⟩
    · rw [Run.answer_bind_of_ok hx, Run.answer_bind_of_ok hy, next.answer]
    · rw [Run.news_bind_of_ok hx, Run.news_bind_of_ok hy, h.news, next.news]
    · rw [Run.context_bind_of_ok hx, Run.context_bind_of_ok hy, next.context]
    · rw [Run.context_bind_of_ok hx]
      exact next.serves
  | error e =>
    have hy : (y σ d).answer = .error e := by rw [← h.answer, hx]
    refine ⟨?_, ?_, ?_, ?_⟩
    · rw [Run.answer_bind_of_error hx, Run.answer_bind_of_error hy]
    · rw [Run.news_bind_of_error hx, Run.news_bind_of_error hy, h.news]
    · rw [Run.context_bind_of_error hx, Run.context_bind_of_error hy, h.context]
    · rw [Run.context_bind_of_error hx]
      exact h.serves

end Outcome.Alike

namespace Run

variable {x y z : Run V α} {f g : α → Run V β}

theorem Alike.symm (h : x.Alike y) : y.Alike x := fun _ _ _ hs hcd =>
  (h (hs.of_primed_eq hcd) hcd.symm).symm

theorem Alike.trans (h : x.Alike y) (h' : y.Alike z) : x.Alike z := fun _ _ _ hs hcd =>
  (h hs hcd).trans (h' (hs.of_primed_eq hcd) rfl)

/-- What a run is like is steady, since it cannot be told apart from the run either way. -/
theorem Alike.steady_left (h : x.Alike y) : x.Steady := h.trans h.symm

theorem Alike.steady_right (h : x.Alike y) : y.Steady := h.symm.trans h

theorem Alike.bind (h : x.Alike y) (hf : ∀ a, x.Answers a → (f a).Alike (g a)) :
    (x >>= f).Alike (y >>= g) := fun _ _ _ hs hcd => (h hs hcd).bind hf

theorem Steady.bind (h : x.Steady) (hf : ∀ a, x.Answers a → (f a).Steady) : (x >>= f).Steady :=
  Alike.bind h hf

/-- A run that only has an answer is steady. -/
theorem steady_ofExcept (r : Except (Fault V) α) : (ofExcept r).Steady := fun _ _ _ hs hcd =>
  ⟨rfl, rfl, hcd, hs⟩

theorem steady_pure (a : α) : (pure a : Run V α).Steady := steady_ofExcept (.ok a)

/-- To be steady is inherited by sequences. -/
theorem sequential_steady : Sequential (V := V) Steady := ⟨steady_pure, Steady.bind⟩

theorem steady_stop (e : Fault V) : (stop e : Run V α).Steady := steady_ofExcept (.error e)

/-- An event that somebody takes, or refuses whatever the context. -/
theorem steady_emitIf (taken : Scope V → Except (Defect V) Unit) (e : Event V) :
    (emitIf taken e).Steady := by
  intro σ c d hs hcd
  cases h : taken σ with
  | ok u =>
    rw [emitIf_apply_of_ok c h, emitIf_apply_of_ok d h]
    exact ⟨rfl, rfl, hcd, hs⟩
  | error r =>
    rw [emitIf_apply_of_error c h, emitIf_apply_of_error d h]
    exact ⟨rfl, rfl, hcd, hs⟩

/-- Which log record is made cannot be seen. -/
theorem log_alike_pure (e : Entry V) : (log e).Alike (pure ()) := by
  intro σ c d hs hcd
  rw [log_apply_of_ok c (hs.records e)]
  exact ⟨rfl, rfl, hcd, hs⟩

theorem steady_log (e : Entry V) : (log e).Steady := (log_alike_pure e).steady_left

end Run

end Alike

end SymbolicPaths
