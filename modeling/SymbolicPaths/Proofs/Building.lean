import SymbolicPaths.Proofs.Conservation
import SymbolicPaths.Proofs.Indifference
/-!
# What is built from the library

`Comp.Built H N` lists all the ways in which a program gets computations from the library, as
`Comp.Assembled` does, with two parameters: `H` is what is known of host code, and `N` are the names that are
bound.  A computation that a program makes itself is host code, too.

Two things are said of whatever is built, one case for each way.

* A property of runs that primitives have, and that guards, applications, sides and attempts inherit, holds of
  what is built if it follows from `H` (`Comp.Built.closed`).  So what is built is indifferent to an exchange of
  settings if host code is (`Comp.Built.indifferent`).
* A path that starts in a sound state only gets to sound states (`Comp.Built.keeps`).  A state is *sound* if
  its names are among `N`, each of them once (`Subject.Sound`).
-/

namespace SymbolicPaths

variable {V α β ι κ : Type} [Term V]

/-! ## Sound states -/

/-- A store that binds such names, each of them once. -/
structure Store.Named (N : V → Prop) (s : Store V) : Prop where
  names : ∀ e ∈ s.entries, N e.1
  distinct : s.entries.Pairwise fun e f => Term.same e.1 f.1 = false

/-- A subject that is a state with such a store. -/
def Subject.Sound (N : V → Prop) (s : Subject V) : Prop := ∃ st, s = .state st ∧ st.store.Named N

variable {N : V → Prop}

namespace Store

/-- The names after one more was bound are those of before and this one. -/
theorem name_of_mem_bindEntry {name value : V} {entries : List (V × V)} {P : V → Prop} (hn : P name)
    (h : ∀ e ∈ entries, P e.1) : ∀ e ∈ bindEntry name value entries, P e.1 := by
  induction entries with
  | nil => exact List.forall_mem_singleton.2 hn
  | cons e rest ih =>
    obtain ⟨here, others⟩ := List.forall_mem_cons.1 h
    rw [bindEntry]
    split
    · exact List.forall_mem_cons.2 ⟨here, others⟩
    · exact List.forall_mem_cons.2 ⟨here, ih others⟩

theorem Named.empty : (empty : Store V).Named N := ⟨List.forall_mem_nil _, .nil⟩

/-- To bind a name that is there gives it no second entry. -/
theorem Named.bind {s : Store V} (h : s.Named N) {name : V} (hn : N name) (value : V) :
    (s.bind name value).Named N := by
  refine ⟨name_of_mem_bindEntry hn h.names, ?_⟩
  rcases s with ⟨entries⟩
  have distinct : entries.Pairwise fun e f => Term.same e.1 f.1 = false := h.distinct
  show (bindEntry name value entries).Pairwise _
  clear h
  induction entries with
  | nil => exact List.pairwise_singleton _ _
  | cons e rest ih =>
    obtain ⟨apart, others⟩ := List.pairwise_cons.1 distinct
    rw [bindEntry]
    split
    · exact List.pairwise_cons.2 ⟨apart, others⟩
    · rename_i differs
      have first : ∀ f ∈ bindEntry name value rest, Term.same e.1 f.1 = false :=
        name_of_mem_bindEntry (P := fun n => Term.same e.1 n = false) (Bool.eq_false_iff.2 differs) apart
      exact List.pairwise_cons.2 ⟨first, ih others⟩

end Store

/-! ## Computations -/

/-- A routine whose parts are such host code. -/
structure Routine.Hosted (H : ∀ {α : Type}, Run V α → Prop) (r : Routine V κ α) : Prop where
  prepare : H r.prepare
  start : ∀ ready, H (r.start ready)
  resume : ∀ paused v, H (r.resume paused v)
  release : ∀ paused, H (r.release paused)
  wanted : ∀ wanted, r.Wants wanted → H wanted

namespace Comp

/-- The computations that programs get from the library with such host code, if they bind such names.  The
first are those that a program makes itself. -/
inductive Built (H : ∀ {α : Type}, Run V α → Prop) (N : V → Prop) : {α : Type} → Comp V α → Prop where
  | own {α : Type} (m : Comp V α) (h : ∀ s, H (m.body s))
      (hs : ∀ s, s.Sound N → ∀ bs, (m.body s).Answers bs → ∀ b ∈ bs, b.state.Sound N) : Built @H N m
  | pure {α : Type} (a : α) : Built @H N (pure a)
  | zero : Built @H N zero
  | stop {α : Type} (e : Fault V) : Built @H N (stop e : Comp V α)
  | choose : Built @H N choose
  | readVar (name : V) : Built @H N (readVar name)
  | storeVar {name : V} (hn : N name) (value : V) : Built @H N (storeVar name value)
  | getStore : Built @H N getStore
  | putStore {store : Run V (Store V)} (h : H store) (ht : ∀ t, store.Answers t → t.Named N) :
      Built @H N (putStore store)
  | getHeap : Built @H N getHeap
  | putHeap (heap : List (Member V)) : Built @H N (putHeap heap)
  | addChunk (c : Member V) : Built @H N (addChunk c)
  | writeHeap (l v : V) : Built @H N (heapWrite l v)
  | compress {unifier : Run V (Unifier V)} (h : H unifier)
      (hu : ∀ u, unifier.Answers u → ∀ vs, H (u vs)) : Built @H N (compress unifier)
  | readHeap {unifier : Run V (Unifier V)} (h : H unifier)
      (hu : ∀ u, unifier.Answers u → ∀ vs, H (u vs)) (l : V) (attempt : Amount V) :
      Built @H N (heapRead unifier l attempt)
  | probe {α β : Type} {left : Comp V α} {right : Comp V β} (hl : Built @H N left) (hr : Built @H N right) :
      Built @H N (probe left right)
  | bind {α β : Type} {m : Comp V α} {f : α → Run V (Comp V β)} (h : Built @H N m) (hf : ∀ a, H (f a))
      (hd : ∀ a d, (f a).Answers d → Built @H N d) : Built @H N (m.bind f)
  | map {α β : Type} {f : α → Run V β} {m : Comp V α} (hf : ∀ a, H (f a)) (h : Built @H N m) :
      Built @H N (map f m)
  | relabel {α β : Type} (f : α → β) {m : Comp V α} (h : Built @H N m) : Built @H N (m.relabel f)
  | defer {α : Type} (name : String) {thunk : Run V (Comp V α)} (h : H thunk)
      (hd : ∀ d, thunk.Answers d → Built @H N d) : Built @H N (defer name thunk)
  | sequence {α : Type} {steps : List (Comp V α)} (h : ∀ m ∈ steps, Built @H N m) :
      Built @H N (sequence steps)
  | traverse {ι α : Type} (items : List ι) {f : ι → Run V (Comp V α)} (hf : ∀ i, H (f i))
      (hd : ∀ i d, (f i).Answers d → Built @H N d) : Built @H N (traverse items f)
  | forEach {ι α : Type} (items : List ι) {body : ι → Run V (Comp V α)} (hf : ∀ i, H (body i))
      (hd : ∀ i d, (body i).Answers d → Built @H N d) : Built @H N (forEach items body)
  | routine {κ α : Type} {r : Routine V κ α} (name : String) (fuel : Nat) (h : r.Hosted @H)
      (hd : ∀ wanted, r.Wants wanted → ∀ d, wanted.Answers d → Built @H N d) : Built @H N (r.comp name fuel)

/-- What combinators do inherits what host code has, if routines do. -/
theorem Built.closed_of_routine {H P : ∀ {α : Type}, Run V α → Prop} (closed : Run.Closure P)
    (stop : ∀ {α : Type} (e : Fault V), P (Run.stop e : Run V α))
    (aside : ∀ {α : Type} {x : Run V α}, P x → P (Run.delimit none x))
    (routine : ∀ {κ α : Type} (r : Routine V κ α) (name : String) (fuel : Nat), r.Hosted H →
      (∀ wanted, r.Wants wanted → ∀ d, wanted.Answers d → ∀ s, P (d.body s)) →
        ∀ s, P ((r.comp name fuel).body s))
    (host : ∀ {α : Type} {x : Run V α}, H x → P x) {m : Comp V α} (h : Built H N m) :
    ∀ s, P (m.body s) := by
  induction h with
  | own _ h _ => exact fun s => host (h s)
  | pure a => exact fun _ => closed.pure _
  | zero => exact fun _ => closed.pure _
  | stop e => exact fun _ => stop e
  | choose => exact fun _ => closed.pure _
  | readVar name => exact closed.readVar name
  | storeVar _ value => exact closed.storeVar _ value
  | getStore => exact closed.getStore
  | putStore h _ => exact closed.putStore (host h)
  | getHeap => exact closed.getHeap
  | putHeap heap => exact closed.putHeap _
  | addChunk c => exact closed.addChunk _
  | writeHeap l v => exact closed.writeHeap l v
  | compress h hu => exact closed.compress (host h) fun u hanswer vs => host (hu u hanswer vs)
  | readHeap h hu l attempt =>
    exact closed.heapReadWithin (host h) (fun u hanswer vs => host (hu u hanswer vs)) l _ attempt
  | probe _ _ ihl ihr =>
    exact fun s => closed.bind (aside (closed.bind (closed.apply (ihl s)) fun _ _ =>
      closed.bind (closed.apply (ihr s)) fun _ _ => closed.pure _)) fun _ _ => closed.pure _
  | bind _ hf _ ih ihd => exact closed.bindComp ih (fun a => host (hf a)) ihd
  | map hf _ ih => exact closed.map (fun a => host (hf a)) ih
  | relabel f _ ih => exact fun s => closed.bind (ih s) fun _ _ => closed.pure _
  | defer name h _ ih => exact closed.defer name (host h) ih
  | sequence _ ih => exact closed.sequence ih
  | traverse items hf _ ih => exact closed.traverse items (fun i => host (hf i)) ih
  | forEach items hf _ ih => exact closed.forEach items (fun i => host (hf i)) ih
  | routine name fuel h _ ih => exact routine _ name fuel h ih

/-- **What the library does inherits what host code has.** -/
theorem Built.closed {H P : ∀ {α : Type}, Run V α → Prop} (closed : Run.Closure P)
    (stop : ∀ {α : Type} (e : Fault V), P (Run.stop e : Run V α))
    (aside : ∀ {α : Type} {x : Run V α}, P x → P (Run.delimit none x))
    (attempt : ∀ {α : Type} {x : Run V α}, P x → P (Run.attempt x))
    (host : ∀ {α : Type} {x : Run V α}, H x → P x) {m : Comp V α} (h : Built H N m) :
    ∀ s, P (m.body s) := by
  -- a body is let go of by a sequence of attempts
  have after : ∀ {γ : Type} {last : Run V Unit} {x : Run V γ} (keep : γ → Bool), P last → P x →
      P (Run.afterUnless keep last x) := fun keep hl hx =>
    closed.bind (attempt hx) fun answer _ => closed.toSequential.parting stop hl keep answer
  refine h.closed_of_routine closed stop aside (fun r name fuel hosted hd _ => ?_) host
  exact closed.exhaust (fun ready => closed.asBody (host (hosted.start ready)))
    (fun paused v => closed.asBody (host (hosted.resume paused v)))
    (fun wanted hw => host (hosted.wanted wanted hw)) hd
    (fun paused _ _ keep hx => after keep (closed.asBody (host (hosted.release paused))) hx)
    (host hosted.prepare) name fuel fuel _

/-- What is built of indifferent host code is indifferent itself. -/
theorem Built.indifferent {R : Installed V → Installed V → Prop} (exchange : Installed.Exchange R) {m : Comp V α}
    (h : Built (Run.Indifferent R) N m) (s : Subject V) : (m.body s).Indifferent R :=
  h.closed (Run.Indifferent.closure exchange) (fun e => .ofExcept (.error e)) (fun hx => hx.delimit none)
    (fun hx => hx.attempt) (fun hx => hx) s

/-! ## States that are kept sound -/

/-- All branches of a computation from such a subject end in such subjects. -/
def Keeps (Q : Subject V → Prop) (m : Comp V α) : Prop := ∀ s, Q s → ∀ σ,
  Run.Within σ (fun bs => ∀ b ∈ bs, Q b.state) (fun _ => True) (m.body s)

open Run (Within)

variable {Q : Subject V → Prop} {m : Comp V α} {σ : Scope V}

omit [Term V] in
/-- Nothing is said of what a run drops. -/
theorem within_answers (x : Run V α) : Within σ x.Answers (fun _ => True) x :=
  .dropping fun _ _ _ _ => trivial

theorem Keeps.apply (h : m.Keeps Q) {s : Subject V} (hs : Q s) (σ : Scope V) :
    Within σ (fun bs => ∀ b ∈ bs, Q b.state) (fun _ => True) (m.apply s) :=
  (h s hs σ).apply fun _ _ => trivial

/-- What a host function builds keeps what each computation keeps that it builds. -/
theorem keeps_defer (name : String) {thunk : Run V (Comp V α)}
    (hd : ∀ d, thunk.Answers d → d.Keeps Q) : (defer name thunk).Keeps Q := fun _ hs σ =>
  (within_answers thunk).bind fun d hanswer => (hd d hanswer).apply hs σ

theorem keeps_bind {f : α → Run V (Comp V β)} (h : m.Keeps Q)
    (hd : ∀ a d, (f a).Answers d → d.Keeps Q) : (m.bind f).Keeps Q := fun _ hs σ =>
  (h.apply hs σ).bind fun _ hbs => .flatMap fun b hb =>
    (keeps_defer _ (hd b.value)).apply (hbs b hb) σ

theorem keeps_map {f : α → Run V β} (h : m.Keeps Q) : (m.map f).Keeps Q := fun _ hs σ =>
  (h.apply hs σ).bind fun _ hbs => .each fun b hb => (within_answers _).bind fun _ _ => .pure (hbs b hb)

omit [Term V] in
theorem keeps_relabel (f : α → β) (h : m.Keeps Q) : (m.relabel f).Keeps Q := fun s hs σ =>
  (h s hs σ).bind fun _ hbs => .pure (List.forall_mem_map.2 hbs)

theorem keeps_sequence {steps : List (Comp V α)} (h : ∀ m ∈ steps, m.Keeps Q) :
    (sequence steps).Keeps Q := by
  intro s hs σ
  refine .foldlM (I := fun _ (frontier : List (Branch V (List α))) => ∀ path ∈ frontier, Q path.state)
    (fun front m rest hsteps frontier hfrontier => .flatMap fun path hpath => ?_)
    (List.forall_mem_singleton.2 hs)
  have hm : m.Keeps Q := h m (hsteps ▸ List.mem_append_right front (List.mem_cons_self ..))
  exact (hm.apply (hfrontier path hpath) σ).bind fun bs hbs => .pure (List.forall_mem_map.2 hbs)

theorem keeps_traverse (items : List ι) {f : ι → Run V (Comp V α)}
    (hd : ∀ i d, (f i).Answers d → d.Keeps Q) : (traverse items f).Keeps Q := by
  refine keeps_defer _ ?_
  rintro d ⟨σ, c, h⟩
  obtain ⟨steps, hsteps, h⟩ := Run.exists_of_answer_bind_ok h
  obtain rfl : Comp.sequence steps = d := Except.ok.inj h
  refine keeps_sequence fun m hm => ?_
  obtain ⟨i, -, hi⟩ := Run.exists_of_answers_each (Run.answers_of_answer hsteps) m hm
  exact hd i m (Run.answers_of_asBody hi)

theorem keeps_forEach (items : List ι) {body : ι → Run V (Comp V α)}
    (hd : ∀ i d, (body i).Answers d → d.Keeps Q) : (forEach items body).Keeps Q := by
  intro s hs σ
  refine Within.bind (A := fun frontier => ∀ t ∈ frontier, Q t)
    (.foldlM (I := fun _ frontier => ∀ t ∈ frontier, Q t)
      (fun front i rest _ frontier hfrontier => .flatMap fun current hcurrent => ?_)
      (List.forall_mem_singleton.2 hs))
    fun frontier hfrontier => .pure (List.forall_mem_map.2 hfrontier)
  exact ((keeps_defer "delay" (hd i)).apply (hfrontier current hcurrent) σ).bind fun bs hbs =>
    .pure (List.forall_mem_map.2 hbs)

theorem keeps_heapReadWithin {unifier : Run V (Unifier V)} (h : (compress unifier).Keeps Q) (l : V)
    (retries : Nat) (attempt : Amount V) : (heapReadWithin unifier l retries attempt).Keeps Q := by
  induction retries generalizing attempt with
  | zero =>
    refine fun s hs σ => (within_answers (chunksAt l s)).bind fun chunks _ => ?_
    match chunks with
    | [] => exact .fail _
    | [c] => exact .pure (List.forall_mem_singleton.2 hs)
    | _ :: _ :: _ =>
      exact (within_answers _).bind fun _ _ => (within_answers _).bind fun _ _ => .stop _
  | succ retries ih =>
    refine fun s hs σ => (within_answers (chunksAt l s)).bind fun chunks _ => ?_
    match chunks with
    | [] => exact .fail _
    | [c] => exact .pure (List.forall_mem_singleton.2 hs)
    | _ :: _ :: _ =>
      refine (within_answers _).bind fun next _ => (within_answers _).bind fun _ _ => ?_
      refine (keeps_bind h fun _ d hd => ?_).apply hs σ
      obtain ⟨τ, c, hd⟩ := hd
      obtain rfl : heapReadWithin unifier l retries (.number next) = d := Except.ok.inj hd
      exact ih _

/-! ### Routines -/

section Routine

variable {r : Routine V κ α} (hd : ∀ wanted, r.Wants wanted → ∀ d, wanted.Answers d → d.Keeps Q)

include hd

/-- Where a path of a routine ends, and where those are that it leaves waiting. -/
theorem keeps_follow (name : String) (depth : Nat) (signal : Signal V κ α) (path : Path V)
    (hp : Q path.state) (hs : Run.Closure.Sent r signal) :
    Within σ (fun found => (∀ b, found.1 = some b → Q b.state) ∧ ∀ p ∈ found.2, Q p.state)
      (fun _ => True) (r.follow name depth signal path) := by
  induction depth generalizing signal path with
  | zero =>
    cases signal with
    | finished a => exact .pure ⟨fun b hb => Option.some.inj hb ▸ hp, List.forall_mem_nil _⟩
    | awaiting wanted paused => exact .stop _
  | succ depth ih =>
    cases signal with
    | finished a => exact .pure ⟨fun b hb => Option.some.inj hb ▸ hp, List.forall_mem_nil _⟩
    | awaiting wanted paused =>
      have applied : Within σ (fun bs => ∀ b ∈ bs, Q b.state) (fun _ => True)
          (wanted >>= fun m => m.apply path.state) :=
        (within_answers wanted).bind fun m hm => (hd wanted (hs wanted paused rfl) m hm).apply hp σ
      refine (applied.unlessOver.afterUnless (fun _ _ _ _ => trivial) _).bind fun carried hcarried => ?_
      match carried with
      | .error details => exact .pure ⟨fun b hb => Option.some.inj hb ▸ hp, List.forall_mem_nil _⟩
      | .ok [] => exact .pure ⟨fun b hb => (by cases hb), List.forall_mem_nil _⟩
      | .ok (first :: siblings) =>
        obtain ⟨hfirst, hsiblings⟩ := List.forall_mem_cons.1 (hcarried.2 _ rfl)
        have waiting : ∀ p ∈ siblings.map fun b => (⟨path.trail ++ [b.value], b.state⟩ : Path V),
            Q p.state := List.forall_mem_map.2 hsiblings
        refine ((within_answers (Run.asBody (r.resume paused first.value))).guarding name
          fun _ _ => trivial).bind fun next hnext => ?_
        cases next with
        | none => exact .pure ⟨fun b hb => (by cases hb), waiting⟩
        | some signal =>
          have sent := Run.Closure.sent_of_resume (Run.answers_of_asBody (hnext signal rfl))
          refine (ih signal _ hfirst sent).bind
            fun found hfound => .pure ⟨hfound.1, List.forall_mem_append.2 ⟨hfound.2, waiting⟩⟩

theorem keeps_comp (name : String) (fuel : Nat) : (r.comp name fuel).Keeps Q := by
  intro s hs σ
  have exhausted : ∀ left waiting, (∀ p ∈ waiting, Q p.state) →
      Within σ (fun bs => ∀ b ∈ bs, Q b.state) (fun _ => True) (r.exhaust name fuel left waiting) := by
    intro left
    induction left with
    | zero =>
      intro waiting _
      cases waiting with
      | nil => exact .pure (List.forall_mem_nil _)
      | cons path waiting => exact .stop _
    | succ left ih =>
      intro waiting hwaiting
      cases waiting with
      | nil => exact .pure (List.forall_mem_nil _)
      | cons path waiting =>
        obtain ⟨hp, hrest⟩ := List.forall_mem_cons.1 hwaiting
        have pursued : Within σ (fun found => (∀ b, found.1 = some b → Q b.state) ∧
            ∀ p ∈ found.2, Q p.state) (fun _ => True) (r.pursue name fuel path) := by
          refine (within_answers r.prepare).bind fun ready _ => ?_
          refine ((within_answers (r.replay ready path.trail)).guarding name fun _ _ => trivial).bind
            fun signal hsignal => ?_
          cases signal with
          | none => exact .pure ⟨fun b hb => (by cases hb), List.forall_mem_nil _⟩
          | some signal =>
            exact keeps_follow hd name fuel signal path hp (Run.Closure.sent_of_replay (hsignal signal rfl))
        refine pursued.bind fun found hfound => ?_
        refine (ih _ (List.forall_mem_append.2 ⟨hfound.2, hrest⟩)).bind fun others hothers => .pure ?_
        exact List.forall_mem_append.2 ⟨fun b hb => hfound.1 b (Option.mem_toList.1 hb), hothers⟩
  exact exhausted fuel _ (List.forall_mem_singleton.2 hs)

end Routine

/-! ### Primitives -/

/-- A computation that looks into the state, if it is one, and goes on with another. -/
theorem keeps_of_state (h : ∀ st : State V, st.store.Named N → ∀ σ,
    Within σ (fun bs => ∀ b ∈ bs, b.state.Sound N) (fun _ => True) (m.body (.state st))) :
    m.Keeps (Subject.Sound N) := by
  rintro s ⟨st, rfl, hst⟩ σ
  exact h st hst σ

theorem keeps_compress (unifier : Run V (Unifier V)) : (compress unifier).Keeps (Subject.Sound N) := by
  refine keeps_of_state fun st hst σ => (within_answers (Heap.fuse unifier st.heap)).bind fun _ _ => ?_
  exact .pure (List.forall_mem_singleton.2 ⟨_, rfl, hst⟩)

/-- **What is built keeps states sound.** -/
theorem Built.keeps {H : ∀ {α : Type}, Run V α → Prop} {m : Comp V α} (h : Built H N m) :
    m.Keeps (Subject.Sound N) := by
  have still : ∀ {σ : Scope V} {α : Type} {s : Subject V} {a : α}, s.Sound N →
      Within σ (fun bs => ∀ b ∈ bs, b.state.Sound N) (fun _ => True)
        (Pure.pure [(⟨s, a⟩ : Branch V α)] : Run V _) := fun hs => .pure (List.forall_mem_singleton.2 hs)
  induction h with
  | own _ _ hs => exact fun s h σ => (within_answers _).imp (hs s h) fun _ _ => trivial
  | pure a => exact fun _ hs _ => still hs
  | zero => exact fun _ hs _ => still hs
  | stop e => exact fun _ _ _ => .stop e
  | choose => exact fun _ hs _ => .pure (List.forall_mem_cons.2 ⟨hs, List.forall_mem_singleton.2 hs⟩)
  | readVar name =>
    refine keeps_of_state fun st hst σ => (within_answers (Run.requireKey _)).bind fun _ _ => ?_
    cases st.store.find? name with
    | some v => exact still ⟨st, rfl, hst⟩
    | none => exact .fail _
  | storeVar hn value =>
    exact keeps_of_state fun st hst σ => (within_answers (Run.requireKey _)).bind fun _ _ =>
      still ⟨_, rfl, hst.bind hn value⟩
  | getStore => exact keeps_of_state fun st hst σ => still ⟨st, rfl, hst⟩
  | @putStore store _ ht =>
    exact keeps_of_state fun st hst σ => (within_answers store).bind fun t hanswer =>
      still ⟨_, rfl, ht t hanswer⟩
  | getHeap => exact keeps_of_state fun st hst σ => still ⟨st, rfl, hst⟩
  | putHeap heap => exact keeps_of_state fun st hst σ => still ⟨_, rfl, hst⟩
  | addChunk c => exact keeps_of_state fun st hst σ => still ⟨_, rfl, hst⟩
  | writeHeap l v =>
    exact keeps_of_state fun st hst σ => (within_answers (Run.claims _)).bind fun chunks _ =>
      still ⟨_, rfl, hst⟩
  | compress _ _ => exact keeps_compress _
  | readHeap _ _ l attempt => exact keeps_heapReadWithin (keeps_compress _) l _ attempt
  | probe _ _ _ _ => exact fun _ hs _ => (within_answers _).bind fun _ _ => still hs
  | bind _ _ _ ih ihd => exact keeps_bind ih ihd
  | map _ _ ih => exact keeps_map ih
  | relabel f _ ih => exact keeps_relabel f ih
  | defer name _ _ ih => exact keeps_defer name ih
  | sequence _ ih => exact keeps_sequence ih
  | traverse items _ _ ih => exact keeps_traverse items ih
  | forEach items _ _ ih => exact keeps_forEach items ih
  | routine name fuel _ _ ih => exact keeps_comp ih name fuel

end Comp

end SymbolicPaths
