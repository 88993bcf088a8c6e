import SymbolicPaths.Proofs.Replays
/-!
# Programs side by side

Two programs are matched if they are built alike from primitives that look into the state only through
variables, and into the heap only through reads.  The functions of the host are matched by what they do
with results that are related: what they give is matched again.  In particular a function that is handed a
whole store may look at it as it likes, as long as it does not distinguish stores that agree.

In a lax likeness a program may moreover compress its heap where the other one does not: before a part or
after it, before or after what a host function gives, in the body of a routine, or in place of a program that
only has a result.  A program that does nothing else is a pad (`Program.Pads`), and the rules for pads come
once for each side.

`Program.Match.twin` says that matched programs end alike from states that are alike.  It asks of a likeness
that the primitives keep it (`Likeness.Lawful`), which is where the heaps come in.
-/

namespace SymbolicPaths

variable {V : Type} [Term V]

/-! ## Matched programs -/

/-- Primitives that look into the heap only by compressing it, each with the relation of its results. -/
inductive Primitive.Match (L : Likeness V) :
    {α β : Type} → (α → β → Prop) → Primitive V α → Primitive V β → Prop
  | pure {α β : Type} {A : α → β → Prop} {a : α} {b : β} (h : A a b) : Primitive.Match L A (.pure a) (.pure b)
  | zero : Primitive.Match L Eq .zero .zero
  | choose : Primitive.Match L Eq .choose .choose
  | readVar {name : V} (hn : L.carrier.name name) :
      Primitive.Match L (fun v w => v = w ∧ L.carrier.held v) (.readVar name) (.readVar name)
  | storeVar {name value : V} (hn : L.carrier.name name) (hv : L.carrier.held value) :
      Primitive.Match L Eq (.storeVar name value) (.storeVar name value)
  | getStore : Primitive.Match L L.carrier.Agree .getStore .getStore
  | putStore {s t : Except (Fault V) (Store V)} (h : Answered L.carrier.Agree s t) :
      Primitive.Match L Eq (.putStore s) (.putStore t)
  | putHeap {g k : List (Chunk V)} (h : L.heap g k) :
      Primitive.Match L Eq (.putHeap (g.map .chunk)) (.putHeap (k.map .chunk))
  | addChunk {c : Chunk V} (hc : L.carrier.Claim c) :
      Primitive.Match L Eq (.addChunk (.chunk c)) (.addChunk (.chunk c))
  | writeHeap {l v : V} (hl : L.carrier.location l) (hv : L.carrier.value v) :
      Primitive.Match L Eq (.writeHeap l v) (.writeHeap l v)
  | compress {u : Unifying V} (hu : L.unifier u) : Primitive.Match L Eq (.compress u) (.compress u)

/-- A program that compresses the heap, any number of times, and then has a result. -/
inductive Program.Pads (L : Likeness V) : {α : Type} → Program V α → α → Prop
  | compress {u : Unifying V} (hu : L.unifier u) : Pads L (.primitive (.compress u)) ()
  | pure {α : Type} (a : α) : Pads L (.primitive (.pure a)) a
  | bind {α β : Type} {q : Program V α} {a : α} {f : α → Builder V β} {q' : Program V β} {b : β}
      (h : Pads L q a) (hf : f a = .build q') (h' : Pads L q' b) : Pads L (.bind q f) b
  | defer {α : Type} (name : String) {q : Program V α} {a : α} (h : Pads L q a) :
      Pads L (.defer name (.build q)) a

mutual

/-- Programs that are built alike, with results related by `A`. -/
inductive Program.Match (L : Likeness V) : {α β : Type} → (α → β → Prop) → Program V α → Program V β → Prop
  | primitive {α β : Type} {A B : α → β → Prop} {p : Primitive V α} {p' : Primitive V β}
      (h : p.Match L A p') (hAB : ∀ a b, A a b → B a b) : Program.Match L B (.primitive p) (.primitive p')
  | readHeap {A : V → V → Prop} {u : Unifying V} {l : V} (hu : L.unifier u) (hl : L.carrier.location l)
      (hA : ∀ v, L.carrier.value v → A v v) :
      Program.Match L A (.readHeap u l (.number 0)) (.readHeap u l (.number 0))
  | bind {α β γ δ : Type} {A : α → β → Prop} {B : γ → δ → Prop} {p : Program V α} {p' : Program V β}
      {f : α → Builder V γ} {f' : β → Builder V δ} (h : Program.Match L A p p')
      (hf : ∀ a b, A a b → Builder.Match L B (f a) (f' b)) : Program.Match L B (.bind p f) (.bind p' f')
  | defer {α β : Type} {A : α → β → Prop} (name name' : String) {b : Builder V α} {b' : Builder V β}
      (h : Builder.Match L A b b') : Program.Match L A (.defer name b) (.defer name' b')
  | forEach {ι κ α β : Type} {I : ι → κ → Prop} {A : α → β → Prop} {B : Unit → Unit → Prop}
      {items : List ι} {items' : List κ} {f : ι → Builder V α} {f' : κ → Builder V β}
      (hitems : List.Forall₂ I items items') (hf : ∀ i j, I i j → Builder.Match L A (f i) (f' j))
      (hB : B () ()) : Program.Match L B (.forEach items f) (.forEach items' f')
  | routine {α β : Type} {B : α → β → Prop} (name name' : String) {whenOver : Option V → α}
      {whenOver' : Option V → β} (hover : ∀ details, B (whenOver details) (whenOver' details))
      {f : List V → Turn V α} {f' : List V → Turn V β} (T : List V → List V → Prop) (start : T [] [])
      (hf : ∀ t t', T t t' → Turn.Match L B T f f' t t') :
      Program.Match L B (.routine name whenOver f) (.routine name' whenOver' f')
  | pads {α β : Type} {A : α → β → Prop} (hL : L.lax) {q : Program V α} {q' : Program V β} {a : α} {b : β}
      (h : q.Pads L a) (h' : q'.Pads L b) (hab : A a b) : Program.Match L A q q'
  | padBeforeLeft {α γ δ : Type} {B : γ → δ → Prop} (hL : L.lax) {q : Program V α} {a : α}
      {f : α → Builder V γ} {p : Program V γ} {p' : Program V δ} (hq : q.Pads L a) (hf : f a = .build p)
      (h : Program.Match L B p p') : Program.Match L B (.bind q f) p'
  | padBeforeRight {β γ δ : Type} {B : γ → δ → Prop} (hL : L.lax) {q : Program V β} {b : β}
      {f : β → Builder V δ} {p : Program V γ} {p' : Program V δ} (hq : q.Pads L b) (hf : f b = .build p')
      (h : Program.Match L B p p') : Program.Match L B p (.bind q f)
  | padAfterLeft {α β γ : Type} {A : α → β → Prop} {B : γ → β → Prop} (hL : L.lax) {p : Program V α}
      {p' : Program V β} {f : α → Builder V γ} (h : Program.Match L A p p')
      (hf : ∀ a b, A a b → ∃ q c, f a = .build q ∧ q.Pads L c ∧ B c b) : Program.Match L B (.bind p f) p'
  | padAfterRight {α β δ : Type} {A : α → β → Prop} {B : α → δ → Prop} (hL : L.lax) {p : Program V α}
      {p' : Program V β} {f : β → Builder V δ} (h : Program.Match L A p p')
      (hf : ∀ a b, A a b → ∃ q c, f b = .build q ∧ q.Pads L c ∧ B a c) : Program.Match L B p (.bind p' f)

/-- Host functions that give matched programs or end in the same fault, after finitely many pads. -/
inductive Builder.Match (L : Likeness V) : {α β : Type} → (α → β → Prop) → Builder V α → Builder V β → Prop
  | build {α β : Type} {A : α → β → Prop} {p : Program V α} {p' : Program V β} (h : Program.Match L A p p') :
      Builder.Match L A (.build p) (.build p')
  | raise {α β : Type} {A : α → β → Prop} (e : Fault V) : Builder.Match L A (.raise e) (.raise e)
  | padLeft {α β γ : Type} {A : β → γ → Prop} (hL : L.lax) {q : Program V α} {a : α} {f : α → Builder V β}
      {b' : Builder V γ} (hq : q.Pads L a) (h : Builder.Match L A (f a) b') :
      Builder.Match L A (.build (.bind q f)) b'
  | padRight {α β γ : Type} {A : β → γ → Prop} (hL : L.lax) {q : Program V α} {a : α} {f : α → Builder V γ}
      {b : Builder V β} (hq : q.Pads L a) (h : Builder.Match L A b (f a)) :
      Builder.Match L A b (.build (.bind q f))

/-- Bodies of routines that do alike at two points, after finitely many pads; `T` relates the points that
are reached next. -/
inductive Turn.Match (L : Likeness V) : {α β : Type} → (α → β → Prop) → (List V → List V → Prop) →
    (List V → Turn V α) → (List V → Turn V β) → List V → List V → Prop
  | yields {α β : Type} {B : α → β → Prop} {T : List V → List V → Prop} {f : List V → Turn V α}
      {f' : List V → Turn V β} {t t' : List V} {A : V → V → Prop} {p p' : Program V V}
      {closing : Except (Fault V) Unit} (ht : f t = .yields p closing) (ht' : f' t' = .yields p' closing)
      (h : Program.Match L A p p')
      (next : ∀ v v', A v v' → T (t ++ [v]) (t' ++ [v'])) : Turn.Match L B T f f' t t'
  | returns {α β : Type} {B : α → β → Prop} {T : List V → List V → Prop} {f : List V → Turn V α}
      {f' : List V → Turn V β} {t t' : List V} {a : α} {b : β} (ht : f t = .returns a)
      (ht' : f' t' = .returns b) (h : B a b) : Turn.Match L B T f f' t t'
  | raises {α β : Type} {B : α → β → Prop} {T : List V → List V → Prop} {f : List V → Turn V α}
      {f' : List V → Turn V β} {t t' : List V} (e : Fault V) (ht : f t = .raises e)
      (ht' : f' t' = .raises e) : Turn.Match L B T f f' t t'
  | padLeft {α β : Type} {B : α → β → Prop} {T : List V → List V → Prop} {f : List V → Turn V α}
      {f' : List V → Turn V β} {t t' : List V} (hL : L.lax) {q : Program V V} {v : V}
      {closing : Except (Fault V) Unit} (ht : f t = .yields q closing) (hq : q.Pads L v)
      (rest : Turn.Match L B T f f' (t ++ [v]) t') : Turn.Match L B T f f' t t'
  | padRight {α β : Type} {B : α → β → Prop} {T : List V → List V → Prop} {f : List V → Turn V α}
      {f' : List V → Turn V β} {t t' : List V} (hL : L.lax) {q : Program V V} {v : V}
      {closing : Except (Fault V) Unit} (ht' : f' t' = .yields q closing) (hq : q.Pads L v)
      (rest : Turn.Match L B T f f' t (t' ++ [v])) : Turn.Match L B T f f' t t'

end

/-! ## Likenesses that primitives keep -/

section Lawful

variable (host : Host V)

/-- What primitives do to heaps that are alike keeps them alike. -/
structure Likeness.Lawful (L : Likeness V) : Prop where
  left : ∀ {g k}, L.heap g k → L.carrier.Heap g
  right : ∀ {g k}, L.heap g k → L.carrier.Heap k
  cons : ∀ {g k c}, L.heap g k → L.carrier.Claim c → L.heap (c :: g) (c :: k)
  overwrite : ∀ {g k l v}, L.heap g k → L.carrier.location l → L.carrier.value v →
    L.heap (Heap.overwrite l v g) (Heap.overwrite l v k)
  compress : ∀ {u s t g k}, L.unifier u → L.carrier.Agree s t → L.heap g k →
    Run.Twin L (L.BranchLists Eq) ((Comp.compress (u.run host)).body (.state (.ofChunks s g)))
      fun _ => (Comp.compress (u.run host)).body (.state (.ofChunks t k))
  readHeap : ∀ {u l s t g k}, L.unifier u → L.carrier.location l → L.carrier.Agree s t → L.heap g k →
    Run.Twin L (L.BranchLists fun v w => v = w ∧ L.carrier.value v)
      ((Comp.heapRead (u.run host) l (.number 0)).body (.state (.ofChunks s g)))
      fun _ => (Comp.heapRead (u.run host) l (.number 0)).body (.state (.ofChunks t k))
  /-- In a lax likeness a compression comes to a heap that is like all that the heap before was like. -/
  pad : L.lax → ∀ {u g}, L.unifier u → L.carrier.Heap g → ∃ h, L.carrier.Heap h ∧
    (∀ k, L.heap g k → L.heap h k) ∧ (∀ k, L.heap k g → L.heap k h) ∧
    ∀ s, ((Comp.compress (u.run host)).body (.state (.ofChunks s g))).Comes L.policy
      (.ok [⟨.state (.ofChunks s h), ()⟩])

end Lawful

section Twins

variable {L : Likeness V} {host : Host V}

open Run (Twin)

/-! ## Primitives -/

/-- A primitive that asks for a member of the state gets it from both states. -/
theorem Run.Twin.stateWith {α β : Type} {A : α → β → Prop} {f : State V → Run V α} {f' : State V → Run V β}
    (member : String) {s t : State V} (h : Twin L A (f s) fun _ => f' t) :
    Twin L A (Run.stateWith member (.state s) >>= f) fun _ => Run.stateWith member (.state t) >>= f' := by
  simp only [Run.stateWith_state, pure_bind]
  exact h

/-- One branch from each run. -/
theorem Run.Twin.branch {α β : Type} {A : α → β → Prop} {s t : Subject V} {a : α} {b : β}
    (hs : L.Subjects s t) (hab : A a b) :
    Twin L (L.BranchLists A) (pure [⟨s, a⟩]) fun _ => pure [⟨t, b⟩] := .pure (.cons ⟨hs, hab⟩ .nil)

theorem Run.Twin.fail {α β : Type} {A : α → β → Prop} (f : Failure V) :
    Twin L A (Run.fail f : Run V α) fun _ => (Run.fail f : Run V β) := by
  have family := (Run.Telling.family L.policy).household
  have told : Twin L A (Run.written f.message? >>= fun _ => Run.stop (.failure f)) fun _ =>
      (Run.written f.message? >>= fun _ => Run.stop (.failure f)) :=
    (Twin.same (family.written _)).bind fun _ _ _ => .stop _
  cases f with
  | abandoned details => exact .stop _
  | unbound name => exact told
  | missing l => exact told

theorem Run.Twin.complain {α β : Type} {A : α → β → Prop} (d : Defect V) :
    Twin L A (Run.complain d : Run V α) fun _ => (Run.complain d : Run V β) :=
  (Twin.same ((Run.Telling.family L.policy).household.written d.message?)).bind fun _ _ _ => .stop _

theorem readVar_twin {name : V} (hn : L.carrier.name name) {s t : Store V} {g k : List (Chunk V)}
    (store : L.carrier.Agree s t) (heap : L.heap g k) :
    Twin L (L.BranchLists fun v w => v = w ∧ L.carrier.held v)
      ((Comp.readVar name).body (.state (.ofChunks s g)))
      fun _ => (Comp.readVar name).body (.state (.ofChunks t k)) := by
  have key := (Run.Telling.family L.policy).household.requireKey (Term.unhashable? name)
  refine .stateWith "locals" ((Twin.same key).bind fun _ _ _ => ?_)
  simp only [State.ofChunks, ← store.find?_eq hn]
  cases hv : s.find? name with
  | none => exact .fail _
  | some v => exact .branch (.state store heap) ⟨rfl, store.held hn hv⟩

/-- **Matched primitives are twins.** -/
theorem Primitive.Match.twin (lawful : L.Lawful host) {α β : Type} {A : α → β → Prop} {p : Primitive V α}
    {p' : Primitive V β} (h : p.Match L A p') {s s' : Subject V} (hs : L.Subjects s s') :
    Twin L (L.BranchLists A) ((p.comp host).body s) fun n => (p'.comp (host.within n)).body s' := by
  obtain ⟨store, heap⟩ := hs
  cases h with
  | pure h => exact .branch (.state store heap) h
  | zero => exact .branch (.state store heap) rfl
  | choose => exact .pure (.cons ⟨.state store heap, rfl⟩ (.cons ⟨.state store heap, rfl⟩ .nil))
  | readVar hn => exact readVar_twin hn store heap
  | @storeVar name value hn hv =>
    have key := (Run.Telling.family L.policy).household.requireKey (Term.unhashable? name)
    exact .stateWith _ ((Twin.same key).bind fun _ _ _ => .branch (.state (store.bind hn hv) heap) rfl)
  | getStore => exact .stateWith _ (.branch (.state store heap) store)
  | putStore h =>
    refine .stateWith _ (Twin.bind (.of_tells (Run.tells_ofExcept _) (fun _ => Run.tells_ofExcept _) h) ?_)
    exact fun s t hst => .branch (.state hst heap) rfl
  | putHeap h => exact .stateWith _ (.branch (.state store h) rfl)
  | addChunk hc => exact .stateWith _ (.branch (.state store (lawful.cons heap hc)) rfl)
  | writeHeap hl hv =>
    refine .stateWith _ ?_
    simp only [State.ofChunks, Run.claims_map_chunk, pure_bind]
    exact .branch (.state store (lawful.overwrite heap hl hv)) rfl
  | compress hu => simpa only [Primitive.comp, Unifying.run_within] using lawful.compress hu store heap

/-! ## Pads -/

section Pads

section Lax

variable {α β : Type} {A : α → β → Prop} (hL : L.lax)

include hL

/-- A second guard around the first run makes no difference. -/
theorem Run.Twin.apply_left {m : Comp V α} {s : Subject V} {y : Nat → Run V (List (Branch V β))}
    (hm : (m.body s).Contained) (h : Twin L (L.BranchLists A) (m.body s) y) :
    Twin L (L.BranchLists A) (m.apply s) y := by
  have settled : Twin L (L.BranchLists A) (m.body s >>= fun bs => Run.settle m.name (some bs))
      fun n => y n >>= pure :=
    h.bind fun bs bs' hbs => .of_comes hL (r := .ok bs) (s := .ok bs')
      (fun _ _ hs _ => Run.settle_alike m.name (some bs) hs rfl) (fun _ => (Run.tells_pure bs').comes)
      (.ok hbs)
  rw [Comp.apply_eq, Run.guarding_of_contained hm, bind_assoc]
  simpa only [pure_bind, bind_pure] using settled

/-- A second guard around the second run makes no difference. -/
theorem Run.Twin.apply_right {m : Nat → Comp V β} {s : Subject V} {x : Run V (List (Branch V α))}
    (hm : ∀ n, ((m n).body s).Contained) (h : Twin L (L.BranchLists A) x fun n => (m n).body s) :
    Twin L (L.BranchLists A) x fun n => (m n).apply s := by
  have settled : Twin L (L.BranchLists A) (x >>= pure)
      fun n => (m n).body s >>= fun bs => Run.settle (m n).name (some bs) :=
    h.bind fun bs bs' hbs => .of_comes hL (r := .ok bs) (s := .ok bs') (Run.tells_pure bs).comes
      (fun n _ _ hs _ => Run.settle_alike (m n).name (some bs') hs rfl) (.ok hbs)
  simp only [bind_pure] at settled
  refine settled.of_eventually (.of_forall fun n => ?_)
  rw [Comp.apply_eq, Run.guarding_of_contained (hm n), bind_assoc]
  simp only [pure_bind]

end Lax

variable (lawful : L.Lawful host)

include lawful

/-- A pad leaves a heap that is like all that the heap before was like. -/
theorem Program.Pads.comes {α : Type} {q : Program V α} {a : α} (hq : q.Pads L a) (hL : L.lax)
    {g : List (Chunk V)} (hg : L.carrier.Heap g) : ∃ h, L.carrier.Heap h ∧
      (∀ k, L.heap g k → L.heap h k) ∧ (∀ k, L.heap k g → L.heap k h) ∧
      ∀ n s, ((q.comp (host.within n)).apply (.state (.ofChunks s g))).Comes L.policy
        (.ok [⟨.state (.ofChunks s h), a⟩]) := by
  induction hq generalizing g with
  | compress hu =>
    obtain ⟨h, hh, left, right, comes⟩ := lawful.pad hL hu hg
    refine ⟨h, hh, left, right, fun n s => Run.Comes.apply ?_⟩
    simpa only [Program.comp, Primitive.comp, Unifying.run_within] using comes s
  | pure a => exact ⟨g, hg, fun _ => id, fun _ => id, fun _ s => Run.Comes.apply (Run.tells_pure _).comes⟩
  | bind _ hf _ ih ih' =>
    obtain ⟨h, hh, left, right, comes⟩ := ih hg
    obtain ⟨k, hk, left', right', comes'⟩ := ih' hh
    refine ⟨k, hk, fun j hj => left' j (left j hj), fun j hj => right' j (right j hj), fun n s => ?_⟩
    refine Run.Comes.apply ((comes n s).bindComp ?_)
    rw [hf]
    exact comes' n s
  | defer name _ ih =>
    obtain ⟨h, hh, left, right, comes⟩ := ih hg
    exact ⟨h, hh, left, right, fun n s => Run.Comes.apply (comes n s)⟩

/-- The same said of subjects that are alike, for the first of them. -/
theorem Program.Pads.comes_left {α : Type} {q : Program V α} {a : α} (hq : q.Pads L a) (hL : L.lax)
    {s s' : Subject V} (hs : L.Subjects s s') : ∃ u, L.Subjects u s' ∧
      ∀ n, ((q.comp (host.within n)).apply s).Comes L.policy (.ok [⟨u, a⟩]) := by
  obtain ⟨store, heap⟩ := hs
  obtain ⟨h, -, left, -, comes⟩ := hq.comes lawful hL (lawful.left heap)
  exact ⟨_, .state store (left _ heap), fun n => comes n _⟩

/-- The same said of subjects that are alike, for the second of them. -/
theorem Program.Pads.comes_right {α : Type} {q : Program V α} {a : α} (hq : q.Pads L a) (hL : L.lax)
    {s s' : Subject V} (hs : L.Subjects s s') : ∃ u, L.Subjects s u ∧
      ∀ n, ((q.comp (host.within n)).apply s').Comes L.policy (.ok [⟨u, a⟩]) := by
  obtain ⟨store, heap⟩ := hs
  obtain ⟨h, -, -, right, comes⟩ := hq.comes lawful hL (lawful.right heap)
  exact ⟨_, .state store (right _ heap), fun n => comes n _⟩

section Padded

variable {α β γ δ : Type} {A : α → β → Prop} {s s' : Subject V}

omit lawful in
/-- What a host function is known to give, put off, is that program applied. -/
theorem Builder.defer_body {b : Builder V γ} {p : Program V γ} (hb : b = .build p) (host : Host V)
    (name : String) (u : Subject V) :
    (Comp.defer name (b.run host)).body u = (p.comp host).apply u := by
  rw [hb]
  exact pure_bind ..

omit lawful in
/-- To put the first program off makes no difference. -/
theorem twin_deferLeft {B : γ → δ → Prop} (hL : L.lax) {b : Builder V γ} {p : Program V γ} (hb : b = .build p)
    (name : String) {y : Nat → Run V (List (Branch V δ))}
    (h : Twin L (L.BranchLists B) ((p.comp host).apply s) y) :
    Twin L (L.BranchLists B) ((Comp.defer name (b.run host)).apply s) y := by
  refine .apply_left hL ?_ ?_
  · rw [Builder.defer_body hb]
    exact Comp.contained_apply ..
  · rw [Builder.defer_body hb]
    exact h

omit lawful in
/-- To put the second program off makes no difference. -/
theorem twin_deferRight {B : γ → δ → Prop} (hL : L.lax) {b : Builder V δ} {p : Program V δ}
    (hb : b = .build p) (name : Nat → String) {x : Run V (List (Branch V γ))}
    (h : Twin L (L.BranchLists B) x fun n => (p.comp (host.within n)).apply s) :
    Twin L (L.BranchLists B) x fun n => (Comp.defer (name n) (b.run (host.within n))).apply s := by
  refine .apply_right hL (m := fun n => Comp.defer (name n) (b.run (host.within n))) (fun n => ?_) ?_
  · rw [Builder.defer_body hb]
    exact Comp.contained_apply ..
  · simp only [Builder.defer_body hb]
    exact h

/-- A pad in front of what the first run goes on with. -/
theorem twin_padBeforeLeft {B : γ → δ → Prop} (hL : L.lax) {q : Program V α} {a : α} {f : α → Builder V γ}
    {y : Nat → Run V (List (Branch V δ))} (hq : q.Pads L a) (hs : L.Subjects s s')
    (h : ∀ {u}, L.Subjects u s' → Twin L (L.BranchLists B)
      ((Comp.defer ((q.comp host).name ++ " >>=") ((f a).run host)).apply u) y) :
    Twin L (L.BranchLists B) (((Program.bind q f).comp host).apply s) y := by
  obtain ⟨u, hu, comes⟩ := hq.comes_left lawful hL hs
  refine .apply_left hL (Comp.contained_bind_body ..) (.skip_left hL (comes host.fuel) ?_)
  rw [Run.flatMap_cons_eq_joined, Run.flatMap_nil, Run.joined_nil]
  exact h hu

/-- A pad in front of what the second run goes on with. -/
theorem twin_padBeforeRight {B : γ → δ → Prop} (hL : L.lax) {q : Program V β} {b : β} {f : β → Builder V δ}
    {x : Run V (List (Branch V γ))} (hq : q.Pads L b) (hs : L.Subjects s s')
    (h : ∀ {u}, L.Subjects s u → Twin L (L.BranchLists B) x fun n =>
      (Comp.defer ((q.comp (host.within n)).name ++ " >>=") ((f b).run (host.within n))).apply u) :
    Twin L (L.BranchLists B) x fun n => ((Program.bind q f).comp (host.within n)).apply s' := by
  obtain ⟨u, hu, comes⟩ := hq.comes_right lawful hL hs
  refine .apply_right hL (fun _ => Comp.contained_bind_body ..) (.skip_right hL comes ?_)
  simp only [Run.flatMap_cons_eq_joined, Run.flatMap_nil, Run.joined_nil]
  exact h hu

omit lawful in
/-- What pads in place of a host function make of branches, one by one. -/
theorem exists_comes_pads {R : Branch V α → Branch V β → Prop} {S : Branch V γ → Branch V β → Prop}
    {f : α → Builder V γ} (hf : ∀ b b', R b b' → ∃ q u c, f b.value = .build q ∧ S ⟨u, c⟩ b' ∧
      ∀ n, ((q.comp (host.within n)).apply b.state).Comes L.policy (.ok [⟨u, c⟩]))
    {bs : List (Branch V α)} {bs' : List (Branch V β)} (hbs : List.Forall₂ R bs bs') :
    ∃ cs, List.Forall₂ S cs bs' ∧ ∀ n (m : Comp V α),
      (Run.flatMap bs (m.continuation fun a => (f a).run (host.within n))).Comes L.policy (.ok cs) := by
  induction hbs with
  | nil => exact ⟨[], .nil, fun _ _ => (Run.tells_pure []).comes⟩
  | @cons b b' _ _ hb _ ih =>
    obtain ⟨cs, hcs, rest⟩ := ih
    obtain ⟨q, u, c, hq, hc, comes⟩ := hf b b' hb
    refine ⟨⟨u, c⟩ :: cs, .cons hc hcs, fun n m => ?_⟩
    have first : (m.continuation (fun a => (f a).run (host.within n)) b).Comes L.policy (.ok [⟨u, c⟩]) := by
      refine Run.Comes.apply (m := Comp.defer _ ((f b.value).run (host.within n))) ?_
      rw [Builder.defer_body hq]
      exact comes n
    exact first.bind ((rest n m).bind (Run.tells_pure _).comes)

/-- Pads behind the first run. -/
theorem twin_padAfterLeft {B : γ → β → Prop} (hL : L.lax) {p : Program V α} {f : α → Builder V γ}
    {y : Nat → Run V (List (Branch V β))}
    (hf : ∀ a b, A a b → ∃ q c, f a = .build q ∧ q.Pads L c ∧ B c b)
    (h : Twin L (L.BranchLists A) ((p.comp host).apply s) y) :
    Twin L (L.BranchLists B) (((Program.bind p f).comp host).apply s) y := by
  have pads : ∀ b b', L.Branches A b b' → ∃ q u c, f b.value = .build q ∧ L.Branches B ⟨u, c⟩ b' ∧
      ∀ n, ((q.comp (host.within n)).apply b.state).Comes L.policy (.ok [⟨u, c⟩]) := by
    intro b b' hb
    obtain ⟨q, c, hq, pads, hc⟩ := hf b.value b'.value hb.value
    obtain ⟨u, hu, comes⟩ := pads.comes_left lawful hL hb.state
    exact ⟨q, u, c, hq, ⟨hu, hc⟩, comes⟩
  refine .apply_left hL (Comp.contained_bind_body ..) ?_
  have padded : Twin L (L.BranchLists B) (((Program.bind p f).comp host).body s) fun n => y n >>= pure :=
    h.bind fun bs bs' hbs => by
      obtain ⟨cs, hcs, comes⟩ := exists_comes_pads pads hbs
      exact .of_comes hL (comes host.fuel (p.comp host)) (fun _ => (Run.tells_pure bs').comes) (.ok hcs)
  simpa only [bind_pure] using padded

/-- Pads behind the second run. -/
theorem twin_padAfterRight {B : α → δ → Prop} (hL : L.lax) {p' : Program V β} {f : β → Builder V δ}
    {x : Run V (List (Branch V α))}
    (hf : ∀ a b, A a b → ∃ q c, f b = .build q ∧ q.Pads L c ∧ B a c)
    (h : Twin L (L.BranchLists A) x fun n => (p'.comp (host.within n)).apply s') :
    Twin L (L.BranchLists B) x fun n => ((Program.bind p' f).comp (host.within n)).apply s' := by
  have pads : ∀ b' b, L.Branches A b b' → ∃ q u c, f b'.value = .build q ∧ L.Branches B b ⟨u, c⟩ ∧
      ∀ n, ((q.comp (host.within n)).apply b'.state).Comes L.policy (.ok [⟨u, c⟩]) := by
    intro b' b hb
    obtain ⟨q, c, hq, pads, hc⟩ := hf b.value b'.value hb.value
    obtain ⟨u, hu, comes⟩ := pads.comes_right lawful hL hb.state
    exact ⟨q, u, c, hq, ⟨hu, hc⟩, comes⟩
  refine .apply_right hL (fun _ => Comp.contained_bind_body ..) ?_
  have padded : Twin L (L.BranchLists B) (x >>= pure)
      fun n => ((Program.bind p' f).comp (host.within n)).body s' :=
    h.bind fun bs bs' hbs => by
      obtain ⟨cs, hcs, comes⟩ := exists_comes_pads (S := fun c b => L.Branches B b c) pads hbs.flip
      exact .of_comes hL (Run.tells_pure bs).comes (fun n => comes n (p'.comp (host.within n))) (.ok hcs.flip)
  simpa only [bind_pure] using padded

end Padded

end Pads

/-! ## Matched programs end alike -/

mutual

/-- **Matched programs are twins.** -/
theorem Program.Match.twin (lawful : L.Lawful host) {α β : Type} {A : α → β → Prop} {p : Program V α}
    {p' : Program V β} :
    Program.Match L A p p' → ∀ {s s'}, L.Subjects s s' →
      Twin L (L.BranchLists A) ((p.comp host).apply s) fun n => (p'.comp (host.within n)).apply s'
  | .primitive h hAB, s, s', hs => .apply hs ((h.twin lawful hs).imp (Likeness.branchLists_imp hAB))
  | .readHeap (u := u) hu hl hA, s, s', hs => by
    obtain ⟨store, heap⟩ := hs
    refine .apply (.state store heap) ?_
    simp only [Program.comp, Unifying.run_within]
    refine (lawful.readHeap hu hl store heap).imp (Likeness.branchLists_imp ?_)
    rintro v _ ⟨rfl, hv⟩
    exact hA v hv
  | .bind h hf, s, s', hs =>
    .apply hs (.bindComp (h.twin lawful hs) fun a b hab _ _ ht => (hf a b hab).twin lawful _ _ ht)
  | .defer name name' h, s, s', hs => h.twin lawful name (fun _ => name') hs
  | .forEach hitems hf hB, s, s', hs =>
    .apply hs ((Twin.forEach hs hitems fun i j hij _ _ ht => (hf i j hij).twin lawful _ (fun _ => _) ht).imp
      (Likeness.branchLists_imp fun _ _ _ => hB))
  | .routine name name' hover T start hf, s, s', hs =>
    have abreast : Routine.Abreast _ (Routine.ofSignals _ _ _) fun _ => Routine.ofSignals _ _ _ :=
      ⟨Routine.functional_ofSignals .., fun _ => Routine.functional_ofSignals ..,
        fun details => ⟨_, hover details, fun _ => rfl⟩⟩
    .apply hs (Routine.comp_twin abreast (fun t t' ht => (hf t t' ht).strides lawful _ _) start hs)
  | .pads hL h h' hab, s, s', hs => by
    obtain ⟨u, hu, comes⟩ := h.comes_left lawful hL hs
    obtain ⟨u', hu', comes'⟩ := h'.comes_right lawful hL hu
    exact .of_comes hL (comes host.fuel) comes' (.ok (.cons ⟨hu', hab⟩ .nil))
  | .padBeforeLeft hL hq hf h, s, s', hs =>
    twin_padBeforeLeft lawful hL hq hs fun hu => twin_deferLeft hL hf _ (h.twin lawful hu)
  | .padBeforeRight hL hq hf h, s, s', hs =>
    twin_padBeforeRight lawful hL hq hs fun hu => twin_deferRight hL hf _ (h.twin lawful hu)
  | .padAfterLeft hL h hf, s, s', hs => twin_padAfterLeft lawful hL hf (h.twin lawful hs)
  | .padAfterRight hL h hf, s, s', hs => twin_padAfterRight lawful hL hf (h.twin lawful hs)

/-- What matched host functions give is alike under the guards that it is put off with. -/
theorem Builder.Match.twin (lawful : L.Lawful host) {α β : Type} {A : α → β → Prop} {b : Builder V α}
    {b' : Builder V β} :
    Builder.Match L A b b' → ∀ (name : String) (name' : Nat → String) {s s'}, L.Subjects s s' →
      Twin L (L.BranchLists A) ((Comp.defer name (b.run host)).apply s)
        fun n => (Comp.defer (name' n) (b'.run (host.within n))).apply s'
  | .build h, name, name', s, s', hs => by
    refine .apply hs ?_
    simp only [Builder.defer_body rfl]
    exact h.twin lawful hs
  | .raise e, name, name', s, s', hs => by
    refine .apply hs ?_
    exact .stop e
  | .padLeft hL hq h, name, name', s, s', hs =>
    twin_deferLeft hL rfl name (twin_padBeforeLeft lawful hL hq hs fun hu => h.twin lawful _ name' hu)
  | .padRight hL hq h, name, name', s, s', hs =>
    twin_deferRight hL rfl name' (twin_padBeforeRight lawful hL hq hs fun hu => h.twin lawful name _ hu)

/-- Matched bodies of routines do alike. -/
theorem Turn.Match.strides (lawful : L.Lawful host) {α β : Type} {B : α → β → Prop}
    {T : List V → List V → Prop} {f : List V → Turn V α} {f' : List V → Turn V β} {t t' : List V}
    (whenOver : Option V → α) (whenOver' : Option V → β) :
    Turn.Match L B T f f' t t' → Routine.Strides L B T
      (Routine.ofSignals whenOver (fun t => (f t).release) fun t => (f t).signal host t)
      (fun n => Routine.ofSignals whenOver' (fun t' => (f' t').release)
        fun t' => (f' t').signal (host.within n) t') t t'
  | .yields ht ht' h next =>
    have closed : Twin L (fun _ _ => True) (f t).release fun _ => (f' t').release := by
      rw [ht, ht']
      exact .of_tells (Run.tells_ofExcept _) (fun _ => Run.tells_ofExcept _) (.refl (fun _ => trivial) _)
    .yields (congrArg (·.signal host t) ht) (fun n => congrArg (·.signal (host.within n) t') ht')
      (fun hs => h.twin lawful hs) closed next
  | .returns ht ht' h =>
    .returns (congrArg (·.signal host t) ht) (fun n => congrArg (·.signal (host.within n) t') ht') h
  | .raises e ht ht' =>
    .raises e (congrArg (·.signal host t) ht) (fun n => congrArg (·.signal (host.within n) t') ht')
  | .padLeft hL ht hq rest =>
    .extraLeft hL (congrArg (·.signal host t) ht) (fun hs => by
      obtain ⟨u, hu, comes⟩ := hq.comes_left lawful hL hs
      exact ⟨u, hu, comes host.fuel⟩) (rest.strides lawful _ _)
  | .padRight hL ht' hq rest =>
    .extraRight hL (fun n => congrArg (·.signal (host.within n) t') ht')
      (fun hs => hq.comes_right lawful hL hs) (rest.strides lawful _ _)

end

end Twins

/-! ## Examples -/

namespace Program

open Script

/-- Where the examples look. -/
def cell : Datum Empty := .location (.text "r") (.text "f")

/-- What a cell holds is kept in a variable and read from there. -/
def keepAndRead : Program (Datum Empty) (Datum Empty) :=
  .bind (.readHeap .inForce cell (.number 0)) fun v =>
    .build (.bind (.primitive (.storeVar (.text "x") v)) fun _ => .build (.primitive (.readVar (.text "x"))))

/-- A program that does not look at whole stores is matched with itself. -/
theorem match_keepAndRead {L : Likeness (Datum Empty)} (hK : L.carrier = Datum.plain)
    (hu : L.unifier .inForce) : keepAndRead.Match L Eq keepAndRead := by
  have named : L.carrier.name (.text "x") := hK ▸ ⟨"x", rfl⟩
  have located : L.carrier.location cell := hK ▸ ⟨"r", "f", rfl⟩
  refine .bind (A := fun v w => v = w ∧ L.carrier.value v) (.readHeap hu located fun v hv => ⟨rfl, hv⟩) ?_
  rintro v _ ⟨rfl, hv⟩
  have held := L.carrier.held_of_value hv
  refine .build (.bind (.primitive (.storeVar named held) fun _ _ => id) fun _ _ _ => ?_)
  exact .build (.primitive (.readVar named) fun _ _ h => h.1)

/-- The variable that was bound first: stores that agree are distinguished. -/
def firstBound : Program (Datum Empty) (Option (Datum Empty)) :=
  .bind (.primitive .getStore) fun s => .build (.primitive (.pure (s.entries.head?.map Prod.fst)))

end Program

end SymbolicPaths
