import Mathlib.Algebra.GroupWithZero.Nat
import Mathlib.Data.List.Lex
import SymbolicPaths.Proofs.Isolation
import SymbolicPaths.Proofs.Tours
/-!
# What the walk of a body writes down

An engine's loop is a walk over the body, and the walk writes down where it comes.  Each property here is shown
where a path ends and of a node from what lies below it, and then holds of the whole walk by
`Body.toured_induction`.

* `Body.Balanced`: how often the body is made ready, against how many paths end.
* `Body.Ordered`: nodes are reached in the order of branches, each before what lies below it.
* `Body.Complete`: no branch of an application is left out.
* `Body.hears_tour`: what is heard of the walk by an observer who hears when the body is made ready, and of each
  computation one thing.

`Body.routineAfter_explores_once` says all of this of the engine.
-/

namespace SymbolicPaths

variable {V α β : Type}

namespace Body

/-! ## How often the body is made ready -/

/-- The body is made ready for each branch besides the first of an application, and this is once less than
paths end: for the path that goes on from here the body is there already. -/
def Balanced (stations : List (Station V α)) : Prop :=
  stations.countP Station.isPrepared = (stations.map Station.spare).sum ∧
    stations.countP Station.isEnd = stations.countP Station.isPrepared + 1

/-- Below a place each branch adds the end of a path, and the body is made ready for all but a first one. -/
theorem Below.counts {place : Place V} {items : List (Branch V V × Nat)} {below : List (Station V α)}
    (h : Below (fun _ => Balanced) place items below) :
    below.countP Station.isPrepared = (below.map Station.spare).sum + items.countP (fun br => br.2 != 0) ∧
      below.countP Station.isEnd = (below.map Station.spare).sum + items.length := by
  induction h with
  | nil => exact ⟨rfl, rfl⟩
  | first here others ih =>
    obtain ⟨prepared, ends⟩ := here
    obtain ⟨prepared', ends'⟩ := ih
    simp only [List.countP_append, List.map_append, List.sum_append, List.countP_cons, List.length_cons,
      bne_self_eq_false, Bool.false_eq_true, if_false]
    omega
  | later here others ih =>
    obtain ⟨prepared, ends⟩ := here
    obtain ⟨prepared', ends'⟩ := ih
    have after : ∀ i : Nat, (i + 1 != 0) = true := fun _ => rfl
    simp only [List.countP_append, List.map_append, List.sum_append, List.countP_cons, List.map_cons,
      List.sum_cons, List.length_cons, Station.isPrepared, Station.isEnd, Station.spare, after,
      Bool.false_eq_true, if_true, if_false]
    omega

/-- A path has at most one result. -/
theorem length_results_le (stations : List (Station V α)) :
    (Station.results stations).length ≤ stations.countP Station.isEnd := by
  induction stations with
  | nil => exact Nat.le_refl 0
  | cons station rest ih =>
    cases station with
    | prepared place =>
      rw [List.countP_cons_of_neg Bool.false_ne_true]
      exact ih
    | applied place s n =>
      rw [List.countP_cons]
      exact ih.trans (Nat.le_add_right _ _)
    | cut place s r =>
      rw [List.countP_cons_of_pos rfl]
      exact Nat.succ_le_succ ih
    | ended place r =>
      rw [List.countP_cons_of_pos rfl]
      cases r with
      | none => exact ih.trans (Nat.le_succ _)
      | some found => exact Nat.succ_le_succ ih

/-- All branches but the first one are numbered from one. -/
theorem countP_zipIdx_snd_ne_zero (branches : List (Branch V V)) :
    branches.zipIdx.countP (fun br => br.2 != 0) = branches.length - 1 := by
  have all : ∀ (bs : List (Branch V V)) (i : Nat),
      (bs.zipIdx (i + 1)).countP (fun br => br.2 != 0) = bs.length := by
    intro bs
    induction bs with
    | nil => exact fun _ => rfl
    | cons br rest ih =>
      intro i
      rw [List.zipIdx_cons, List.countP_cons_of_pos rfl, ih, List.length_cons]
  cases branches with
  | nil => rfl
  | cons br rest =>
    rw [List.zipIdx_cons, List.countP_cons_of_neg (by simp), all, List.length_cons, Nat.add_sub_cancel]

theorem balanced_ended (place : Place V) (r : Option (Branch V α)) : Balanced [.ended place r] := ⟨rfl, rfl⟩

theorem balanced_cut (place : Place V) (s : Subject V) (r : Branch V α) : Balanced [.cut place s r] := ⟨rfl, rfl⟩

theorem balanced_applied {place : Place V} {s : Subject V} {branches : List (Branch V V)}
    {below : List (Station V α)} (h : Below (fun _ => Balanced) place branches.zipIdx below) :
    Balanced (.applied place s branches.length :: below) := by
  obtain ⟨prepared, ends⟩ := h.counts
  rw [countP_zipIdx_snd_ne_zero] at prepared
  rw [List.length_zipIdx] at ends
  simp only [Balanced, List.countP_cons, List.map_cons, List.sum_cons, Station.isPrepared, Station.isEnd,
    Station.spare, Bool.false_eq_true, if_false, beq_iff_eq]
  refine ⟨by omega, ?_⟩
  -- without branches the path ends here
  split <;> omega

/-! ## In which order nodes are reached -/

section Order

variable {R : Nat × V → Nat × V → Prop}

/-- All nodes are at a place or below it, and each comes before the others in the order of branches. -/
def Ordered (R : Nat × V → Nat × V → Prop) (place : Place V) (stations : List (Station V α)) : Prop :=
  (∀ q ∈ Station.nodes stations, place <+: q) ∧ (Station.nodes stations).Pairwise (List.Lex R)

/-- The step that takes a branch. -/
def step (br : Branch V V × Nat) : Nat × V := (br.2, br.1.value)

/-- What lies below one branch comes before what lies below a later one. -/
theorem lex_of_children {place p q : Place V} {x y : Nat × V} (hxy : R x y) (hp : place ++ [x] <+: p)
    (hq : place ++ [y] <+: q) : List.Lex R p q := by
  obtain ⟨s, rfl⟩ := hp
  obtain ⟨t, rfl⟩ := hq
  rw [List.append_assoc, List.append_assoc]
  exact List.Lex.append_left R (.rel hxy) place

/-- A node comes before what lies below it. -/
theorem lex_of_child {place q : Place V} {x : Nat × V} (hq : place ++ [x] <+: q) : List.Lex R place q := by
  obtain ⟨t, rfl⟩ := hq
  have proper := List.Lex.append_left R (List.Lex.nil (a := x) (l := t)) place
  rwa [List.append_nil, ← List.singleton_append, ← List.append_assoc] at proper

theorem Below.ordered {place : Place V} {items : List (Branch V V × Nat)} {below : List (Station V α)}
    (h : Below (Ordered R) place items below) : (items.Pairwise fun br br' => R (step br) (step br')) →
    (∀ q ∈ Station.nodes below, ∃ br ∈ items, place.child br <+: q) ∧
      (Station.nodes below).Pairwise (List.Lex R) := by
  refine Below.joined h (fun _ => ⟨fun q hq => (nomatch hq), .nil⟩) ?_ fun _ _ _ ordered => ordered
  rintro br rest stations below ⟨inside, sorted⟩ others hR
  obtain ⟨before, hrest⟩ := List.pairwise_cons.1 hR
  obtain ⟨inside', sorted'⟩ := others hrest
  rw [Station.nodes, List.filterMap_append]
  constructor
  · refine List.forall_mem_append.2 ⟨fun q hq => ⟨br, List.mem_cons_self .., inside q hq⟩, fun q hq => ?_⟩
    obtain ⟨br', hbr', hq⟩ := inside' q hq
    exact ⟨br', List.mem_cons_of_mem br hbr', hq⟩
  · refine List.pairwise_append.2 ⟨sorted, sorted', fun p hp q hq => ?_⟩
    obtain ⟨br', hbr', hq⟩ := inside' q hq
    exact lex_of_children (before br' hbr') (inside p hp) hq

/-- Branches are numbered in order. -/
theorem pairwise_zipIdx (branches : List (Branch V V)) :
    branches.zipIdx.Pairwise fun br br' => br.2 < br'.2 := by
  have numbered : ∀ (bs : List (Branch V V)) (i : Nat), (bs.zipIdx i).Pairwise fun br br' => br.2 < br'.2 := by
    intro bs
    induction bs with
    | nil => exact fun _ => .nil
    | cons br rest ih =>
      intro i
      rw [List.zipIdx_cons]
      refine List.pairwise_cons.2 ⟨fun br' hbr' => ?_, ih (i + 1)⟩
      exact (List.mem_zipIdx hbr').1
  exact numbered branches 0

/-- Branches that send different values are told apart by these. -/
theorem pairwise_zipIdx_of_values {branches : List (Branch V V)}
    (h : branches.Pairwise fun br br' => br.value ≠ br'.value) :
    branches.zipIdx.Pairwise fun br br' => br.1.value ≠ br'.1.value := by
  rw [← List.zipIdx_map_fst 0 branches, List.pairwise_map] at h
  exact h

/-- Places that part at different values are reached by different ones. -/
theorem trail_ne_of_lex {p q : Place V} (h : List.Lex (fun x y => x.2 ≠ y.2) p q) : p.trail ≠ q.trail := by
  induction h with
  | nil => exact fun he => nomatch he
  | cons _ ih => exact fun he => ih (List.cons.inj he).2
  | rel hxy => exact fun he => hxy (List.cons.inj he).1

theorem branching_of_forall [Term V] {D : List (Branch V V) → Prop} (hD : ∀ branches, D branches) :
    ∀ b : Body V α, b.Branching D
  | finish _ => trivial
  | stop _ => trivial
  | await _ next => ⟨fun _ branches _ => hD branches, fun v => branching_of_forall hD (next v)⟩

theorem ordered_ended (place : Place V) (r : Option (Branch V α)) : Ordered R place [.ended place r] :=
  ⟨List.forall_mem_singleton.2 List.prefix_rfl, List.pairwise_singleton _ _⟩

theorem ordered_cut (place : Place V) (s : Subject V) (r : Branch V α) : Ordered R place [.cut place s r] :=
  ⟨List.forall_mem_singleton.2 List.prefix_rfl, List.pairwise_singleton _ _⟩

theorem ordered_applied {place : Place V} {s : Subject V} {branches : List (Branch V V)}
    {below : List (Station V α)} (hR : branches.zipIdx.Pairwise fun br br' => R (step br) (step br'))
    (h : Below (Ordered R) place branches.zipIdx below) :
    Ordered R place (.applied place s branches.length :: below) := by
  obtain ⟨inside, sorted⟩ := h.ordered hR
  refine ⟨List.forall_mem_cons.2 ⟨List.prefix_rfl, fun q hq => ?_⟩, List.pairwise_cons.2 ⟨fun q hq => ?_, sorted⟩⟩
  · obtain ⟨br, -, hq⟩ := inside q hq
    exact (List.prefix_append place [step br]).trans hq
  · obtain ⟨br, -, hq⟩ := inside q hq
    exact lex_of_child hq

end Order

/-! ## That no branch is left out -/

/-- The node at a place is reached, and with every application each of its branches. -/
def Complete (place : Place V) (stations : List (Station V α)) : Prop :=
  place ∈ Station.nodes stations ∧ ∀ p s n, .applied p s n ∈ stations →
    ∀ i < n, ∃ v, p ++ [(i, v)] ∈ Station.nodes stations

theorem mem_nodes_append {front back : List (Station V α)} {p : Place V} :
    p ∈ Station.nodes (front ++ back) ↔ p ∈ Station.nodes front ∨ p ∈ Station.nodes back := by
  rw [Station.nodes, List.filterMap_append, List.mem_append]
  rfl

theorem Below.complete {place : Place V} {items : List (Branch V V × Nat)} {below : List (Station V α)}
    (h : Below Complete place items below) :
    (∀ br ∈ items, place.child br ∈ Station.nodes below) ∧
      ∀ p s n, .applied p s n ∈ below → ∀ i < n, ∃ v, p ++ [(i, v)] ∈ Station.nodes below := by
  refine Below.joined h ⟨fun _ hbr => (nomatch hbr), fun _ _ _ hp => (nomatch hp)⟩ ?_ ?_
  · rintro br rest stations below ⟨here, inside⟩ ⟨others, inside'⟩
    refine ⟨List.forall_mem_cons.2 ⟨mem_nodes_append.2 (.inl here),
      fun br' hbr' => mem_nodes_append.2 (.inr (others br' hbr'))⟩, fun p s n hp i hi => ?_⟩
    rcases List.mem_append.1 hp with hp | hp
    · obtain ⟨v, hv⟩ := inside p s n hp i hi
      exact ⟨v, mem_nodes_append.2 (.inl hv)⟩
    · obtain ⟨v, hv⟩ := inside' p s n hp i hi
      exact ⟨v, mem_nodes_append.2 (.inr hv)⟩
  · rintro items q below ⟨children, inside⟩
    exact ⟨children, fun p s n hp => inside p s n ((List.mem_cons.1 hp).resolve_left fun he => nomatch he)⟩

theorem complete_ended (place : Place V) (r : Option (Branch V α)) : Complete place [.ended place r] :=
  ⟨List.mem_singleton_self place, fun _ _ _ hp => nomatch List.mem_singleton.1 hp⟩

theorem complete_cut (place : Place V) (s : Subject V) (r : Branch V α) : Complete place [.cut place s r] :=
  ⟨List.mem_singleton_self place, fun _ _ _ hp => nomatch List.mem_singleton.1 hp⟩

theorem complete_applied {place : Place V} {s : Subject V} {branches : List (Branch V V)}
    {below : List (Station V α)} (h : Below Complete place branches.zipIdx below) :
    Complete place (.applied place s branches.length :: below) := by
  obtain ⟨children, inside⟩ := h.complete
  refine ⟨List.mem_cons_self .., fun p t n hp i hi => ?_⟩
  rcases List.mem_cons.1 hp with hp | hp
  · obtain ⟨rfl, rfl, rfl⟩ := Station.applied.inj hp
    have branch : (branches[i], i) ∈ branches.zipIdx :=
      List.mem_zipIdx_iff_getElem?.2 (List.getElem?_eq_getElem hi)
    exact ⟨_, List.mem_cons_of_mem _ (children _ branch)⟩
  · obtain ⟨v, hv⟩ := inside p t n hp i hi
    exact ⟨v, List.mem_cons_of_mem _ hv⟩

end Body

/-! ## What is heard of it -/

/-- What an observer hears of a run. -/
def Outcome.heard (ear : Event V → Option β) (o : Outcome V α) : List β := o.events.filterMap ear

namespace Run

variable {γ : Type} {ear : Event V → Option β} {x : Run V α}

/-- Where a run answers, its answer and what an observer hears of it are as `Q` says. -/
def Hears (ear : Event V → Option β) (x : Run V α) (Q : α → List β → Prop) : Prop :=
  ∀ ⦃σ : Scope V⦄ ⦃c : Context V⦄ ⦃a : α⦄, (x σ c).answer = .ok a → Q a ((x σ c).heard ear)

namespace Hears

protected theorem pure {Q : α → List β → Prop} {a : α} (h : Q a []) : Hears ear (pure a : Run V α) Q := by
  intro σ c b hb
  obtain rfl := Except.ok.inj hb
  exact h

/-- What is heard of a sequence is heard of its parts, one after the other. -/
protected theorem bind {Q : α → List β → Prop} {S : γ → List β → Prop} {f : α → Run V γ}
    (h : Hears ear x Q) (hf : ∀ a l, Q a l → Hears ear (f a) fun b m => S b (l ++ m)) :
    Hears ear (x >>= f) S := by
  intro σ c b hb
  obtain ⟨a, ha, hb⟩ := exists_of_answer_bind_ok hb
  have later := hf a _ (h ha) hb
  rw [Outcome.heard, bind_apply_of_answer_ok ha, List.filterMap_append]
  exact later

/-- An event that the observer is deaf to. -/
theorem emitIf {e : Event V} (taken : Scope V → Except (Defect V) Unit) (deaf : ear e = none) :
    Hears ear (Run.emitIf taken e) fun _ l => l = [] := by
  intro σ c _ h
  rw [Run.emitIf] at h ⊢
  cases hd : taken σ with
  | ok u =>
    show List.filterMap ear [e] = []
    rw [List.filterMap_cons_none deaf]
    rfl
  | error d => rfl

end Hears

end Run

/-- An observer who does not listen to log records and to branches that are dropped. -/
structure Deaf (ear : Event V → Option β) : Prop where
  entry : ∀ e, ear (.entry e) = none
  dropped : ∀ d, ear (.dropped d) = none

theorem Run.hears_surrender {ear : Event V → Option β} (deaf : Deaf ear) (name : String) (s : Subject V)
    (e : Fault V) : (surrender name s e).Hears ear fun _ l => l = [] := by
  cases e with
  | failure f =>
    have reported : (report name s f).Hears ear fun _ l => l = [] :=
      (Hears.emitIf _ (deaf.entry _)).bind fun _ l hl => by
        subst hl
        exact .emitIf _ (deaf.dropped _)
    intro σ c a h
    rw [surrender, mode_bind] at h ⊢
    cases hm : σ.mode with
    | guarded =>
      rw [hm] at h
      exact reported h
    | raw =>
      rw [hm] at h
      cases h
  | defect d =>
    intro σ c a h
    cases h
  | exhausted =>
    intro σ c a h
    cases h

namespace Body

/-- What an observer hears of an application is what `call` says of it: of what was sent so far, and of the
state that the computation is applied to. -/
def Audible [Term V] (ear : Event V → Option β) (call : List V → Subject V → β) : Body V α → List V → Prop
  | finish _, _ => True
  | stop _, _ => True
  | await c next, trail => (∀ s σ k, (c.apply s σ k).heard ear = [call trail s]) ∧
      ∀ v, (next v).Audible ear call (trail ++ [v])

/-- What is heard of what was written down: each time that the body is made ready, and each application. -/
def told (mark : β) (call : List V → Subject V → β) : Station V α → Option β
  | .prepared _ => some mark
  | .applied place s _ | .cut place s _ => some (call place.trail s)
  | .ended _ _ => none

section Heard

variable [Term V] {ear : Event V → Option β} {mark : β} {call : List V → Subject V → β} {ready : Run V Unit}
  {whenOver : Option V → α}

omit [Term V] in
/-- To make a body ready again, where that is needed, is heard once. -/
theorem hears_readied (call : List V → Subject V → β) (hready : ∀ σ k, (ready σ k).heard ear = [mark])
    (place : Place V) (i : Nat) : (readied ready place i : Run V (List (Station V α))).Hears ear
      fun stations l => l = stations.filterMap (told mark call) := by
  cases i with
  | zero => exact .pure rfl
  | succ i =>
    have made : ready.Hears ear fun _ l => l = [mark] := fun σ k _ _ => hready σ k
    refine made.bind fun _ l hl => ?_
    subst hl
    exact .pure rfl

/-- What is heard of the walks of some branches, if for each of them it is what was written down. -/
theorem hears_visited {name : String} {next : V → Body V α} {place : Place V} (items : List (Branch V V × Nat))
    (visit : ∀ br, (visited ready whenOver name next place br).Hears ear
      fun stations l => l = stations.filterMap (told mark call)) :
    (Run.flatMap items (visited ready whenOver name next place)).Hears ear
      fun stations l => l = stations.filterMap (told mark call) := by
  induction items with
  | nil => exact .pure rfl
  | cons br rest step =>
    refine (visit br).bind fun here l hl => step.bind fun others m hm => ?_
    subst hl hm
    refine .pure ?_
    rw [List.append_nil, List.filterMap_append]

theorem hears_toured (name : String) (deaf : Deaf ear) (hready : ∀ σ k, (ready σ k).heard ear = [mark])
    {b : Body V α} {place : Place V} (hb : b.Audible ear call place.trail) (s : Subject V) :
    (b.toured ready whenOver name place s).Hears ear fun stations l => l = stations.filterMap (told mark call) := by
  induction b generalizing place s with
  | finish a => exact .pure rfl
  | stop e =>
    refine (Run.hears_surrender deaf name s e.ofBody).bind fun _ l hl => ?_
    subst hl
    exact .pure rfl
  | await c next ih =>
    -- what is heard of the application is heard whatever its answer is read as
    have carriedOut : (Run.unlessOver (c.apply s)).Hears ear fun _ l => l = [call place.trail s] :=
      fun σ k _ _ => hb.1 s σ k
    have visit : ∀ br : Branch V V × Nat, (visited ready whenOver name next place br).Hears ear
        fun stations l => l = stations.filterMap (told mark call) := by
      intro br
      have deeper : (next br.1.value).Audible ear call (place.child br).trail := by
        rw [Place.trail_child]
        exact hb.2 br.1.value
      refine (hears_readied call hready _ br.2).bind fun front l hl =>
        (ih br.1.value deeper br.1.state).bind fun stations m hm => ?_
      subst hl hm
      refine .pure ?_
      rw [List.append_nil, List.filterMap_append]
    rw [toured]
    refine carriedOut.bind fun carried l hl => ?_
    subst hl
    cases carried with
    | error details => exact .pure rfl
    | ok branches =>
      refine (hears_visited branches.zipIdx visit).bind fun stations m hm => ?_
      subst hm
      refine .pure ?_
      rw [List.append_nil]
      rfl

theorem hears_tour (name : String) (deaf : Deaf ear) (hready : ∀ σ k, (ready σ k).heard ear = [mark])
    {b : Body V α} (hb : b.Audible ear call []) (s : Subject V) :
    (b.tour ready whenOver name s).Hears ear fun stations l => l = stations.filterMap (told mark call) := by
  have made : ready.Hears ear fun _ l => l = [mark] := fun σ k _ _ => hready σ k
  refine made.bind fun _ l hl => ?_
  subst hl
  have start : b.Audible ear call (Place.trail []) := hb
  refine (hears_toured name deaf hready start s).bind fun stations m hm => ?_
  subst hm
  refine .pure ?_
  rw [List.append_nil]
  rfl

end Heard

/-! ## The engine -/

/-- **An engine explores a body once.**  Let something be done each time that a body is made ready, and let
the body be applied to any state in any scope and context.  With enough steps the engine's loop ends, and does
what the walk does that goes on from every branch where it stands.  If it answers, then with the list of what
was written down on that walk:

* The body is made ready once for the start and once for each branch besides the first of an application.  This
  is how many paths end: with a result, by a failure, because a computation gave no branches, or because it said
  that there is nothing more to come.  Each path has at most one result.
* No branch of an application is left out.  The nodes are reached one after the other in the order of branches,
  a node before what lies below it; so each of them is reached once, and if it waits, its computation is applied
  once.
* As long as the branches of each application send different values, what was sent tells the nodes apart.
* An observer who hears each time that the body is made ready, and each application, hears just these. -/
theorem routineAfter_explores_once [Term V] (ready : Run V Unit) (whenOver : Option V → α) (name : String)
    (b : Body V α) (s : Subject V) (σ : Scope V) (k : Context V) :
    ∃ steps, ∀ fuel ≥ steps, ∀ o : Outcome V (List (Branch V α)),
      ((b.routineAfter ready whenOver).comp name fuel).body s σ k = o →
      o = ending (b.tour ready whenOver name s) σ k ∧
      ∀ found, o.answer = .ok found → ∃ stations,
        (b.tour ready whenOver name s σ k).answer = .ok stations ∧ found = Station.results stations ∧
        (stations.countP Station.isPrepared = 1 + (stations.map Station.spare).sum ∧
          stations.countP Station.isEnd = stations.countP Station.isPrepared ∧
          found.length ≤ stations.countP Station.isEnd) ∧
        (∀ place t n, .applied place t n ∈ stations → ∀ i < n, ∃ v, place ++ [(i, v)] ∈ Station.nodes stations) ∧
        (Station.nodes stations).Pairwise (List.Lex fun x y => x.1 < y.1) ∧
        (b.Branching (fun branches => branches.Pairwise fun br br' => br.value ≠ br'.value) →
          ((Station.nodes stations).map Place.trail).Nodup) ∧
        ∀ (β : Type) (ear : Event V → Option β) (mark : β) (call : List V → Subject V → β), Deaf ear →
          (∀ τ l, (ready τ l).heard ear = [mark]) → b.Audible ear call [] →
          o.heard ear = stations.filterMap (told mark call) := by
  obtain ⟨steps, engine⟩ := exhaust_eq_tour ready whenOver name b s σ k
  refine ⟨steps, fun fuel hfuel o ho => ?_⟩
  have walked : o = ending (b.tour ready whenOver name s) σ k := ho.symm.trans (engine fuel hfuel)
  refine ⟨walked, fun found hfound => ?_⟩
  rw [walked] at hfound
  obtain ⟨stations, hstations, hresults⟩ := Run.exists_of_answer_bind_ok hfound
  obtain rfl := Except.ok.inj hresults
  -- the walk begins with the body made ready for the start
  obtain ⟨_, -, hrest⟩ := Run.exists_of_answer_bind_ok hstations
  obtain ⟨rest, htoured, hrest⟩ := Run.exists_of_answer_bind_ok hrest
  obtain rfl := Except.ok.inj hrest
  have answers := Run.answers_of_answer htoured
  have everywhere : ∀ {D : List (Branch V V) → Prop}, (∀ bs, D bs) → b.Branching D :=
    fun hD => branching_of_forall hD b
  obtain ⟨prepared, ends⟩ : Balanced rest := toured_induction balanced_ended balanced_cut
    (fun _ _ _ _ _ => balanced_applied) (everywhere fun _ => trivial) [] s answers
  obtain ⟨-, sorted⟩ : Ordered (fun x y => x.1 < y.1) [] rest := toured_induction ordered_ended ordered_cut
    (fun _ _ _ _ => ordered_applied) (everywhere pairwise_zipIdx) [] s answers
  obtain ⟨-, complete⟩ : Complete [] rest := toured_induction complete_ended complete_cut
    (fun _ _ _ _ _ => complete_applied) (everywhere fun _ => trivial) [] s answers
  have start : (Station.prepared [] :: rest).countP Station.isPrepared = rest.countP Station.isPrepared + 1 :=
    List.countP_cons_of_pos rfl
  have start' : (Station.prepared [] :: rest).countP Station.isEnd = rest.countP Station.isEnd :=
    List.countP_cons_of_neg Bool.false_ne_true
  have spares : ((Station.prepared [] :: rest).map Station.spare).sum = (rest.map Station.spare).sum := by
    rw [List.map_cons, List.sum_cons]
    exact Nat.zero_add _
  refine ⟨_, hstations, rfl, ⟨by omega, by omega, length_results_le _⟩, fun place t n hp => ?_, sorted,
    fun distinct => ?_, fun β ear mark call deaf hready hb => ?_⟩
  · exact complete place t n ((List.mem_cons.1 hp).resolve_left fun he => nomatch he)
  · have parted : Ordered (fun x y => x.2 ≠ y.2) [] rest := toured_induction ordered_ended ordered_cut
      (fun _ _ _ _ hD => ordered_applied (pairwise_zipIdx_of_values hD)) distinct [] s answers
    exact List.pairwise_map.2 (parted.2.imp trail_ne_of_lex)
  · have heard := hears_tour name deaf hready hb s hstations
    rw [walked, ending, Outcome.heard, Run.bind_apply_of_answer_ok hstations]
    show List.filterMap ear (_ ++ []) = _
    rw [List.append_nil]
    exact heard

section Instances

open Script

/-- What is remarked. -/
def remark? : Event V → Option V
  | .noted v => some v
  | _ => none

theorem deaf_remark? : Deaf (remark? (V := V)) := ⟨fun _ => rfl, fun _ => rfl⟩

/-- A computation that remarks on what was sent so far, and gives some results in the state as it is. -/
def remarking (trail results : List (Datum Empty)) : Comp (Datum Empty) (Datum Empty) where
  name := "remarking"
  body s := do
    Run.emit (.noted (.list trail))
    return results.map fun r => ⟨s, r⟩

/-- However such a computation is applied, its remark is all that is heard. -/
theorem heard_remarking (trail results : List (Datum Empty)) (s : Subject (Datum Empty))
    (σ : Scope (Datum Empty)) (k : Context (Datum Empty)) :
    ((remarking trail results).apply s σ k).heard remark? = [.list trail] := by
  have unfailing : ∀ f, ((remarking trail results).body s σ k).answer ≠ .error (.failure f) :=
    fun f h => nomatch h
  have heard_news : ∀ o : Outcome (Datum Empty) (List (Branch (Datum Empty) (Datum Empty))),
      o.heard remark? = o.news.filterMap remark? := by
    intro o
    rw [Outcome.heard, Outcome.news, List.filterMap_filter]
    refine List.filterMap_congr fun e _ => ?_
    cases e <;> rfl
  have answered : ((remarking trail results).body s σ k).answer = .ok (results.map fun r => ⟨s, r⟩) := rfl
  rw [heard_news, Comp.apply_apply_of_unfailing unfailing, Run.news_bind_of_ok answered, Run.Silent.settle]
  rfl

/-- A body with three branches: two results below the first, none at the second, and a dead end below the
third. -/
def threefold : Body (Datum Empty) (Datum Empty) :=
  await (remarking [] [.bool true, .bool false, .int 7]) fun v =>
    match v with
    | .bool true => await (remarking [v] [.int 1, .int 2]) finish
    | .bool false => stop (.failure (.abandoned []))
    | v => await (remarking [v] []) finish

theorem audible_threefold : threefold.Audible remark? (fun trail _ => .list trail) [] := by
  refine ⟨fun s => heard_remarking _ _ s, fun v => ?_⟩
  have ending : ∀ results v, (await (remarking [v] results) finish : Body (Datum Empty) (Datum Empty)).Audible
      remark? (fun trail _ => .list trail) [v] := fun results v =>
    ⟨fun s => heard_remarking [v] results s, fun _ => trivial⟩
  cases v with
  | bool on =>
    cases on with
    | true => exact ending _ _
    | false => exact trivial
  | _ => exact ending _ _

/-- What is written down while it is explored. -/
def threefoldWalk : List (Station (Datum Empty) (Datum Empty)) :=
  [.prepared [],
    .applied [] (.state .empty) 3,
    .applied [(0, .bool true)] (.state .empty) 2,
    .ended [(0, .bool true), (0, .int 1)] (some ⟨.state .empty, .int 1⟩),
    .prepared [(0, .bool true), (1, .int 2)],
    .ended [(0, .bool true), (1, .int 2)] (some ⟨.state .empty, .int 2⟩),
    .prepared [(1, .bool false)],
    .ended [(1, .bool false)] none,
    .prepared [(2, .int 7)],
    .applied [(2, .int 7)] (.state .empty) 0]

/-- Four paths end, and the body is made ready four times: at the start, for the second result below the first
branch, and for the two other branches. -/
theorem routineAfter_threefold : ∃ steps, ∀ fuel ≥ steps, ∀ o,
    ((threefold.routineAfter (Run.emit (.noted .null)) whenOverNull).comp "body" fuel).body (.state .empty)
      (.of .guarded) {} = o →
    o.answer = .ok [⟨.state .empty, .int 1⟩, ⟨.state .empty, .int 2⟩] ∧
    o.heard remark? = [.null, .list [], .list [.bool true], .null, .null, .null, .list [.int 7]] := by
  obtain ⟨steps, explored⟩ := threefold.routineAfter_explores_once (Run.emit (.noted .null)) whenOverNull "body"
    (.state .empty) (.of .guarded) {}
  refine ⟨steps, fun fuel hfuel o ho => ?_⟩
  obtain ⟨walked, stations⟩ := explored fuel hfuel o ho
  have answer : o.answer = .ok [⟨.state .empty, .int 1⟩, ⟨.state .empty, .int 2⟩] := by
    rw [walked]
    rfl
  refine ⟨answer, ?_⟩
  have walk : (tour (Run.emit (.noted .null)) whenOverNull "body" threefold (.state .empty)
      (.of .guarded) {}).answer = .ok threefoldWalk := rfl
  obtain ⟨stations, hstations, -, -, -, -, -, heard⟩ := stations _ answer
  obtain rfl : threefoldWalk = stations := Except.ok.inj (walk.symm.trans hstations)
  exact heard (Datum Empty) remark? .null (fun trail _ => .list trail) deaf_remark? (fun _ _ => rfl)
    audible_threefold

/-- A body that is sent the same value by both branches of its first computation. -/
def echoing : Body (Datum Empty) (Datum Empty) :=
  await (remarking [] [.int 0, .int 0]) fun v => await (remarking [v] [.null]) finish

theorem audible_echoing : echoing.Audible remark? (fun trail _ => .list trail) [] :=
  ⟨fun s => heard_remarking _ _ s, fun v => ⟨fun s => heard_remarking [v] _ s, fun _ => trivial⟩⟩

/-- **What was sent does not tell nodes apart.**  Where two branches send the same value, the computation that
the body waits for then is applied twice, once for each of them. -/
theorem not_applied_once_for_what_was_sent :
    ¬ ∀ (b : Body (Datum Empty) (Datum Empty)) (fuel : Nat) (found : List (Branch (Datum Empty) (Datum Empty)))
      (o : Outcome (Datum Empty) (List (Branch (Datum Empty) (Datum Empty)))),
      b.Audible remark? (fun trail _ => .list trail) [] →
      ((b.routineAfter (pure ()) whenOverNull).comp "body" fuel).body (.state .empty) (.of .guarded) {} = o →
      o.answer = .ok found → (o.heard remark?).Nodup := by
  intro h
  have once := h echoing 3 [⟨.state .empty, .null⟩, ⟨.state .empty, .null⟩] _ audible_echoing rfl rfl
  have heard : (((echoing.routineAfter (pure ()) whenOverNull).comp "body" 3).body (.state .empty) (.of .guarded)
      {}).heard remark? = [.list [], .list [.int 0], .list [.int 0]] := rfl
  rw [heard] at once
  exact absurd once (by simp)

end Instances

end Body

end SymbolicPaths
