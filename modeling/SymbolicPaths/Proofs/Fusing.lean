import SymbolicPaths.Proofs.Conservation
import SymbolicPaths.Proofs.Equality
import SymbolicPaths.Proofs.Twins
/-!
# What a fusion does

A fusion gathers the chunks of a heap by location and asks the policy for a value where several chunks claim
one.  Which chunks these are can be said without going through the heap chunk by chunk: a group stands at
every chunk that is the first one at its location (`Heap.firsts`), and its values are those that are claimed
there (`Heap.groups_eq_firsts`).  So a fusion asks the policy about the lists `Heap.asked`, one after the
other, and does nothing else but write to the log (`Heap.echoes_fuse`).

A heap that was fused has no two chunks at one location, and fusing it once more asks nothing.

Locations that agree need not be identical, as long as to agree is an equivalence on the locations of the
heap (`Term.Equivalent`).
-/

namespace SymbolicPaths

variable {V : Type}

/-! ## Runs that differ in what they log -/

namespace Run

variable {α β γ δ κ : Type}

/-- Where log records are kept, `y` does what `x` does but for log records, and answers as the answer of `x`
says. -/
def EchoedBy (A : α → β → Prop) (x : Run V α) (y : Run V β) : Prop :=
  ∀ ⦃σ : Scope V⦄, (∀ e, σ.records e = .ok ()) → ∀ c : Context V,
    Answered A (x σ c).answer (y σ c).answer ∧ (y σ c).news = (x σ c).news ∧
      (y σ c).context = (x σ c).context

namespace EchoedBy

variable {A : α → β → Prop} {B : γ → δ → Prop} {x : Run V α} {y : Run V β}

protected theorem pure {a : α} {b : β} (h : A a b) : EchoedBy A (pure a : Run V α) (pure b) :=
  fun _ _ _ => ⟨.ok h, rfl, rfl⟩

theorem refl {A : α → α → Prop} (hA : ∀ a, A a a) (x : Run V α) : EchoedBy A x x :=
  fun _ _ _ => ⟨.refl hA _, rfl, rfl⟩

protected theorem bind {f : α → Run V γ} {g : β → Run V δ} (h : EchoedBy A x y)
    (hf : ∀ a b, A a b → EchoedBy B (f a) (g b)) : EchoedBy B (x >>= f) (y >>= g) := by
  intro σ records c
  obtain ⟨answer, news, context⟩ := h records c
  cases hx : (x σ c).answer with
  | error e =>
    have hy := (hx ▸ answer).eq_error
    rw [bind_apply_of_answer_error hx, bind_apply_of_answer_error hy]
    exact ⟨.error e, news, context⟩
  | ok a =>
    obtain ⟨b, hy, hab⟩ := (hx ▸ answer).exists_ok
    obtain ⟨answer', news', context'⟩ := hf a b hab records (x σ c).context
    rw [answer_bind_of_ok hx, answer_bind_of_ok hy, news_bind_of_ok hx, news_bind_of_ok hy,
      context_bind_of_ok hx, context_bind_of_ok hy, context, news]
    exact ⟨answer', by rw [news'], context'⟩

/-- A log record is no difference. -/
theorem log_bind (e : Entry V) (h : EchoedBy A x y) : EchoedBy A x (log e >>= fun _ => y) := by
  intro σ records c
  rw [bind_apply_of_ok (log_apply_of_ok c (records e))]
  obtain ⟨answer, news, context⟩ := h records c
  exact ⟨answer, news, context⟩

theorem imp {B : α → β → Prop} (hAB : ∀ a b, A a b → B a b) (h : EchoedBy A x y) : EchoedBy B x y :=
  fun _ records c => ⟨(h records c).1.imp hAB, (h records c).2⟩

end EchoedBy

/-- What only answers, one by one with what it was made of, answers with all of it. -/
theorem each_map_of_pure {ι : Type} {items : List ι} {place : ι → κ} {f : κ → Run V ι}
    (h : ∀ i ∈ items, f (place i) = pure i) : Run.each (items.map place) f = pure items := by
  induction items with
  | nil => rfl
  | cons i rest ih =>
    obtain ⟨here, others⟩ := List.forall_mem_cons.1 h
    rw [List.map_cons, each_cons, here, pure_bind, ih others, pure_bind]

end Run

variable [Term V]

namespace Heap

/-! ## The first chunk at each location -/

/-- The chunks before which no chunk stands at their location. -/
def firsts : List (Chunk V) → List (Chunk V)
  | [] => []
  | c :: h => c :: (firsts h).filter fun d => !Term.same c.location d.location

/-- No two of the chunks stand at one location. -/
def Apart (h : List (Chunk V)) : Prop := h.Pairwise fun c d => Term.same c.location d.location = false

theorem firsts_sublist (h : List (Chunk V)) : (firsts h).Sublist h := by
  induction h with
  | nil => exact List.Sublist.refl _
  | cons c h ih => exact ((List.filter_sublist).trans ih).cons_cons c

theorem apart_firsts (h : List (Chunk V)) : Apart (firsts h) := by
  induction h with
  | nil => exact .nil
  | cons c h ih =>
    refine List.pairwise_cons.2 ⟨fun d hd => ?_, ih.filter _⟩
    have other := (List.mem_filter.1 hd).2
    rwa [Bool.not_eq_true'] at other

/-- They stand where the heap claims something, in the same order. -/
theorem map_location_firsts (h : List (Chunk V)) : (firsts h).map Chunk.location = claimed h := by
  induction h with
  | nil => rfl
  | cons c h ih =>
    rw [firsts, claimed, List.map_cons, ← ih, List.filter_map]
    rfl

/-- Chunks that stand apart are all first at their locations. -/
theorem firsts_of_apart {h : List (Chunk V)} (apart : Apart h) : firsts h = h := by
  induction h with
  | nil => rfl
  | cons c h ih =>
    obtain ⟨others, rest⟩ := List.pairwise_cons.1 apart
    rw [firsts, ih rest, List.filter_eq_self.2 fun d hd => by rw [others d hd]; rfl]

/-- Where the chunks stand is all that matters. -/
theorem apart_of_map_location {h k : List (Chunk V)} (hk : k.map Chunk.location = h.map Chunk.location)
    (apart : Apart h) : Apart k := by
  have located : (h.map Chunk.location).Pairwise fun l m => Term.same l m = false :=
    List.pairwise_map.2 apart
  rw [← hk] at located
  exact List.pairwise_map.1 located

section Equivalent

variable {P : V → Prop} (equivalent : Term.Equivalent P) {h : List (Chunk V)} {c : Chunk V} {l : V}

include equivalent

/-- A chunk is the first of those at its location. -/
theorem exists_chunksAt_of_mem_firsts (located : Located P h) (hc : c ∈ firsts h) :
    ∃ rest, chunksAt c.location h = c :: rest := by
  induction h with
  | nil => cases hc
  | cons d h ih =>
    rcases List.mem_cons.1 hc with rfl | hc
    · exact ⟨_, chunksAt_cons_of_same (equivalent.refl located.head)⟩
    · obtain ⟨hmem, other⟩ := List.mem_filter.1 hc
      rw [chunksAt_cons_of_not_same (by simpa using other)]
      exact ih located.tail hmem

/-- Every location that is claimed has a first chunk. -/
theorem exists_mem_firsts (located : Located P h) (hc : c ∈ h) :
    ∃ d ∈ firsts h, Term.same d.location c.location = true := by
  induction h with
  | nil => cases hc
  | cons e h ih =>
    rcases List.mem_cons.1 hc with rfl | hmem
    · exact ⟨c, List.mem_cons_self .., equivalent.refl located.head⟩
    · obtain ⟨d, hd, hdc⟩ := ih located.tail hmem
      by_cases hed : Term.same e.location d.location = true
      · have hd' := located.tail d ((firsts_sublist h).subset hd)
        exact ⟨e, List.mem_cons_self ..,
          equivalent.trans located.head hd' (located.tail c hmem) hed hdc⟩
      · exact ⟨d, List.mem_cons_of_mem e (List.mem_filter.2 ⟨hd, by simpa using hed⟩), hdc⟩

/-- **The groups of a heap stand at the first chunks**, each with the values that are claimed there. -/
theorem groups_eq_firsts (located : Located P h) :
    groups h = (firsts h).map fun c => ⟨c.location, valuesAt c.location h⟩ := by
  rw [groups_eq equivalent located, ← map_location_firsts, List.map_map]
  rfl

end Equivalent

/-! ## What the policy is asked -/

/-- What the policy is asked about: the values of each location with several chunks, in the order in which
the locations first occur. -/
def asked (h : List (Chunk V)) : List (List V) :=
  ((firsts h).map fun c => valuesAt c.location h).filter fun vs => 2 ≤ vs.length

/-- The chunks that are made of chunks which are first at their locations, given what the policy was asked
about and what it answered, call by call. -/
inductive Condensed (h : List (Chunk V)) : List (Chunk V) → List (List V × V) → List (Chunk V) → Prop
  | nil : Condensed h [] [] []
  /-- The only chunk at its location stays as it is. -/
  | kept {c : Chunk V} {cs g : List (Chunk V)} {calls : List (List V × V)}
      (one : chunksAt c.location h = [c]) (rest : Condensed h cs calls g) :
      Condensed h (c :: cs) calls (c :: g)
  /-- The first of several gets the value that the policy has for all of them. -/
  | unified {c : Chunk V} {cs g : List (Chunk V)} {calls : List (List V × V)}
      (several : 2 ≤ (chunksAt c.location h).length) (v : V) (rest : Condensed h cs calls g) :
      Condensed h (c :: cs) ((valuesAt c.location h, v) :: calls) (c.withValue v :: g)

/-- Nothing is moved. -/
theorem Condensed.map_location {h cs g : List (Chunk V)} {calls : List (List V × V)}
    (condensed : Condensed h cs calls g) : g.map Chunk.location = cs.map Chunk.location := by
  induction condensed with
  | nil => rfl
  | kept _ _ ih => rw [List.map_cons, ih, List.map_cons]
  | unified _ _ _ ih =>
    rw [List.map_cons, ih, List.map_cons]
    rfl

omit [Term V] in
theorem fuseGroup_of_two_le (unify : Unifier V) {g : Group V} (several : 2 ≤ g.values.length) :
    fuseGroup unify g = unify g.values >>= fun v =>
      Run.log (.unified g.values.length g.location v) >>= fun _ => pure ⟨g.location, v⟩ := by
  obtain ⟨l, _ | ⟨v, _ | ⟨w, vs⟩⟩⟩ := g
  · simp at several
  · simp at several
  · rfl

/-- Group by group, a fusion calls the policy for what has several values, and keeps the rest. -/
theorem echoes_each_fuseGroup (unify : Unifier V) {h cs : List (Chunk V)}
    (first : ∀ c ∈ cs, ∃ rest, chunksAt c.location h = c :: rest) {calls : List (List V)}
    (hcalls : ((cs.map fun c => valuesAt c.location h).filter fun vs => 2 ≤ vs.length) = calls) :
    (Run.each calls unify).EchoedBy (fun us g => Condensed h cs (calls.zip us) g)
      (Run.each (cs.map fun c => ⟨c.location, valuesAt c.location h⟩) (fuseGroup unify)) := by
  induction cs generalizing calls with
  | nil =>
    obtain rfl : [] = calls := hcalls
    exact .pure .nil
  | cons c cs ih =>
    obtain ⟨⟨rest, here⟩, others⟩ := List.forall_mem_cons.1 first
    rw [List.map_cons, Run.each_cons]
    cases rest with
    | nil =>
      -- the chunk stands alone: no call, and the chunk itself
      have values : valuesAt c.location h = [c.value] := by rw [valuesAt, here]; rfl
      rw [List.map_cons, values, List.filter_cons_of_neg (by simp)] at hcalls
      rw [values]
      show Run.EchoedBy _ _ (pure c >>= fun d => _)
      rw [pure_bind, ← bind_pure (Run.each calls unify)]
      exact (ih others hcalls).bind fun us g condensed => .pure (.kept here condensed)
    | cons d rest =>
      -- there are others: one call, and its answer at the location of the first chunk
      have several : 2 ≤ (chunksAt c.location h).length := by simp [here]
      have several' : 2 ≤ (valuesAt c.location h).length := by rwa [valuesAt, List.length_map]
      rw [List.map_cons, List.filter_cons_of_pos (by simpa using several')] at hcalls
      subst hcalls
      rw [fuseGroup_of_two_le unify several', Run.each_cons, bind_assoc]
      refine (Run.EchoedBy.refl (fun _ => rfl) (unify (valuesAt c.location h))).bind fun v w hvw => ?_
      obtain rfl : v = w := hvw
      rw [bind_assoc]
      refine .log_bind _ ?_
      rw [pure_bind]
      exact (ih others rfl).bind fun us g condensed => .pure (.unified several v condensed)

section Equivalent

variable {P : V → Prop} (equivalent : Term.Equivalent P) {h : List (Chunk V)} (located : Located P h)
  (keys : ∀ c ∈ h, Term.unhashable? c.location = none)

include equivalent located keys

theorem fuseWith_eq_each_firsts (unify : Unifier V) : fuseWith unify (h.map .chunk)
    = Run.each ((firsts h).map fun c => ⟨c.location, valuesAt c.location h⟩) (fuseGroup unify) := by
  rw [fuseWith, fusible_map_chunk keys, pure_bind, groups_eq_firsts equivalent located]

/-- **A fusion asks the policy about each location with several chunks**, and does nothing else. -/
theorem echoes_fuse (unifier : Run V (Unifier V)) : (unifier >>= Run.each (asked h)).EchoedBy
    (fun us g => Condensed h (firsts h) ((asked h).zip us) g) (fuse unifier (h.map .chunk)) := by
  refine (Run.EchoedBy.refl (fun _ => rfl) unifier).bind fun unify unify' found => ?_
  obtain rfl : unify = unify' := found
  rw [fuseWith_eq_each_firsts equivalent located keys]
  exact echoes_each_fuseGroup unify (fun c hc => exists_chunksAt_of_mem_firsts equivalent located hc) rfl

omit keys in
/-- A fusion leaves a chunk at each location, in the order in which they first occur. -/
theorem map_location_of_answers_fuse {unifier : Run V (Unifier V)} {g : List (Chunk V)}
    (hg : (fuse unifier (h.map .chunk)).Answers g) : g.map Chunk.location = (firsts h).map Chunk.location := by
  obtain ⟨σ, c, hg⟩ := hg
  obtain ⟨unify, -, hg⟩ := Run.exists_of_answer_bind_ok hg
  obtain ⟨k, hk, locations⟩ := locations_fuseWith (Run.answers_of_answer hg)
  obtain rfl : h = k := List.map_injective_iff.2 (fun _ _ => Member.chunk.inj) hk
  rw [locations, groups_eq_firsts equivalent located, List.map_map]
  rfl

omit keys in
/-- A chunk that stands apart from all others is the only one at its location. -/
theorem chunksAt_of_apart (apart : Apart h) {c : Chunk V} (hc : c ∈ h) : chunksAt c.location h = [c] := by
  have first : c ∈ firsts h := by rwa [firsts_of_apart apart]
  obtain ⟨rest, there⟩ := exists_chunksAt_of_mem_firsts equivalent located first
  cases rest with
  | nil => exact there
  | cons d rest =>
    have both : d ∈ chunksAt c.location h := there ▸ List.mem_cons_of_mem c (List.mem_cons_self ..)
    obtain ⟨hd, hdc⟩ := mem_chunksAt.1 both
    have stand : Apart (c :: d :: rest) := there ▸ apart.filter _
    have other := (List.pairwise_cons.1 stand).1 d (List.mem_cons_self ..)
    rw [equivalent.symm (located d hd) (located c hc) hdc] at other
    cases other

/-- **What stands apart is fused already**, and the policy is not asked. -/
theorem fuseWith_of_apart (apart : Apart h) (unify : Unifier V) : fuseWith unify (h.map .chunk) = pure h := by
  have alone : ∀ c ∈ h, fuseGroup unify ⟨c.location, valuesAt c.location h⟩ = pure c := fun c hc => by
    rw [valuesAt, chunksAt_of_apart equivalent located apart hc]
    rfl
  rw [fuseWith_eq_each_firsts equivalent located keys, firsts_of_apart apart]
  exact Run.each_map_of_pure alone

end Equivalent

/-- **A fusion is a grouping by location.**  Let the locations of a heap be hashable, and let agreement be an
equivalence on them.  A policy may be passed on; the one that is meant is asked.

* The heap has one first chunk at each location: no two of them stand at locations that agree, and every chunk
  stands where one of them does.
* The policy is asked about two values or more, once for each location with several chunks and in the order of
  the first chunks.  A fusion calls the policy in this way and does nothing else but write to the log, so where
  log records are kept it answers if the policy does.
* Then it has one chunk for each of the first ones, in their order and at their locations.  A chunk that is
  alone at its location is kept, and of several the first one gets the value that the policy answered with.
* What was fused is not changed by fusing it once more, whatever the second policy does: it is not asked. -/
theorem fuse_groups_by_location {P : V → Prop} (equivalent : Term.Equivalent P) {h : List (Chunk V)}
    (located : Located P h) (keys : ∀ c ∈ h, Term.unhashable? c.location = none) (meaning : V → Unifier V) :
    ((firsts h).Sublist h ∧ Apart (firsts h) ∧
      (∀ c ∈ h, ∃ d ∈ firsts h, Term.same d.location c.location = true) ∧
      ∀ c ∈ firsts h, ∃ rest, chunksAt c.location h = c :: rest) ∧
    (∀ vs ∈ asked h, 2 ≤ vs.length) ∧
    (∀ p : Option (Passed V), (Unifier.meant meaning p >>= Run.each (asked h)).EchoedBy
      (fun us g => Condensed h (firsts h) ((asked h).zip us) g ∧
        g.map Chunk.location = (firsts h).map Chunk.location ∧ Apart g)
      (fuse (Unifier.meant meaning p) (h.map .chunk))) ∧
    ∀ p q : Option (Passed V), (fuse (Unifier.meant meaning p) (h.map .chunk) >>= fun g =>
      fuse (Unifier.meant meaning q) (g.map .chunk)) = fuse (Unifier.meant meaning p) (h.map .chunk) := by
  refine ⟨⟨firsts_sublist h, apart_firsts h, fun c => exists_mem_firsts equivalent located,
    fun c => exists_chunksAt_of_mem_firsts equivalent located⟩, fun vs hvs => ?_, fun p => ?_,
    fun p q => ?_⟩
  · exact of_decide_eq_true (List.mem_filter.1 hvs).2
  · refine (echoes_fuse equivalent located keys (Unifier.meant meaning p)).imp fun us g condensed => ?_
    have locations := condensed.map_location
    exact ⟨condensed, locations, apart_of_map_location locations (apart_firsts h)⟩
  · funext σ c
    conv_rhs => rw [← bind_pure (fuse (Unifier.meant meaning p) (h.map .chunk))]
    refine Run.bind_apply_congr fun g hg => ?_
    have locations := map_location_of_answers_fuse equivalent located (Run.answers_of_answer hg)
    have origin : ∀ d ∈ g, ∃ e ∈ h, e.location = d.location := fun d hd => by
      have hd : d.location ∈ g.map Chunk.location := List.mem_map_of_mem hd
      rw [locations] at hd
      obtain ⟨e, he, hde⟩ := List.mem_map.1 hd
      exact ⟨e, (firsts_sublist h).subset he, hde⟩
    have located' : Located P g := fun d hd => by
      obtain ⟨e, he, hde⟩ := origin d hd
      exact hde ▸ located e he
    have keys' : ∀ d ∈ g, Term.unhashable? d.location = none := fun d hd => by
      obtain ⟨e, he, hde⟩ := origin d hd
      exact hde ▸ keys e he
    have again := fuseWith_of_apart equivalent located' keys'
      (apart_of_map_location locations (apart_firsts h))
    rw [fuse, funext again, Unifier.meant_bind_const]

section Instances

open Script

/-- Chunks at three locations: one is written in two ways, and its chunks stand between those of another. -/
def interleaved : List (Chunk (Datum Empty)) :=
  [⟨.location (.int 1) (.text "f"), .int 1⟩, ⟨.location (.int 2) (.text "f"), .int 5⟩,
    ⟨.location (.bool true) (.text "f"), .int 3⟩, ⟨.location (.int 3) (.text "f"), .int 0⟩,
    ⟨.location (.int 2) (.text "f"), .int 4⟩]

/-- The largest term, with a remark for each call. -/
def remarking : Unifier (Datum Empty) := fun vs => do
  Run.emit (.noted (.list vs))
  Unifier.maxTerm vs

/-- No policy of a program's own can be in force. -/
def unmeant : Datum Empty → Unifier (Datum Empty) := fun _ _ => Run.reject .nothingToUnify

/-- The policy remarks on two calls; a third location is not its business, and a policy that answers nothing
is not asked about a heap that was fused. -/
theorem fuse_interleaved :
    Term.Equivalent (Datum.WellKeyed (P := Empty)) ∧ Located Datum.WellKeyed interleaved ∧
    (∀ c ∈ interleaved, Term.unhashable? c.location = none) ∧
    (fuse (Unifier.meant unmeant (some ⟨remarking, true⟩)) (interleaved.map .chunk) (.of .guarded) {}).news
      = [.noted (.list [.int 1, .int 3]), .noted (.list [.int 5, .int 4])] ∧
    (∃ g, (fuse (Unifier.meant unmeant (some ⟨remarking, true⟩)) (interleaved.map .chunk) (.of .guarded)
        {}).answer = .ok g ∧ Apart g ∧
      Condensed interleaved (firsts interleaved)
        [([.int 1, .int 3], .int 3), ([.int 5, .int 4], .int 5)] g) ∧
    (fuse (Unifier.meant unmeant (some ⟨remarking, true⟩)) (interleaved.map .chunk) >>= fun g =>
      fuse (Unifier.meant unmeant (some ⟨fun _ => Run.reject .nothingToUnify, true⟩)) (g.map .chunk))
        = fuse (Unifier.meant unmeant (some ⟨remarking, true⟩)) (interleaved.map .chunk) := by
  have located : Located Datum.WellKeyed interleaved := by
    simp [Located, interleaved, Datum.WellKeyed]
  have keys : ∀ c ∈ interleaved, Term.unhashable? c.location = none := by
    simp only [interleaved, List.forall_mem_cons]
    exact ⟨rfl, rfl, rfl, rfl, rfl, fun _ hc => nomatch hc⟩
  obtain ⟨-, -, echoed, again⟩ := fuse_groups_by_location Datum.equivalent_wellKeyed located keys unmeant
  have kept : ∀ e, (Scope.of .guarded : Scope (Datum Empty)).records e = .ok () := fun _ => rfl
  obtain ⟨answered, news, -⟩ := echoed (some ⟨remarking, true⟩) kept {}
  have calls : ((Unifier.meant unmeant (some ⟨remarking, true⟩) >>= Run.each (asked interleaved)) (.of .guarded)
      {}).answer = .ok [.int 3, .int 5] := rfl
  rw [calls] at answered
  obtain ⟨g, hg, condensed, -, apart⟩ := answered.exists_ok
  exact ⟨Datum.equivalent_wellKeyed, located, keys, news, ⟨g, hg, apart, condensed⟩, again _ _⟩

/-- The first of the values. -/
def foremost : Unifier (Datum Empty)
  | [] => Run.reject .nothingToUnify
  | v :: _ => pure v

/-- A state that cannot be written: the names of its variables cannot be sorted. -/
def unwritten : Datum Empty := .state [(.null, .null), (.text "a", .null)] []

/-- Every log record is put into words at once. -/
def wording : Scope (Datum Empty) where
  records e := e.message?.map (fun _ => ()) |>.mapError .ofUnwritable

/-- Two values at one location. -/
def twice (v w : Datum Empty) : List (Chunk (Datum Empty)) :=
  [⟨.location (.text "x") (.text "f"), v⟩, ⟨.location (.text "x") (.text "f"), w⟩]

/-- **What keeps a fusion from that.**  A policy that counts as false is not asked: the largest value is taken,
and not the first one.  And where a log record is put into words at once, a value that cannot be written ends a
fusion whose policy has an answer. -/
theorem fuse_beyond_grouping :
    (foremost [.int 3, .int 7] (.of .guarded) {}).answer = .ok (.int 3) ∧
    (fuse (Unifier.meant unmeant (some ⟨foremost, false⟩)) ((twice (.int 3) (.int 7)).map .chunk) (.of .guarded)
      {}).answer = .ok [⟨.location (.text "x") (.text "f"), .int 7⟩] ∧
    (foremost [unwritten, unwritten] wording {}).answer = .ok unwritten ∧
    (fuse (Unifier.meant unmeant (some ⟨foremost, true⟩)) ((twice unwritten unwritten).map .chunk) wording
      {}).answer = .error (.defect (.incomparable "<" ⟨"str", "NoneType", false⟩)) :=
  ⟨rfl, rfl, rfl, rfl⟩

end Instances

end Heap

end SymbolicPaths
