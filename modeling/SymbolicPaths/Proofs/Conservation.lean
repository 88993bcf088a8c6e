import Mathlib.Data.List.Induction
import SymbolicPaths.Proofs.Conclusion
import SymbolicPaths.Proofs.Courses
import SymbolicPaths.Proofs.Grouping
import SymbolicPaths.Proofs.Sameness
/-!
# What paths conserve

A path changes the state that it goes through, but only so far.  As long as no computation on it replaces
the store or the heap as a whole, a variable that is bound stays bound, a location that some chunk claims
stays claimed, and every chunk stands at the location of one that was there at the beginning or was added
on the way (`State.Conserved`).

* One step is looked at for each computation that is not made of others (`Comp.Basic.within`).  All of them
  but one leave the locations of the heap as they are.  The exception is the compression, which leaves the
  location of each group of chunks (`Heap.locations_fuseWith`).
* Steps in a row conserve what each of them conserves (`State.Conserved.trans`), and so a course does
  (`Comp.Course.conserves`), by recursion on it.

With `Comp.Piecemeal.charted` this is about every branch that a computation gives and every branch that it
drops, but for those that host code drops when it carries out computations itself.

## Locations that agree

A location is claimed by every chunk whose location agrees with it.  A compression puts chunks together
whose locations agree and keeps the location of the first, so what agreed with the location of another one
has to agree with that of the first: here it is used that to agree is transitive.
-/

namespace SymbolicPaths

variable {V α β ι κ : Type} [Term V]

/-! ## States -/

namespace State

/-- Some chunk of the state claims a location. -/
def Claims (s : State V) (l : V) : Prop := ∃ c, Member.chunk c ∈ s.heap ∧ Term.same c.location l = true

/-- What is conserved from `s` to `t`, where `added` was put into the heap on the way. -/
structure Conserved (s : State V) (added : List (Member V)) (t : State V) : Prop where
  bound : ∀ name, (s.store.find? name).isSome → (t.store.find? name).isSome
  kept : ∀ l, s.Claims l → t.Claims l
  origin : ∀ c, Member.chunk c ∈ t.heap →
    ∃ d, (Member.chunk d ∈ s.heap ∨ Member.chunk d ∈ added) ∧ d.location = c.location

namespace Conserved

variable {s t u : State V} {added later : List (Member V)}

theorem refl (s : State V) : s.Conserved [] s := ⟨fun _ h => h, fun _ h => h, fun c hc => ⟨c, .inl hc, rfl⟩⟩

theorem trans (h : s.Conserved added t) (h' : t.Conserved later u) : s.Conserved (added ++ later) u := by
  refine ⟨fun name hs => h'.bound name (h.bound name hs), fun l hl => h'.kept l (h.kept l hl),
    fun c hc => ?_⟩
  obtain ⟨d, hd | hd, hlocation⟩ := h'.origin c hc
  · obtain ⟨e, he, hlocation'⟩ := h.origin d hd
    exact ⟨e, he.imp_right (List.mem_append_left later), hlocation'.trans hlocation⟩
  · exact ⟨d, .inr (List.mem_append_right added hd), hlocation⟩

/-- A chunk that is added is conserved with the others. -/
theorem cons (s : State V) (m : Member V) : s.Conserved [m] (s.withHeap (m :: s.heap)) where
  bound _ h := h
  kept _ h := by
    obtain ⟨c, hc, hl⟩ := h
    exact ⟨c, List.mem_cons_of_mem m hc, hl⟩
  origin c hc := by
    rcases List.mem_cons.1 hc with rfl | hc
    · exact ⟨c, .inr (List.mem_singleton_self _), rfl⟩
    · exact ⟨c, .inl hc, rfl⟩

end Conserved

end State

namespace Store

theorem isSome_find?_iff {store : Store V} {name : V} :
    (store.find? name).isSome ↔ ∃ n ∈ store.entries.map (·.1), Term.same n name = true := by
  simp only [find?, Option.isSome_map, List.find?_isSome, List.mem_map, exists_exists_and_eq_and]

/-- A name that is listed stays listed. -/
theorem names_subset_bindEntry (name value : V) (entries : List (V × V)) :
    entries.map (·.1) ⊆ (bindEntry name value entries).map (·.1) := by
  induction entries with
  | nil => exact List.nil_subset _
  | cons e rest ih =>
    rw [bindEntry]
    split
    · exact List.Subset.refl _
    · exact List.cons_subset_cons e.1 ih

end Store

/-- Binding a variable conserves everything. -/
theorem State.Conserved.bindLocal (s : State V) (name value : V) :
    s.Conserved [] (s.bindLocal name value) where
  bound other h := by
    obtain ⟨n, hn, hsame⟩ := Store.isSome_find?_iff.1 h
    exact Store.isSome_find?_iff.2 ⟨n, Store.names_subset_bindEntry name value s.store.entries hn, hsame⟩
  kept _ h := h
  origin c hc := ⟨c, .inl hc, rfl⟩

/-- A heap of chunks with the same locations conserves everything. -/
theorem State.Conserved.withChunks {s : State V} {chunks found : List (Chunk V)}
    (hs : s.heap = chunks.map .chunk)
    (hkept : ∀ l, (∃ c ∈ chunks, Term.same c.location l = true) → ∃ c ∈ found, Term.same c.location l = true)
    (horigin : ∀ c ∈ found, ∃ d ∈ chunks, d.location = c.location) :
    s.Conserved [] (s.withChunks found) where
  bound _ h := h
  kept l h := by
    obtain ⟨c, hc, hl⟩ := h
    rw [hs, List.mem_map_of_injective fun _ _ => Member.chunk.inj] at hc
    obtain ⟨d, hd, hl'⟩ := hkept l ⟨c, hc, hl⟩
    exact ⟨d, List.mem_map_of_mem hd, hl'⟩
  origin c hc := by
    rw [State.withChunks, State.withHeap, List.mem_map_of_injective fun _ _ => Member.chunk.inj] at hc
    obtain ⟨d, hd, hlocation⟩ := horigin c hc
    exact ⟨d, .inl (hs ▸ List.mem_map_of_mem hd), hlocation⟩

/-- Overwriting conserves everything: it changes values only. -/
theorem State.Conserved.overwrite {s : State V} {chunks : List (Chunk V)} (hs : s.heap = chunks.map .chunk)
    (l v : V) : s.Conserved [] (s.withChunks (Heap.overwrite l v chunks)) := by
  have locations := Heap.map_location_overwrite l v chunks
  refine .withChunks hs (fun k ⟨c, hc, hk⟩ => ?_) fun c hc => ?_
  · have hl : c.location ∈ chunks.map Chunk.location := List.mem_map_of_mem hc
    rw [← locations] at hl
    obtain ⟨d, hd, hlocation⟩ := List.mem_map.1 hl
    exact ⟨d, hd, hlocation ▸ hk⟩
  · have hl : c.location ∈ (Heap.overwrite l v chunks).map Chunk.location := List.mem_map_of_mem hc
    rw [locations] at hl
    exact List.mem_map.1 hl

/-! ## Compressions -/

namespace Heap

/-- What has claims only is a heap of chunks. -/
theorem eq_of_answers_claims {heap : List (Member V)} {chunks : List (Chunk V)}
    (h : (Run.claims heap).Answers chunks) : heap = chunks.map .chunk := by
  have read : claims? heap = .ok chunks := by
    obtain ⟨σ, c, h⟩ := h
    rw [Run.claims] at h
    cases hc : claims? heap with
    | ok found =>
      rw [hc] at h
      exact congrArg Except.ok (Except.ok.inj h)
    | error kind =>
      rw [hc] at h
      cases h
  have matching := mapM_eq_ok_iff.1 read
  clear h read
  induction matching with
  | nil => rfl
  | @cons m c rest chunks hm _ ih =>
    cases m with
    | foreign v => cases hm
    | chunk d =>
      obtain rfl := Except.ok.inj hm
      rw [List.map_cons, ih]

/-- A chunk is added to a group at its location, or makes a new one. -/
theorem locations_addToGroups (c : Chunk V) (gs : List (Group V)) :
    ((∃ g ∈ gs, Term.same g.location c.location = true) ∧
      (addToGroups c gs).map Group.location = gs.map Group.location) ∨
    (addToGroups c gs).map Group.location = gs.map Group.location ++ [c.location] := by
  induction gs with
  | nil => exact .inr rfl
  | cons g rest ih =>
    rw [addToGroups]
    split
    · rename_i hsame
      exact .inl ⟨⟨g, List.mem_cons_self .., hsame⟩, rfl⟩
    · rcases ih with ⟨⟨g', hg', hsame⟩, hrest⟩ | hrest
      · exact .inl ⟨⟨g', List.mem_cons_of_mem g hg', hsame⟩, by rw [List.map_cons, hrest, List.map_cons]⟩
      · exact .inr (by rw [List.map_cons, hrest, List.map_cons, List.cons_append])

/-- Every group stands at the location of a chunk. -/
theorem exists_of_mem_locations_groups (h : List (Chunk V)) :
    ∀ l ∈ (groups h).map Group.location, ∃ c ∈ h, c.location = l := by
  -- groups are made by adding chunks at the end, so the induction is from there
  induction h using List.reverseRecOn with
  | nil => exact fun _ hl => nomatch hl
  | append_singleton h c ih =>
    have old : ∀ l ∈ (groups h).map Group.location, ∃ d ∈ h ++ [c], d.location = l := fun l hl =>
      (ih l hl).imp fun _ hd => hd.imp_left (List.mem_append_left [c])
    rw [groups_concat]
    rcases locations_addToGroups c (groups h) with ⟨-, hlocations⟩ | hlocations
    · rwa [hlocations]
    · rw [hlocations]
      exact List.forall_mem_append.2 ⟨old, List.forall_mem_singleton.2 ⟨c, by simp, rfl⟩⟩

/-- Every chunk has a group, at its location or one that agrees with it. -/
theorem exists_location_groups (h : List (Chunk V)) : ∀ c ∈ h,
    ∃ l ∈ (groups h).map Group.location, l = c.location ∨ Term.same l c.location = true := by
  induction h using List.reverseRecOn with
  | nil => exact fun _ hc => nomatch hc
  | append_singleton h c ih =>
    rw [groups_concat]
    rcases locations_addToGroups c (groups h) with ⟨⟨g, hg, hsame⟩, hlocations⟩ | hlocations
    · rw [hlocations]
      exact List.forall_mem_append.2 ⟨ih, List.forall_mem_singleton.2
        ⟨g.location, List.mem_map_of_mem hg, .inr hsame⟩⟩
    · rw [hlocations]
      refine List.forall_mem_append.2 ⟨fun d hd => ?_, List.forall_mem_singleton.2
        ⟨c.location, by simp, .inl rfl⟩⟩
      exact (ih d hd).imp fun _ hl => hl.imp_left (List.mem_append_left [c.location])

/-- What can be fused is a heap of chunks. -/
theorem eq_of_answers_fusible {heap : List (Member V)} {chunks : List (Chunk V)}
    (h : (fusible heap).Answers chunks) : heap = chunks.map .chunk := by
  obtain ⟨σ, c, h⟩ := h
  induction heap generalizing chunks c with
  | nil =>
    obtain rfl := Except.ok.inj h
    rfl
  | cons m rest ih =>
    cases m with
    | foreign v => cases h
    | chunk d =>
      obtain ⟨_, -, h⟩ := Run.exists_of_answer_bind_ok h
      obtain ⟨others, hothers, h⟩ := Run.exists_of_answer_bind_ok h
      obtain rfl := Except.ok.inj h
      rw [List.map_cons, ← ih _ hothers]

omit [Term V] in
/-- A group becomes a chunk at its location, whatever its value. -/
theorem location_of_answers_fuseGroup {unify : Unifier V} {g : Group V} {c : Chunk V}
    (h : (fuseGroup unify g).Answers c) : c.location = g.location := by
  obtain ⟨σ, d, h⟩ := h
  have unified : ∀ vs, ((unify vs >>= fun v => Run.log (.unified vs.length g.location v) >>= fun _ =>
      pure (⟨g.location, v⟩ : Chunk V)) σ d).answer = .ok c → c.location = g.location := by
    intro vs h
    obtain ⟨v, -, h⟩ := Run.exists_of_answer_bind_ok h
    obtain ⟨_, -, h⟩ := Run.exists_of_answer_bind_ok h
    obtain rfl := Except.ok.inj h
    rfl
  rcases g with ⟨l, _ | ⟨v, _ | ⟨w, vs⟩⟩⟩
  · exact unified [] h
  · obtain rfl := Except.ok.inj h
    rfl
  · exact unified (v :: w :: vs) h

/-- **A compression leaves a chunk at the location of each group.** -/
theorem locations_fuseWith {unify : Unifier V} {heap : List (Member V)} {found : List (Chunk V)}
    (h : (fuseWith unify heap).Answers found) : ∃ chunks : List (Chunk V), heap = chunks.map .chunk ∧
      found.map Chunk.location = (groups chunks).map Group.location := by
  have fused : ∀ {gs : List (Group V)} {found : List (Chunk V)} {σ c},
      (Run.each gs (fuseGroup unify) σ c).answer = .ok found →
      found.map Chunk.location = gs.map Group.location := by
    intro gs
    induction gs with
    | nil =>
      intro found σ c h
      obtain rfl := Except.ok.inj h
      rfl
    | cons g gs ih =>
      intro found σ c h
      obtain ⟨here, hhere, h⟩ := Run.exists_of_answer_bind_ok h
      obtain ⟨others, hothers, h⟩ := Run.exists_of_answer_bind_ok h
      obtain rfl := Except.ok.inj h
      rw [List.map_cons, List.map_cons, ih hothers,
        location_of_answers_fuseGroup (Run.answers_of_answer hhere)]
  obtain ⟨σ, c, h⟩ := h
  obtain ⟨chunks, hchunks, h⟩ := Run.exists_of_answer_bind_ok h
  exact ⟨chunks, eq_of_answers_fusible (Run.answers_of_answer hchunks), fused h⟩

end Heap

section Conserving

variable (htrans : Term.Transitive V)

include htrans

/-- A compression conserves everything, if to agree is transitive. -/
theorem State.Conserved.fuse {s : State V} {unify : Unifier V} {found : List (Chunk V)}
    (h : (Heap.fuseWith unify s.heap).Answers found) : s.Conserved [] (s.withChunks found) := by
  obtain ⟨chunks, hs, hfound⟩ := Heap.locations_fuseWith h
  refine .withChunks hs (fun l hl => ?_) fun c hc => ?_
  · obtain ⟨c, hc, hl⟩ := hl
    obtain ⟨k, hk, hkc⟩ := Heap.exists_location_groups chunks c hc
    rw [← hfound] at hk
    obtain ⟨d, hd, rfl⟩ := List.mem_map.1 hk
    refine ⟨d, hd, ?_⟩
    rcases hkc with heq | hsame
    · rwa [heq]
    · exact htrans hsame hl
  · have hl : c.location ∈ found.map Chunk.location := List.mem_map_of_mem hc
    rw [hfound] at hl
    exact Heap.exists_of_mem_locations_groups chunks _ hl

end Conserving

/-! ## Computations -/

/-- What is conserved between subjects that are states; nothing is said of what is foreign. -/
def Subject.Conserved (s : Subject V) (added : List (Member V)) (t : Subject V) : Prop :=
  ∀ st, s = .state st → ∃ st', t = .state st' ∧ st.Conserved added st'

namespace Subject.Conserved

variable {s t u : Subject V} {added later : List (Member V)}

theorem refl (s : Subject V) : s.Conserved [] s := fun st hs => ⟨st, hs, .refl st⟩

theorem trans (h : s.Conserved added t) (h' : t.Conserved later u) : s.Conserved (added ++ later) u := by
  intro st hs
  obtain ⟨st', ht, conserved⟩ := h st hs
  obtain ⟨st'', hu, conserved'⟩ := h' st' ht
  exact ⟨st'', hu, conserved.trans conserved'⟩

end Subject.Conserved

/-- The subject that a path ends in. -/
def Leaf.subject : Leaf V (Branch V α) → Subject V
  | ended b => b.state
  | failed d => d.state

omit [Term V] in
theorem Leaf.subject_relabel (f : α → β) (leaf : Leaf V (Branch V α)) :
    (leaf.map fun b => (⟨b.state, f b.value⟩ : Branch V β)).subject = leaf.subject := by
  cases leaf <;> rfl

namespace Comp

open Run (Within DropsOnly)

/-- **A step conserves what there is.** -/
theorem Basic.within {m : Comp V α} (h : m.Basic) (s : Subject V) (σ : Scope V) :
    Within σ (fun bs => ∀ b ∈ bs, s.Conserved [] b.state) (fun _ => True) (m.body s) := by
  have family := (DropsOnly.family (V := V) (D := fun _ => True)).household
  have still : ∀ {a : α}, ∀ b ∈ [(⟨s, a⟩ : Branch V α)], s.Conserved [] b.state :=
    List.forall_mem_singleton.2 (.refl s)
  have moved : ∀ {st st' : State V}, st.Conserved [] st' → ∀ {a : α},
      ∀ b ∈ [(⟨.state st', a⟩ : Branch V α)], (Subject.state st).Conserved [] b.state := by
    intro st st' conserved a
    refine List.forall_mem_singleton.2 fun s hs => ?_
    obtain rfl := Subject.state.inj hs
    exact ⟨st', rfl, conserved⟩
  cases h with
  | pure a => exact .pure still
  | zero => exact .pure still
  | stop e => exact .stop e
  | choose => exact .pure (List.forall_mem_cons.2 ⟨.refl s, still⟩)
  | readVar name =>
    refine (Within.dropping (family.stateWith _ s)).bind fun st _ => ?_
    refine (Within.dropping (family.requireKey _)).bind fun _ _ => ?_
    cases st.store.find? name with
    | some v => exact .pure still
    | none => exact .fail _
  | getStore => exact (Within.dropping (family.stateWith _ s)).bind fun st _ => .pure still
  | getHeap => exact (Within.dropping (family.stateWith _ s)).bind fun st _ => .pure still
  | read unifier l attempt =>
    refine (Within.dropping (family.chunksAt l s)).bind fun chunks _ => ?_
    match chunks with
    | [] => exact .fail _
    | [c] => exact .pure still
    | _ :: _ :: _ =>
      refine (Within.dropping (family.ordered _ attempt.counted)).bind fun _ _ => ?_
      exact (Within.dropping (family.written _)).bind fun _ _ => .stop _
  | probe left right =>
    refine (Within.dropping (.aside _)).bind fun both _ => ?_
    exact .pure still
  | storeVar name value =>
    cases s with
    | foreign v => exact .stop _
    | state st =>
      refine (Within.dropping (family.requireKey _)).bind fun _ _ => ?_
      exact .pure (moved (.bindLocal st name value))
  | writeHeap l v =>
    cases s with
    | foreign v => exact .stop _
    | state st =>
      refine (Within.dropping (family.claims st.heap)).bind fun chunks hchunks => ?_
      exact .pure (moved (.overwrite (Heap.eq_of_answers_claims hchunks) l v))

/-- The branch that a step gives is conserved. -/
theorem Basic.conserves {m : Comp V α} (h : m.Basic) {s : Subject V} {bs : List (Branch V α)}
    (hbs : (m.body s).Answers bs) {b : Branch V α} (hb : b ∈ bs) : s.Conserved [] b.state := by
  obtain ⟨σ, c, hbs⟩ := hbs
  exact (h.within s σ c).1 bs hbs b hb

/-- The branch that a compression gives is conserved, if to agree is transitive. -/
theorem compress_conserves (htrans : Term.Transitive V) {unifier : Run V (Unifier V)} {s : Subject V}
    {bs : List (Branch V Unit)} (hbs : ((compress unifier).body s).Answers bs) {b : Branch V Unit}
    (hb : b ∈ bs) : s.Conserved [] b.state := by
  obtain ⟨σ, c, hbs⟩ := hbs
  rintro st rfl
  obtain ⟨_, hst, hbs⟩ := Run.exists_of_answer_bind_ok hbs
  obtain rfl := Except.ok.inj hst
  obtain ⟨found, hfused, hbs⟩ := Run.exists_of_answer_bind_ok hbs
  obtain rfl := Except.ok.inj hbs
  obtain rfl := List.mem_singleton.1 hb
  obtain ⟨unify, -, hfound⟩ := Run.exists_of_answer_bind_ok hfused
  exact ⟨_, rfl, .fuse htrans (Run.answers_of_answer hfound)⟩

mutual

/-- **A course conserves what there is.** -/
theorem Course.conserves (htrans : Term.Transitive V) {α : Type} {m : Comp V α} {s : Subject V}
    {added : List (Member V)} {leaf : Leaf V (Branch V α)} :
    m.Course s added leaf → s.Conserved added leaf.subject
  | .fails _ => .refl s
  | .basic h hbs hb => h.conserves hbs hb
  | .compressed hbs hb => compress_conserves htrans hbs hb
  | .chunk c st => fun _ hs => Subject.state.inj hs ▸ ⟨_, rfl, .cons st c⟩
  | .read h => h.conserves htrans
  | .reread _ _ h => h.conserves htrans
  | .first _ h => h.conserves htrans
  | .next h hd => (h.conserves htrans).trans (hd.conserves htrans)
  | .mapFirst _ h => h.conserves htrans
  | .mapped h _ => h.conserves htrans
  | .relabelled f h => by
    rw [Leaf.subject_relabel f]
    exact h.conserves htrans
  | .built _ _ h => h.conserves htrans
  | .noSteps s => .refl s
  | .step h hm => (h.conserves htrans).trans (hm.conserves htrans)
  | .lastStep _ h hm => (h.conserves htrans).trans (hm.conserves htrans)
  | .noItems _ s => .refl s
  | .item h hi => (h.conserves htrans).trans (hi.conserves htrans)
  | .lastItem _ h hi => (h.conserves htrans).trans (hi.conserves htrans)
  | .returned _ _ h _ => h.conserves htrans
  | .stopped _ _ h _ => h.conserves htrans
  | .yieldedLast _ _ h _ _ hd => (h.conserves htrans).trans (hd.conserves htrans)
  | .cut _ _ h _ _ => h.conserves htrans

/-- A path of a routine conserves what there is as far as it has got. -/
theorem Underway.conserves (htrans : Term.Transitive V) {κ α : Type} {r : Routine V κ α} {s : Subject V}
    {added : List (Member V)} {path : Path V} :
    Underway r s added path → s.Conserved added path.state
  | .start _ s => .refl s
  | .yielded h _ _ hb => (h.conserves htrans).trans (hb.conserves htrans)

end

/-! ## Everything that comes of a computation -/

/-- A path of `m` from `s` ends in a state, in which is conserved what `s` had. -/
def Conserves (m : Comp V α) (s : State V) (leaf : Leaf V (Branch V α)) : Prop :=
  ∃ t added, leaf.subject = .state t ∧ m.Course (.state s) added leaf ∧ s.Conserved added t

/-- What is at the end of a course conserves what there was at its beginning. -/
theorem Ends.conserves (htrans : Term.Transitive V) {m : Comp V α} {s : State V}
    {leaf : Leaf V (Branch V α)} (h : m.Ends (.state s) leaf) : m.Conserves s leaf := by
  obtain ⟨added, course⟩ := h
  obtain ⟨t, ht, conserved⟩ := course.conserves htrans s rfl
  exact ⟨t, added, ht, course, conserved⟩

section Explorations

variable [Written α] (m : Comp V α) (cap : Option (Amount V))

/-- An exploration returns some of the branches that were found, and all failures. -/
theorem conclude_within (σ : Scope V) (found : List (Branch V α) × List (Dropped V)) :
    Within σ (fun e => (∀ b ∈ e.branches, b ∈ found.1) ∧ e.failures = found.2) (fun _ => True)
      (m.conclude cap found) := by
  have family := (DropsOnly.family (V := V) (D := fun _ => True)).household
  have settings : (Run.settings : Run V _).DropsOnly fun _ => True := .of_silent Run.Silent.settings
  have inForce : (effectiveCap cap : Run V (Option (Amount V))).DropsOnly fun _ => True := by
    cases cap with
    | some n => exact family.pure _
    | none => exact family.bind settings fun i _ => family.having _ i.cap?
  refine (Within.dropping inForce).bind fun cap _ => ?_
  have cut : Within σ (fun r => ∀ b ∈ r.1, b ∈ found.1) (fun _ => True) (m.cutOff cap found.1) := by
    cases cap with
    | none => exact .pure fun _ hb => hb
    | some amount =>
      refine (Within.dropping (family.ordered _ (amount.exceededBy found.1.length))).bind fun exceeded _ => ?_
      cases exceeded with
      | false => exact .pure fun _ hb => hb
      | true =>
        refine (Within.dropping (family.ordered _ amount.counted)).bind fun n _ => ?_
        refine (Within.dropping (DropsOnly.family.log _)).bind fun _ _ => .pure fun b hb => ?_
        exact (Exploration.isPrefix_keep n found.1).subset hb
  refine cut.bind fun ⟨branches, truncated⟩ hbranches => ?_
  refine (Within.dropping (DropsOnly.family.log _)).bind fun _ _ => ?_
  refine (Within.dropping (family.debugging settings)).bind fun on _ => ?_
  cases on with
  | false => exact .pure ⟨hbranches, rfl⟩
  | true =>
    refine (Within.dropping (family.written (Branch.layoutAll? branches))).bind fun _ _ => ?_
    exact (Within.dropping (DropsOnly.family.log _)).bind fun _ _ => .pure ⟨hbranches, rfl⟩

end Explorations

/-- **Paths conserve what there is.**  Let a computation be made of anything that programs get from the
library but replacements of a whole store or heap.  Applied to a state in any scope, every branch that it
gives is the end of a path on which is conserved what the state had.  So is every branch that it drops, also
if it ends in a fault, but for those that host code drops in computations of its own.  The same is true of
the branches and the failures of an exploration.

* Every variable that is bound in the state is bound at the end.
* Every location that a chunk of the state claims is claimed at the end.
* Every chunk at the end stands at the location of a chunk of the state or of one that was added on the
  path. -/
theorem Piecemeal.paths_conserve [Written α] (htrans : Term.Transitive V) {H : Dropped V → Prop}
    {m : Comp V α} (hm : m.Piecemeal H) (s : State V) (σ : Scope V) (c : Context V) :
    (∀ bs, (m.apply (.state s) σ c).answer = .ok bs → ∀ b ∈ bs, m.Conserves s (.ended b)) ∧
    (∀ d ∈ (m.apply (.state s) σ c).dropped, H d ∨ m.Conserves s (.failed d)) ∧
    ∀ cap found, (m.explore cap (.state s) σ c).answer = .ok found →
      (∀ b ∈ found.branches, m.Conserves s (.ended b)) ∧
      ∀ d ∈ found.failures, H d ∨ m.Conserves s (.failed d) := by
  have conserved : ∀ τ, Within τ (fun bs => ∀ b ∈ bs, m.Conserves s (.ended b))
      (fun d => H d ∨ m.Conserves s (.failed d)) (m.apply (.state s)) := fun τ =>
    (hm.charted.apply (.state s) τ).imp (fun bs hbs b hb => (hbs b hb).conserves htrans)
      fun d hd => hd.imp_right (Ends.conserves htrans)
  refine ⟨(conserved σ c).1, (conserved σ c).2, fun cap found hfound => ?_⟩
  -- an exploration applies the computation where it collects what is dropped, and then concludes
  obtain ⟨answered, dropped⟩ := conserved σ.receptive c
  rw [explore_eq] at hfound
  obtain ⟨⟨bs, ds⟩, hcollect, hconclude⟩ := Run.exists_of_answer_bind_ok hfound
  have collected : (m.apply (.state s) σ.receptive c).answer.map
      (·, (m.apply (.state s) σ.receptive c).dropped) = .ok (bs, ds) := hcollect
  cases happly : (m.apply (.state s) σ.receptive c).answer with
  | error e =>
    rw [happly] at collected
    cases collected
  | ok bs' =>
    rw [happly] at collected
    obtain ⟨rfl, rfl⟩ := Prod.mk.inj (Except.ok.inj collected)
    obtain ⟨hbranches, hfailures⟩ := (m.conclude_within cap σ _ _).1 found hconclude
    refine ⟨fun b hb => answered _ happly b (hbranches b hb), fun d hd => dropped d ?_⟩
    rw [hfailures] at hd
    exact hd

section Instances

open Script

/-- A state that binds a variable and has two chunks at one location. -/
def crowded : State (Datum Empty) := ⟨⟨[(.text "x", .int 1)]⟩, twofold.heap⟩

/-- On one path a chunk is added and the heap is compressed; on the other one a variable is bound and another
one, without a binding, is read. -/
def addOrRead : Comp (Datum Empty) Unit :=
  choose.bind fun
    | true => Pure.pure ((addChunk (.chunk ⟨.location (.int 2) (.text "f"), .int 3⟩)).andThen
        (compress (Pure.pure Unifier.maxTerm)))
    | false => Pure.pure ((storeVar (.text "y") (.int 2)).andThen
        ((readVar (.text "z")).map fun _ => Pure.pure ()))

/-- No host code drops anything here. -/
theorem piecemeal_addOrRead : addOrRead.Piecemeal fun _ => False := by
  have family := DropsOnly.family (V := Datum Empty) (D := fun _ => False)
  have given : ∀ {α : Type} {m d : Comp (Datum Empty) α}, m.Piecemeal (fun _ => False) →
      (Pure.pure m : Run (Datum Empty) _).Answers d → d.Piecemeal fun _ => False := by
    rintro α m d hm ⟨σ, c, hd⟩
    exact Except.ok.inj hd ▸ hm
  have compressing : (compress (Pure.pure (Unifier.maxTerm (V := Datum Empty)))).Piecemeal
      fun _ => False := by
    refine .compress (family.pure _) fun u hu vs => ?_
    obtain ⟨σ, c, hu⟩ := hu
    exact Except.ok.inj hu ▸ family.household.maxTerm vs
  refine .bind (.basic .choose) (fun on => ?_) fun on d hd => ?_
  · cases on <;> exact family.pure _
  · cases on with
    | true => exact given (.bind (.addChunk _) (fun _ => family.pure _) fun _ _ => given compressing) hd
    | false =>
      refine given (.bind (.basic (.storeVar _ _)) (fun _ => family.pure _) fun _ _ => given ?_) hd
      exact .map (fun _ => family.pure _) (.basic (.readVar _))

/-- The branch and the failure of an exploration, each at the end of its path. -/
theorem paths_conserve_addOrRead :
    Term.Transitive (Datum Empty) ∧ addOrRead.Piecemeal (fun _ => False) ∧
    ∃ found, (addOrRead.explore none (.state crowded) (.of .guarded) {}).answer = .ok found ∧
      found.branches = [⟨.state ⟨crowded.store, [.chunk ⟨.location (.int 2) (.text "f"), .int 3⟩,
        .chunk ⟨.location (.int 1) (.text "f"), .int 2⟩]⟩, ()⟩] ∧
      found.failures = [⟨.state (crowded.bindLocal (.text "y") (.int 2)), .unbound (.text "z")⟩] ∧
      (∀ b ∈ found.branches, addOrRead.Conserves crowded (.ended b)) ∧
      ∀ d ∈ found.failures, addOrRead.Conserves crowded (.failed d) := by
  have law := piecemeal_addOrRead.paths_conserve Datum.transitive crowded (.of .guarded) {}
  have answered : ∃ found, (addOrRead.explore none (.state crowded) (.of .guarded) {}).answer = .ok found ∧
      found.branches = [⟨.state ⟨crowded.store, [.chunk ⟨.location (.int 2) (.text "f"), .int 3⟩,
        .chunk ⟨.location (.int 1) (.text "f"), .int 2⟩]⟩, ()⟩] ∧
      found.failures = [⟨.state (crowded.bindLocal (.text "y") (.int 2)), .unbound (.text "z")⟩] :=
    ⟨_, rfl, rfl, rfl⟩
  obtain ⟨found, hfound, hbranches, hfailures⟩ := answered
  obtain ⟨ended, failed⟩ := law.2.2 none found hfound
  exact ⟨Datum.transitive, piecemeal_addOrRead, found, hfound, hbranches, hfailures, ended,
    fun d hd => (failed d hd).resolve_left id⟩

/-- A computation that does nothing, given by host code that reads a variable in the empty state before. -/
def readingElsewhere : Comp (Datum Empty) Unit := zero.bind fun _ => do
  let _ ← (readVar (.text "y")).apply (.state .empty)
  return zero

theorem piecemeal_readingElsewhere : readingElsewhere.Piecemeal fun d => d.state = .state .empty := by
  have family := DropsOnly.family (V := Datum Empty) (D := fun d => d.state = .state .empty)
  have read : ((readVar (.text "y") : Comp (Datum Empty) _).apply (.state .empty)).DropsOnly
      fun d => d.state = .state .empty := .apply ((Basic.readVar _).dropsOnly _) fun _ => rfl
  refine .bind (.basic .zero) (fun _ => family.bind read fun _ _ => family.pure _) fun _ d hd => ?_
  obtain ⟨σ, c, hd⟩ := hd
  obtain ⟨_, -, hd⟩ := Run.exists_of_answer_bind_ok hd
  obtain rfl := Except.ok.inj hd
  exact .basic .zero

/-- **What host code drops is the end of no path.**  What is dropped in a state that host code begins in
itself is among the failures of the exploration, and conserves nothing of the state that this began in. -/
theorem readingElsewhere_conserves_nothing :
    readingElsewhere.Piecemeal (fun d => d.state = .state .empty) ∧
    (∃ found, (readingElsewhere.explore none (.state crowded) (.of .guarded) {}).answer = .ok found ∧
      found.branches = [⟨.state crowded, ()⟩] ∧
      found.failures = [⟨.state .empty, .unbound (.text "y")⟩]) ∧
    (crowded.store.find? (.text "x")).isSome ∧
    ¬ ((State.empty : State (Datum Empty)).store.find? (.text "x")).isSome :=
  ⟨piecemeal_readingElsewhere, ⟨_, rfl, rfl, rfl⟩, rfl, by decide⟩

end Instances

end Comp

end SymbolicPaths
