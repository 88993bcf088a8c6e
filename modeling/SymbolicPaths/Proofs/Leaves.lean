import SymbolicPaths.Journal
import Mathlib.Data.List.Perm.Basic
/-!
# Leaves of execution trees

A path of a program ends in one of two ways: with something to go on from, or in a failure.  The paths
of a program form a tree, and what is known of the tree is the list of its leaves from left to right,
if there are finitely many and none of them is a defect.

To go on from a tree is to grow another one on each leaf that is not a failure (`Leaf.grow`).  Growing
is the sequencing of a monad (`Leaf.grow_grow`), and it keeps failures where they are, between the
leaves of their neighbours.  An engine that works level by level has them in another order: first the
failures of the tree that it grows on, then those that have grown (`Leaf.grow_endings`).  The leaves to
go on from come in the same order either way.
-/

namespace SymbolicPaths

/-- How a path ends: with something to go on from, or in a failure. -/
inductive Leaf (V β : Type) where
  | ended (b : β)
  | failed (d : Dropped V)

namespace Leaf

variable {V β γ δ : Type}

/-- What the leaves of a tree leave to go on from, from left to right. -/
def endings (leaves : List (Leaf V β)) : List β := leaves.filterMap fun
  | ended b => some b
  | failed _ => none

/-- The failures among the leaves of a tree, from left to right. -/
def failures (leaves : List (Leaf V β)) : List (Dropped V) := leaves.filterMap fun
  | ended _ => none
  | failed d => some d

@[simp] theorem endings_nil : endings ([] : List (Leaf V β)) = [] := rfl

@[simp] theorem failures_nil : failures ([] : List (Leaf V β)) = [] := rfl

@[simp] theorem endings_ended (b : β) (rest : List (Leaf V β)) :
    endings (ended b :: rest) = b :: endings rest := rfl

@[simp] theorem failures_ended (b : β) (rest : List (Leaf V β)) :
    failures (ended b :: rest) = failures rest := rfl

@[simp] theorem endings_failed (d : Dropped V) (rest : List (Leaf V β)) :
    endings (failed d :: rest) = endings rest := rfl

@[simp] theorem failures_failed (d : Dropped V) (rest : List (Leaf V β)) :
    failures (failed d :: rest) = d :: failures rest := rfl

@[simp] theorem endings_append (front back : List (Leaf V β)) :
    endings (front ++ back) = endings front ++ endings back := List.filterMap_append ..

@[simp] theorem failures_append (front back : List (Leaf V β)) :
    failures (front ++ back) = failures front ++ failures back := List.filterMap_append ..

@[simp] theorem endings_map_ended (bs : List β) :
    endings (bs.map (ended : β → Leaf V β)) = bs := by
  induction bs with
  | nil => rfl
  | cons b rest ih => rw [List.map_cons, endings_ended, ih]

@[simp] theorem failures_map_ended (bs : List β) :
    failures (bs.map (ended : β → Leaf V β)) = [] := by
  induction bs with
  | nil => rfl
  | cons b rest ih => rw [List.map_cons, failures_ended, ih]

/-- A tree has as many leaves as it has endings and failures. -/
theorem length_endings_add_length_failures (leaves : List (Leaf V β)) :
    (endings leaves).length + (failures leaves).length = leaves.length := by
  induction leaves with
  | nil => rfl
  | cons leaf rest ih =>
    cases leaf with
    | ended b =>
      rw [endings_ended, failures_ended, List.length_cons, List.length_cons]
      omega
    | failed d =>
      rw [endings_failed, failures_failed, List.length_cons, List.length_cons]
      omega

/-- The same tree with its endings read as something else. -/
def map (f : β → γ) : Leaf V β → Leaf V γ
  | ended b => ended (f b)
  | failed d => failed d

theorem endings_map (f : β → γ) (leaves : List (Leaf V β)) :
    endings (leaves.map (map f)) = (endings leaves).map f := by
  induction leaves with
  | nil => rfl
  | cons leaf rest ih =>
    cases leaf with
    | ended b => rw [List.map_cons, map, endings_ended, endings_ended, List.map_cons, ih]
    | failed d => rw [List.map_cons, map, endings_failed, endings_failed, ih]

theorem failures_map (f : β → γ) (leaves : List (Leaf V β)) :
    failures (leaves.map (map f)) = failures leaves := by
  induction leaves with
  | nil => rfl
  | cons leaf rest ih =>
    cases leaf with
    | ended b => rw [List.map_cons, map, failures_ended, failures_ended, ih]
    | failed d => rw [List.map_cons, map, failures_failed, failures_failed, ih]

/-! ## Growing -/

/-- The leaves after another tree has grown on each leaf that is not a failure; there are none to speak
of if one of these trees has none. -/
def grow (tree : β → Option (List (Leaf V γ))) (leaves : List (Leaf V β)) :
    Option (List (Leaf V γ)) := do
  let parts ← leaves.mapM fun
    | ended b => tree b
    | failed d => some [failed d]
  return parts.flatten

variable {tree : β → Option (List (Leaf V γ))}

@[simp] theorem grow_nil : grow tree [] = some [] := rfl

theorem grow_ended (b : β) (rest : List (Leaf V β)) : grow tree (ended b :: rest) = do
    let here ← tree b
    let others ← grow tree rest
    return here ++ others := by
  rw [grow, List.mapM_cons]
  simp only [bind_assoc, pure_bind, grow, List.flatten_cons]

theorem grow_failed (d : Dropped V) (rest : List (Leaf V β)) : grow tree (failed d :: rest) = do
    let others ← grow tree rest
    return failed d :: others := by
  rw [grow, List.mapM_cons]
  simp only [grow, Option.bind_eq_bind, Option.bind_assoc, Option.bind_some, Option.pure_def,
    List.flatten_cons, List.singleton_append]

/-- What grows on a single ending. -/
theorem grow_singleton (b : β) : grow tree [ended b] = tree b := by
  rw [grow_ended, grow_nil]
  cases tree b with
  | none => rfl
  | some here => exact congrArg some (List.append_nil here)

theorem grow_append (front back : List (Leaf V β)) : grow tree (front ++ back) = do
    let here ← grow tree front
    let others ← grow tree back
    return here ++ others := by
  induction front with
  | nil => exact (bind_pure _).symm
  | cons leaf front ih =>
    cases leaf with
    | ended b =>
      simp only [List.cons_append, grow_ended, ih, bind_assoc, pure_bind, List.append_assoc]
    | failed d =>
      simp only [List.cons_append, grow_failed, ih, bind_assoc, pure_bind]

/-- Nothing grows where every ending stays an ending. -/
theorem grow_some_ended (leaves : List (Leaf V β)) :
    grow (fun b => some [ended b]) leaves = some leaves := by
  induction leaves with
  | nil => rfl
  | cons leaf rest ih =>
    cases leaf with
    | ended b =>
      rw [grow_ended, ih]
      rfl
    | failed d =>
      rw [grow_failed, ih]
      rfl

/-- To grow trees on what has grown is to grow them on the trees beforehand. -/
theorem grow_grow (next : γ → Option (List (Leaf V δ))) (leaves : List (Leaf V β)) :
    (do grow next (← grow tree leaves)) = grow (fun b => do grow next (← tree b)) leaves := by
  induction leaves with
  | nil => rfl
  | cons leaf rest ih =>
    cases leaf with
    | ended b =>
      rw [grow_ended, grow_ended, ← ih]
      simp only [bind_assoc, pure_bind, grow_append]
      refine bind_congr fun here => ?_
      -- the two trees are independent, so either may be looked at first
      cases grow tree rest with
      | none => cases grow next here <;> rfl
      | some others => rfl
    | failed d =>
      rw [grow_failed, grow_failed, ← ih]
      simp only [bind_assoc, pure_bind, grow_failed]

/-- What grows is finite if it is so on each ending. -/
theorem isSome_grow_iff {leaves : List (Leaf V β)} :
    (grow tree leaves).isSome ↔ ∀ b ∈ endings leaves, (tree b).isSome := by
  induction leaves with
  | nil => exact ⟨fun _ b hb => (nomatch hb), fun _ => rfl⟩
  | cons leaf rest ih =>
    cases leaf with
    | ended b =>
      rw [grow_ended, endings_ended, List.forall_mem_cons, ← ih]
      cases tree b <;> cases grow tree rest <;> simp
    | failed d =>
      rw [grow_failed, endings_failed, ← ih]
      cases grow tree rest <;> simp

/-- **Level by level and path by path.**  Growing on the endings alone gives the endings in the same
order; the failures that are there already come before those that grow, and not between them. -/
theorem grow_endings {leaves : List (Leaf V β)} {grown : List (Leaf V γ)}
    (h : grow tree ((endings leaves).map ended) = some grown) :
    ∃ all, grow tree leaves = some all ∧ endings all = endings grown ∧
      (failures all).Perm (failures leaves ++ failures grown) := by
  induction leaves generalizing grown with
  | nil =>
    obtain rfl : [] = grown := Option.some.inj h
    exact ⟨[], rfl, rfl, .refl _⟩
  | cons leaf rest ih =>
    cases leaf with
    | ended b =>
      rw [endings_ended, List.map_cons, grow_ended] at h
      obtain ⟨here, hhere, h⟩ := Option.bind_eq_some_iff.1 h
      obtain ⟨others, hothers, h⟩ := Option.bind_eq_some_iff.1 h
      obtain rfl : here ++ others = grown := Option.some.inj h
      obtain ⟨all, hall, sameEndings, sameFailures⟩ := ih hothers
      refine ⟨here ++ all, ?_, ?_, ?_⟩
      · rw [grow_ended, hhere, hall]
        rfl
      · rw [endings_append, endings_append, sameEndings]
      · rw [failures_append, failures_append, failures_ended]
        refine (sameFailures.append_left (failures here)).trans ?_
        rw [← List.append_assoc, ← List.append_assoc]
        exact List.perm_append_comm.append_right _
    | failed d =>
      obtain ⟨all, hall, sameEndings, sameFailures⟩ := ih h
      refine ⟨failed d :: all, ?_, sameEndings, ?_⟩
      · rw [grow_failed, hall]
        rfl
      · rw [failures_failed, failures_failed, List.cons_append]
        exact sameFailures.cons d

end Leaf

end SymbolicPaths
