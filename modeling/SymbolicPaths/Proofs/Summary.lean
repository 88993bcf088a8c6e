import SymbolicPaths.Script.Datum.Term
import SymbolicPaths.Proofs.Conclusion
/-!
# What an exploration says of what it found

An exploration returns what the cap keeps of the branches that were found, says whether there were more
than the cap allows, and is said to have failed altogether if it returns no branch.  Both are said of the
branches that are left, and a cap may be any number.

* Where no cap is set, or a positive one, both say what they seem to say of the computation: whether a
  branch is missing, and whether it has none.
* Zero leaves nothing, whatever was found; and a negative cap counts from the end, so it leaves nothing of
  too few branches.  Then all is said to have failed though there are branches.
* A negative cap is always exceeded, also by no branches at all of which none is missing.

`Comp.explore_flags` says exactly when each of the two is said.
-/

namespace SymbolicPaths

variable {V α β : Type}

/-! ## Cutting off -/

namespace Exploration

variable {n : Int} {found : List β}

/-- What a limit keeps, if there is one. -/
def kept (limit : Option Int) (found : List β) : List β := limit.elim found (keep · found)

/-- Whether there are more than a limit allows. -/
def exceeds (limit : Option Int) (found : List β) : Bool :=
  limit.any fun n => decide (n < (found.length : Int))

theorem exceeds_some (n : Int) (found : List β) :
    exceeds (some n) found = decide (n < (found.length : Int)) := rfl

theorem isPrefix_kept (limit : Option Int) (found : List β) : kept limit found <+: found := by
  cases limit with
  | none => exact List.prefix_refl found
  | some n => exact isPrefix_keep n found

theorem length_keep (n : Int) (found : List β) : ((keep n found).length : Int)
    = if n < 0 then max 0 (found.length + n) else min n found.length := by
  rw [keep]
  split <;> rw [List.length_take] <;> omega

/-- Nothing is missing exactly if the number is right. -/
theorem keep_eq_iff : keep n found = found ↔ ((keep n found).length : Int) = found.length :=
  ⟨fun h => by rw [h], fun h => (isPrefix_keep n found).eq_of_length (by omega)⟩

/-- A limit that is not exceeded keeps everything. -/
theorem kept_of_not_exceeded (h : ¬ n < (found.length : Int)) : kept (some n) found = found :=
  keep_eq_iff.2 (by rw [length_keep, if_neg (by omega)]; omega)

/-- A cap that does not cut anything off is not exceeded, unless it is negative. -/
theorem exceeds_iff (limit : Option Int) (found : List β) : exceeds limit found = true ↔
    kept limit found ≠ found ∨ found = [] ∧ ∃ n, limit = some n ∧ n < 0 := by
  cases limit with
  | none => simp [exceeds, kept]
  | some n =>
    have exceeded : exceeds (some n) found = true ↔ n < found.length := by
      rw [exceeds_some, decide_eq_true_iff]
    have negative : (∃ k, some n = some k ∧ k < 0) ↔ n < 0 := by simp
    have missing : kept (some n) found ≠ found ↔ ((keep n found).length : Int) ≠ found.length :=
      not_congr keep_eq_iff
    rw [exceeded, negative, missing, ← List.length_eq_zero_iff, length_keep]
    split <;> omega

/-- Nothing is kept if there is nothing, or if the cap is zero, or negative and as large as what there
is. -/
theorem kept_eq_nil_iff (limit : Option Int) (found : List β) : kept limit found = [] ↔
    found = [] ∨ ∃ n, limit = some n ∧ (n = 0 ∨ n < 0 ∧ found.length ≤ -n) := by
  cases limit with
  | none => simp [kept]
  | some n =>
    have shape : (∃ k, some n = some k ∧ (k = 0 ∨ k < 0 ∧ found.length ≤ -k)) ↔
        n = 0 ∨ n < 0 ∧ found.length ≤ -n := by simp
    have counted : kept (some n) found = [] ↔ ((keep n found).length : Int) = 0 := by
      rw [Int.natCast_eq_zero, List.length_eq_zero_iff]
      rfl
    rw [shape, counted, ← List.length_eq_zero_iff, length_keep]
    split <;> omega

end Exploration

/-! ## The limit in force -/

namespace Comp

variable [Term V]

/-- What a cap comes to where the settings are looked at: the number that is given, else that of the
settings, if there is one. -/
def Limits (cap : Option (Amount V)) (c : Context V) (limit : Option Int) : Prop :=
  ∃ amount, (effectiveCap cap (.of .guarded) c).answer = .ok amount ∧
    Option.Rel (fun a n => a.value = .ok n) amount limit

namespace Limits

variable {cap : Option (Amount V)} {c : Context V} {limit limit' : Option Int}

/-- A number that is given is the limit. -/
theorem number (n : Int) (c : Context V) : Limits (some (.number n)) c (some n) :=
  ⟨some (.number n), rfl, .some rfl⟩

/-- Else the settings say what it is. -/
theorem loaded {t : Settings} (h : c.primed.settings = some (.loaded t)) : Limits none c t.maxBranches := by
  refine ⟨t.maxBranches.map .number, ?_, ?_⟩
  · rw [effectiveCap, Run.bind_apply_of_ok (Run.settings_apply_of_primed h _)]
    rfl
  · cases t.maxBranches with
    | none => exact .none
    | some n => exact .some rfl

theorem unique (h : Limits cap c limit) (h' : Limits cap c limit') : limit = limit' := by
  obtain ⟨amount, ha, hl⟩ := h
  obtain ⟨amount', ha', hl'⟩ := h'
  obtain rfl : amount = amount' := Except.ok.inj (ha.symm.trans ha')
  cases hl with
  | none =>
    cases hl' with
    | none => rfl
  | some hn =>
    cases hl' with
    | some hn' => exact congrArg some (Except.ok.inj (hn.symm.trans hn'))

end Limits

theorem effectiveCap_answer (cap : Option (Amount V)) (σ : Scope V) (c : Context V) :
    (effectiveCap cap σ c).answer = (effectiveCap cap (.of .guarded) c).answer := by
  cases cap with
  | some a => rfl
  | none =>
    have looked := Run.settings_apply σ c
    rw [effectiveCap]
    cases hi : (Run.settings (.of .guarded) c).answer with
    | error e => rw [Run.answer_bind_of_error hi, Run.answer_bind_of_error (by rw [looked, hi])]
    | ok i =>
      rw [Run.answer_bind_of_ok hi, Run.answer_bind_of_ok (a := i) (by rw [looked, hi])]
      cases i.cap? <;> rfl

variable {m : Comp V α} {cap : Option (Amount V)} {σ : Scope V} {c : Context V}

/-- The warning that there are more branches than a limit allows. -/
def warn (m : Comp V α) (limit : Option Int) (found : List (Branch V α)) : Run V Unit :=
  limit.elim (Pure.pure ()) fun n =>
    if n < (found.length : Int) then Run.log (.truncated m.name found.length n) else Pure.pure ()

/-- Under a limit that is a number all that can go wrong is the warning. -/
theorem cutOff_eq {amount : Option (Amount V)} {limit : Option Int}
    (h : Option.Rel (fun a n => a.value = .ok n) amount limit) (found : List (Branch V α)) :
    m.cutOff amount found = do
      m.warn limit found
      return (Exploration.kept limit found, Exploration.exceeds limit found) := by
  cases h with
  | none => rfl
  | @some a n value =>
    have compared : Run.ordered ">" (a.exceededBy found.length)
        = (Pure.pure (decide (n < (found.length : Int))) : Run V Bool) := by
      rw [Amount.exceededBy, value]
      rfl
    have counted : Run.ordered ">" a.counted = (Pure.pure n : Run V Int) := by
      rw [Amount.counted, value]
      rfl
    rw [cutOff, compared, pure_bind, Exploration.exceeds_some, warn, Option.elim]
    by_cases more : n < (found.length : Int)
    · rw [if_pos (decide_eq_true more), counted, pure_bind, if_pos more, decide_eq_true more]
      rfl
    · rw [if_neg (by simpa using more), if_neg more, decide_eq_false more, pure_bind,
        Exploration.kept_of_not_exceeded more]

/-- Branches that were cut off are what a number kept of them, and it was compared with how many there
were. -/
theorem exists_limit_of_cutOff {amount : Option (Amount V)} {found : List (Branch V α)}
    {kept : List (Branch V α) × Bool} (h : (m.cutOff amount found σ c).answer = .ok kept) :
    ∃ limit, Option.Rel (fun a n => a.value = .ok n) amount limit ∧
      kept = (Exploration.kept limit found, Exploration.exceeds limit found) := by
  have numbered : ∃ limit, Option.Rel (fun a n => a.value = .ok n) amount limit := by
    cases amount with
    | none => exact ⟨none, .none⟩
    | some a =>
      obtain ⟨exceeded, compared, -⟩ := Run.exists_of_answer_bind_ok h
      cases value : a.value with
      | ok n => exact ⟨some n, .some value⟩
      | error kind =>
        rw [Amount.exceededBy, value] at compared
        cases compared
  obtain ⟨limit, hlimit⟩ := numbered
  rw [cutOff_eq hlimit] at h
  obtain ⟨_, -, h⟩ := Run.exists_of_answer_bind_ok h
  exact ⟨limit, hlimit, (Except.ok.inj h).symm⟩

variable [Written α]

/-- What an exploration says is decided by what was found and the limit in force. -/
theorem exists_limit_of_conclude {found : List (Branch V α) × List (Dropped V)} {e : Exploration V α}
    (h : (m.conclude cap found σ c).answer = .ok e) :
    ∃ limit, Limits cap c limit ∧
      e = ⟨Exploration.kept limit found.1, found.2, Exploration.exceeds limit found.1⟩ := by
  obtain ⟨amount, inForce, h⟩ := Run.exists_of_answer_bind_ok h
  obtain ⟨kept, cut, h⟩ := Run.exists_of_answer_bind_ok h
  obtain ⟨limit, hlimit, rfl⟩ := exists_limit_of_cutOff cut
  refine ⟨limit, ⟨amount, (effectiveCap_answer cap σ c).symm.trans inForce, hlimit⟩, ?_⟩
  obtain ⟨_, -, h⟩ := Run.exists_of_answer_bind_ok h
  obtain ⟨on, -, h⟩ := Run.exists_of_answer_bind_ok h
  cases on with
  | false => exact (Except.ok.inj h).symm
  | true =>
    obtain ⟨_, -, h⟩ := Run.exists_of_answer_bind_ok h
    obtain ⟨_, -, h⟩ := Run.exists_of_answer_bind_ok h
    exact (Except.ok.inj h).symm

/-- The record of a limit that is exceeded. -/
def cutRecords (m : Comp V α) (limit : Option Int) (found : List (Branch V α)) : List (Event V) :=
  limit.elim [] fun n =>
    if n < (found.length : Int) then [.entry (.truncated m.name found.length n)] else []

omit [Term V] [Written α] in
theorem warn_apply (limit : Option Int) (records : ∀ r, σ.records r = .ok ()) (found : List (Branch V α)) :
    m.warn limit found σ c = ⟨.ok (), c, m.cutRecords limit found⟩ := by
  cases limit with
  | none => rfl
  | some n =>
    rw [warn, cutRecords, Option.elim, Option.elim]
    split
    · exact Run.log_apply_of_ok c (records _)
    · rfl

omit [Written α] in
theorem cutOff_apply {amount : Option (Amount V)} {limit : Option Int}
    (h : Option.Rel (fun a n => a.value = .ok n) amount limit) (records : ∀ r, σ.records r = .ok ())
    (found : List (Branch V α)) : m.cutOff amount found σ c
      = ⟨.ok (Exploration.kept limit found, Exploration.exceeds limit found), c,
          m.cutRecords limit found⟩ := by
  rw [cutOff_eq h, Run.bind_apply_of_ok (warn_apply limit records found)]
  exact congrArg (Outcome.mk _ _) (List.append_nil _)

omit [Written α] in
/-- To look for the limit in force leaves nothing behind but that the settings have been read. -/
theorem effectiveCap_apply {limit : Option Int} {i : Installed V} (hlimit : Limits cap c limit)
    (hi : c.primed.settings = some i) (σ : Scope V) : ∃ amount d, effectiveCap cap σ c = ⟨.ok amount, d, []⟩ ∧
      d.primed = c.primed ∧ Option.Rel (fun a n => a.value = .ok n) amount limit := by
  obtain ⟨amount, inForce, hlimit⟩ := hlimit
  cases cap with
  | some a =>
    obtain rfl : some a = amount := Except.ok.inj inForce
    exact ⟨_, c, rfl, rfl, hlimit⟩
  | none =>
    have settings := Run.settings_apply_of_primed hi
    rw [effectiveCap, Run.bind_apply_of_ok (settings _)] at inForce
    refine ⟨amount, c.primed, ?_, Context.primed_primed c, hlimit⟩
    rw [effectiveCap, Run.bind_apply_of_ok (settings _)]
    cases hcap : i.cap? with
    | error kind =>
      rw [hcap] at inForce
      cases inForce
    | ok found =>
      rw [hcap] at inForce
      obtain rfl : found = amount := Except.ok.inj inForce
      rfl

omit [Written α] in
/-- What is said of what was found, where log records are kept. -/
theorem summarize_apply {limit : Option Int} {i : Installed V} (hlimit : Limits cap c limit)
    (records : ∀ r, σ.records r = .ok ()) (hi : c.primed.settings = some i)
    (found : List (Branch V α) × List (Dropped V)) : ∃ d, m.summarize cap found σ c
      = ⟨.ok ⟨Exploration.kept limit found.1, found.2, Exploration.exceeds limit found.1⟩, d,
          m.cutRecords limit found.1 ++
            [.entry (.explored m.name (Exploration.kept limit found.1).length found.2.length)]⟩ ∧
      d.primed = c.primed := by
  obtain ⟨amount, d, looked, primed, hlimit⟩ := effectiveCap_apply hlimit hi σ
  have cut := cutOff_apply (m := m) (c := d) hlimit records found.1
  have logged := Run.log_apply_of_ok d
    (records (.explored m.name (Exploration.kept limit found.1).length found.2.length))
  have said := Run.bind_apply_of_ok logged fun _ => (Pure.pure ⟨Exploration.kept limit found.1, found.2,
    Exploration.exceeds limit found.1⟩ : Run V (Exploration V α))
  refine ⟨d, (Run.bind_apply_of_ok looked _).trans ?_, primed⟩
  rw [Run.bind_apply_of_ok cut]
  exact congrArg (fun o : Outcome V (Exploration V α) =>
    (⟨o.answer, o.context, m.cutRecords limit found.1 ++ o.events⟩ : Outcome V (Exploration V α))) said

/-- An exploration has a result where log records are kept, the settings can be read, and what is returned can be
set out if steps are logged. -/
theorem exists_explore_answer {limit : Option Int} {i : Installed V} {on : Bool} {s : Subject V}
    {found : List (Branch V α)} (direct : (m.apply s σ.receptive c).answer = .ok found)
    (hlimit : Limits cap (m.apply s σ.receptive c).context limit) (records : ∀ r, σ.records r = .ok ())
    (hi : (m.apply s σ.receptive c).context.primed.settings = some i) (hon : i.debug? = .ok on)
    (laidOut : on = true → ∃ text, Branch.layoutAll? (Exploration.kept limit found) = .ok text) :
    ∃ e, (m.explore cap s σ c).answer = .ok e := by
  obtain ⟨d, summarized, primed⟩ := summarize_apply (m := m) hlimit records hi
    (found, (m.apply s σ.receptive c).dropped)
  have debugging := Run.debugging_apply_of_primed (primed ▸ hi) hon σ
  have displayed : (m.display (Exploration.kept limit found) σ d).answer = .ok () := by
    rw [display, Run.bind_apply_of_ok debugging]
    cases on with
    | false => rfl
    | true =>
      obtain ⟨text, ht⟩ := laidOut rfl
      have logged := Run.log_apply_of_ok d.primed (records (.outcome m.name text))
      rw [if_pos rfl, ht]
      exact congrArg Outcome.answer logged
  refine ⟨⟨Exploration.kept limit found, (m.apply s σ.receptive c).dropped,
    Exploration.exceeds limit found⟩, ?_⟩
  rw [explore_answer_of_ok rfl direct, conclude_eq, Run.bind_apply_of_ok summarized]
  exact Run.answer_bind_of_ok displayed _

/-- The end of an exploration where log records are kept and steps are not logged. -/
theorem conclude_apply {limit : Option Int} {i : Installed V} (hlimit : Limits cap c limit)
    (records : ∀ r, σ.records r = .ok ()) (hi : c.primed.settings = some i) (hon : i.debug? = .ok false)
    (found : List (Branch V α) × List (Dropped V)) : m.conclude cap found σ c
      = ⟨.ok ⟨Exploration.kept limit found.1, found.2, Exploration.exceeds limit found.1⟩, c.primed,
          m.cutRecords limit found.1 ++
            [.entry (.explored m.name (Exploration.kept limit found.1).length found.2.length)]⟩ := by
  obtain ⟨d, summarized, primed⟩ := summarize_apply (m := m) hlimit records hi found
  have quiet := Run.debugging_apply_of_primed (primed ▸ hi) hon σ
  have displayed : m.display (Exploration.kept limit found.1) σ d = ⟨.ok (), c.primed, []⟩ := by
    rw [display, Run.bind_apply_of_ok quiet, primed]
    rfl
  rw [conclude_eq, Run.bind_apply_of_ok summarized, Run.bind_apply_of_ok displayed]
  exact congrArg (Outcome.mk _ _) (List.append_nil _)

variable (m cap)

/-- **What the two flags say.**  Whatever is explored, from any state, in any scope and under any cap:

* The limit is the number that is given, else the one of the settings where the computation leaves off, if
  they have one.
* The branches returned are the first ones of those that the computation gives there.  It is said that there
  were more exactly if one is missing, or if there were none and the cap is negative.
* All is said to have failed exactly if the computation has no branch there, or the cap is zero, or it is
  negative and as large as the number of branches.
* So under no cap and under a positive one both flags tell the truth about the computation.
* And there is a result, if the computation answers, what stands for a cap is a number, log records are kept
  and steps are not logged. -/
theorem explore_flags (s : Subject V) (σ : Scope V) (c : Context V) :
    (∀ e, (m.explore cap s σ c).answer = .ok e → ∃ found limit,
      (m.apply s σ.receptive c).answer = .ok found ∧
      Limits cap (m.apply s σ.receptive c).context limit ∧
      (∀ n, cap = some (.number n) → limit = some n) ∧
      (∀ t, cap = none → (m.apply s σ.receptive c).context.primed.settings = some (.loaded t) →
        limit = t.maxBranches) ∧
      e.branches <+: found ∧
      (e.truncated = true ↔ e.branches ≠ found ∨ found = [] ∧ ∃ n, limit = some n ∧ n < 0) ∧
      (e.allFailed = true ↔
        found = [] ∨ ∃ n, limit = some n ∧ (n = 0 ∨ n < 0 ∧ found.length ≤ -n)) ∧
      ((∀ n, limit = some n → 0 < n) →
        (e.truncated = true ↔ e.branches ≠ found) ∧ (e.allFailed = true ↔ found = []))) ∧
    ∀ found limit i, (m.apply s σ.receptive c).answer = .ok found →
      Limits cap (m.apply s σ.receptive c).context limit → (∀ r, σ.records r = .ok ()) →
      (m.apply s σ.receptive c).context.primed.settings = some i → i.debug? = .ok false →
      ∃ e, (m.explore cap s σ c).answer = .ok e := by
  refine ⟨fun e h => ?_, fun found limit i happly hlimit records hi hon => ?_⟩
  · cases happly : (m.apply s σ.receptive c).answer with
    | error f =>
      rw [explore_answer_of_error rfl happly] at h
      cases h
    | ok found =>
      rw [explore_answer_of_ok rfl happly] at h
      obtain ⟨limit, hlimit, rfl⟩ := exists_limit_of_conclude h
      have more := Exploration.exceeds_iff limit found
      have empty := List.isEmpty_iff.trans (Exploration.kept_eq_nil_iff limit found)
      refine ⟨found, limit, rfl, hlimit, fun n hn => ?_, fun t hn ht => ?_,
        Exploration.isPrefix_kept limit found, more, empty,
        fun positive => ⟨more.trans ?_, empty.trans ?_⟩⟩
      · subst hn
        exact hlimit.unique (.number n _)
      · subst hn
        exact hlimit.unique (.loaded ht)
      · exact or_iff_left fun ⟨_, n, hn, negative⟩ => absurd (positive n hn) (by omega)
      · exact or_iff_left fun ⟨n, hn, nothing⟩ => absurd (positive n hn) (by omega)
  · rw [explore_answer_of_ok rfl happly, conclude_apply hlimit records hi hon]
    exact ⟨_, rfl⟩

section Instances

open Script

/-- A fork with two branches. -/
def bothSides : Comp (Datum Empty) (Datum Empty) := choose.relabel .bool

/-- Under a cap of one a fork is explored with one branch, and it is said that there are more and not that
all failed.  Without a cap neither is said of it, and of a read that finds no variable it is said that all
failed. -/
theorem explore_flags_bothSides :
    (∃ e, (bothSides.explore (some (.number 1)) (.state .empty) (.of .guarded) {}).answer = .ok e ∧
      e.branches = [⟨.state .empty, .bool true⟩] ∧ e.truncated = true ∧ ¬ e.allFailed = true) ∧
    (∃ e, (bothSides.explore none (.state .empty) (.of .guarded) {}).answer = .ok e ∧
      ¬ e.allFailed = true) ∧
    ∃ e, ((readVar (.text "x") : Comp (Datum Empty) _).explore none (.state .empty) (.of .guarded)
        {}).answer = .ok e ∧ e.allFailed = true := by
  refine ⟨?_, ?_, ?_⟩
  · obtain ⟨flags, answers⟩ := explore_flags bothSides (some (.number 1)) (.state .empty) (.of .guarded) {}
    obtain ⟨e, he⟩ := answers [⟨.state .empty, .bool true⟩, ⟨.state .empty, .bool false⟩] (some 1)
      (.loaded {}) rfl (.number 1 _) (fun _ => rfl) rfl rfl
    obtain ⟨found, limit, hfound, -, given, -, -, -, -, honest⟩ := flags e he
    obtain rfl := given 1 rfl
    obtain rfl : [⟨.state .empty, .bool true⟩, ⟨.state .empty, .bool false⟩] = found :=
      Except.ok.inj hfound
    obtain ⟨missing, failed⟩ := honest fun n hn => by cases hn; decide
    have first : e.branches = [⟨.state .empty, .bool true⟩] :=
      congrArg Exploration.branches (Except.ok.inj he).symm
    exact ⟨e, he, first, missing.2 (by rw [first]; simp), fun all => by simpa using failed.1 all⟩
  · obtain ⟨flags, answers⟩ := explore_flags bothSides none (.state .empty) (.of .guarded) {}
    obtain ⟨e, he⟩ := answers [⟨.state .empty, .bool true⟩, ⟨.state .empty, .bool false⟩] none
      (.loaded {}) rfl (.loaded (t := {}) rfl) (fun _ => rfl) rfl rfl
    obtain ⟨found, limit, hfound, -, -, configured, -, -, -, honest⟩ := flags e he
    obtain rfl : limit = none := configured {} rfl rfl
    obtain rfl : [⟨.state .empty, .bool true⟩, ⟨.state .empty, .bool false⟩] = found :=
      Except.ok.inj hfound
    obtain ⟨-, failed⟩ := honest fun n hn => by cases hn
    exact ⟨e, he, fun all => by simpa using failed.1 all⟩
  · obtain ⟨flags, answers⟩ := explore_flags (readVar (.text "x") : Comp (Datum Empty) _) none
      (.state .empty) (.of .guarded) {}
    obtain ⟨e, he⟩ := answers [] none (.loaded {}) rfl (.loaded (t := {}) rfl) (fun _ => rfl) rfl rfl
    obtain ⟨found, limit, hfound, -, -, -, -, -, failed, -⟩ := flags e he
    exact ⟨e, he, failed.2 (.inl (Except.ok.inj hfound).symm)⟩

/-- **The flags mislead.**  Under a cap of zero, and under one of minus two, a fork is explored as if all
had failed, though nothing failed and both sides are there.  Under a cap of minus one a read that finds no
variable is explored as if there were more branches, though there are none. -/
theorem explore_flags_mislead :
    (bothSides.apply (.state .empty) (.of .guarded) {}).answer
      = .ok [⟨.state .empty, .bool true⟩, ⟨.state .empty, .bool false⟩] ∧
    ((bothSides.explore (some (.number 0)) (.state .empty) (.of .guarded) {}).answer
        = .ok ⟨[], [], true⟩ ∧
      (bothSides.explore (some (.number (-2))) (.state .empty) (.of .guarded) {}).answer
        = .ok ⟨[], [], true⟩ ∧
      (⟨[], [], true⟩ : Exploration (Datum Empty) (Datum Empty)).allFailed = true) ∧
    ((readVar (.text "x") : Comp (Datum Empty) _).apply (.state .empty) (.of .guarded) {}).answer
      = .ok [] ∧
    ((readVar (.text "x") : Comp (Datum Empty) _).explore (some (.number (-1))) (.state .empty)
      (.of .guarded) {}).answer = .ok ⟨[], [⟨.state .empty, .unbound (.text "x")⟩], true⟩ :=
  ⟨rfl, ⟨rfl, rfl, rfl⟩, rfl, rfl⟩

end Instances

end Comp

end SymbolicPaths
