import Mathlib.Data.Bool.AllAny
import Mathlib.Data.List.DropRight
import Mathlib.Data.List.Forall2
import SymbolicPaths.Script.Datum.Term
import SymbolicPaths.Run
/-!
# Numerals, and the cap of an environment

The reader of numerals goes through a text once and says neither what a numeral looks like nor what it stands
for.  Both are said here without it.  A `Text.Numeral` is a sign and digits in groups; it is written out by
joining the groups (`Numeral.text`), and the digits of all groups together are what it stands for
(`Numeral.value`).  A text denotes a number if it is such a numeral between white space (`Text.Denotes`).

A plain text is read as a number just if it denotes that number (`Text.Denotes.parse?_eq`,
`Text.denotes_of_parse?`).  Beyond plain text more can be read: there are digits of other scripts, and other
white space.

So it can be said exactly what an environment makes of its cap (`Settings.cap_read_exactly`).
-/

namespace SymbolicPaths

namespace Text

/-! ## What a numeral is -/

/-- What may stand in front of the digits. -/
inductive Sign where
  | absent
  | plus
  | minus

namespace Sign

/-- The sign as it is written. -/
def text : Sign → List Char
  | absent => []
  | plus => ['+']
  | minus => ['-']

/-- Whether the sign is a minus. -/
def negative : Sign → Bool
  | minus => true
  | _ => false

/-- The number with a sign. -/
def applied (σ : Sign) (n : Nat) : Int := if σ.negative then -(n : Int) else n

end Sign

/-- A numeral taken apart: a sign, and decimal digits in one group or several, none of which is empty. -/
structure Numeral where
  sign : Sign
  groups : List (List Char)
  groups_ne_nil : groups ≠ []
  ne_nil : ∀ g ∈ groups, g ≠ []
  isDigit : ∀ c ∈ groups.flatten, c.isDigit

namespace Numeral

/-- The numeral written out, its groups joined by single underscores. -/
def text (N : Numeral) : List Char := N.sign.text ++ ['_'].intercalate N.groups

/-- The number that the numeral stands for. -/
def value (N : Numeral) : Int := N.sign.applied (Nat.ofDigitChars 10 N.groups.flatten 0)

/-- The numeral of one group of digits, without a sign. -/
def unbroken (digits : List Char) (h : digits ≠ []) (hd : ∀ c ∈ digits, c.isDigit) : Numeral where
  sign := .absent
  groups := [digits]
  groups_ne_nil := List.cons_ne_nil _ _
  ne_nil := List.forall_mem_singleton.2 h
  isDigit c hc := hd c (by simpa using hc)

end Numeral

/-- Every character is white space. -/
def AllWhitespace (s : List Char) : Prop := ∀ c ∈ s, c.isWhitespace = true

instance (s : List Char) : Decidable (AllWhitespace s) :=
  List.decidableBAll _ s

/-- The text is a numeral between white space, and this is the number that it stands for. -/
def Denotes (raw : String) (n : Int) : Prop :=
  ∃ (before after : List Char) (N : Numeral), AllWhitespace before ∧ AllWhitespace after ∧
    raw.toList = before ++ N.text ++ after ∧ N.value = n

/-- The printable characters of ASCII with the space, the tab and the characters that end a line. -/
def IsPlain (c : Char) : Prop := (0x20 ≤ c.toNat ∧ c.toNat ≤ 0x7e) ∨ c = '\t' ∨ c = '\r' ∨ c = '\n'

instance : DecidablePred IsPlain := fun c => inferInstanceAs (Decidable ((_ ∧ _) ∨ c = '\t' ∨ c = '\r' ∨ c = '\n'))

/-! ## Characters -/

section Characters

variable {c : Char} {d : Nat}

theorem IsPlain.toNat_lt (h : IsPlain c) : c.toNat < 0x80 := by
  rcases h with h | rfl | rfl | rfl
  · omega
  · decide
  · decide
  · decide

/-- In plain text nothing else is blank. -/
theorem IsPlain.isBlank_iff (h : IsPlain c) : isBlank c = true ↔ c.isWhitespace = true := by
  refine ⟨fun blank => ?_, fun white => ?_⟩
  · rcases h with h | rfl | rfl | rfl
    · simp only [isBlank, isPadding, isInformationSeparator, Bool.or_eq_true, Bool.and_eq_true,
        decide_eq_true_eq, beq_iff_eq] at blank
      obtain rfl : c = ' ' := Char.toNat_inj.1 (show c.toNat = 0x20 by omega)
      rfl
    · rfl
    · rfl
    · rfl
  · rw [isBlank, isPadding_of_isWhitespace white, Bool.true_or]

/-- Nor is there other padding. -/
theorem IsPlain.isPadding_iff (h : IsPlain c) : isPadding c = true ↔ c.isWhitespace = true :=
  ⟨fun padding => h.isBlank_iff.1 (by rw [isBlank, padding, Bool.true_or]), isPadding_of_isWhitespace⟩

/-- Nor are there other digits. -/
theorem IsPlain.digit?_eq_some_iff (h : IsPlain c) : digit? c = some d ↔ c.isDigit = true ∧ d = c.toNat - 0x30 := by
  have zeros : ∀ z ∈ digitZeros, z = 0x30 ∨ 0x80 ≤ z := by decide
  refine ⟨fun hd => ?_, fun ⟨hc, hd⟩ => by rw [digit?_of_isDigit hc, hd]⟩
  obtain ⟨z, found, hz⟩ := Option.map_eq_some_iff.1 hd
  have within := List.find?_some found
  simp only [Bool.and_eq_true, decide_eq_true_eq] at within
  have hlt := h.toNat_lt
  obtain rfl : z = 0x30 := (zeros z (List.mem_of_find?_eq_some found)).resolve_right (by omega)
  refine ⟨Char.isDigit_iff_toNat.2 ⟨within.1, ?_⟩, hz.symm⟩
  show c.toNat ≤ 57
  omega

theorem not_isBlank_of_isDigit (h : c.isDigit = true) : isBlank c = false := by
  obtain ⟨low, high⟩ := Char.isDigit_iff_toNat.1 h
  change 48 ≤ c.toNat at low
  change c.toNat ≤ 57 at high
  rw [Bool.eq_false_iff]
  intro blank
  simp only [isBlank, isPadding, isInformationSeparator, Bool.or_eq_true, Bool.and_eq_true,
    decide_eq_true_eq, beq_iff_eq] at blank
  omega

end Characters

/-! ## Digits in groups -/

/-- The characters are digits, and these are their values. -/
abbrev Valued (digits : List Char) (values : List Nat) : Prop :=
  List.Forall₂ (fun c d => digit? c = some d) digits values

section Groups

variable {c : Char} {d : Nat} {s digits : List Char} {values : List Nat} {groups : List (List Char)}

theorem digit?_underscore : digit? '_' = none := by decide

theorem groups?_singleton (hd : digit? c = some d) : groups? [c] = some [d] := by
  rw [groups?, hd]
  rfl

/-- A digit and an underscore come in front of what starts with a digit again. -/
theorem groups?_cons_underscore (hd : digit? c = some d) (hs : groups? s = some values) :
    groups? (c :: '_' :: s) = some (d :: values) := by
  rw [groups?, hd, hs]
  rfl

/-- A digit comes in front of what starts with a digit. -/
theorem groups?_cons_cons {c' : Char} {d' : Nat} (hd : digit? c = some d) (hd' : digit? c' = some d')
    (hs : groups? (c' :: s) = some values) : groups? (c :: c' :: s) = some (d :: values) := by
  have digit : c' ≠ '_' := by
    rintro rfl
    rw [digit?_underscore] at hd'
    cases hd'
  rw [groups?, hd, hs]
  · rfl
  · exact fun h => List.cons_ne_nil _ _ h
  · exact fun rest h => digit (List.cons.inj h).1

/-- **Groups of digits are read** if none of them is empty. -/
theorem groups?_intercalate : ∀ {groups : List (List Char)} {values : List Nat}, groups ≠ [] →
    (∀ g ∈ groups, g ≠ []) → Valued groups.flatten values → groups? (['_'].intercalate groups) = some values
  | [], _, h, _, _ => absurd rfl h
  | [] :: _, _, _, h, _ => absurd rfl (h [] (List.mem_cons_self ..))
  | [[c]], _, _, _, hv => by
    obtain ⟨d, rest, hd, hrest, rfl⟩ := List.forall₂_cons_left_iff.1 hv
    rw [List.forall₂_nil_left_iff.1 hrest, List.intercalate_singleton]
    exact groups?_singleton hd
  | [c] :: g :: gs, _, _, h, hv => by
    obtain ⟨d, rest, hd, hrest, rfl⟩ := List.forall₂_cons_left_iff.1 hv
    rw [List.intercalate_cons_cons]
    exact groups?_cons_underscore hd
      (groups?_intercalate (List.cons_ne_nil g gs) (List.forall_mem_cons.1 h).2 hrest)
  | (c :: c' :: g) :: gs, _, _, h, hv => by
    obtain ⟨d, rest, hd, hrest, rfl⟩ := List.forall₂_cons_left_iff.1 hv
    obtain ⟨d', _, hd', -, -⟩ := List.forall₂_cons_left_iff.1 hrest
    have shorter : groups? (['_'].intercalate ((c' :: g) :: gs)) = some rest :=
      groups?_intercalate (List.cons_ne_nil _ gs)
        (List.forall_mem_cons.2 ⟨List.cons_ne_nil c' g, (List.forall_mem_cons.1 h).2⟩) hrest
    rw [List.intercalate_cons_cons_left] at shorter ⊢
    rw [List.intercalate_cons_cons_left]
    exact groups?_cons_cons hd hd' shorter
termination_by groups => groups.flatten.length

/-- **Nothing but groups of digits is read.** -/
theorem exists_groups_of_groups? (h : groups? s = some values) : ∃ groups : List (List Char), groups ≠ [] ∧
    (∀ g ∈ groups, g ≠ []) ∧ Valued groups.flatten values ∧ s = ['_'].intercalate groups := by
  fun_induction groups? s generalizing values with
  | case1 => cases h
  | case2 c =>
    obtain ⟨d, hd, h⟩ := Option.bind_eq_some_iff.1 h
    obtain rfl := Option.some.inj h
    exact ⟨[[c]], List.cons_ne_nil _ _, List.forall_mem_singleton.2 (List.cons_ne_nil c []), .cons hd .nil,
      List.intercalate_singleton.symm⟩
  | case3 c rest ih =>
    obtain ⟨d, hd, h⟩ := Option.bind_eq_some_iff.1 h
    obtain ⟨behind, hbehind, h⟩ := Option.bind_eq_some_iff.1 h
    obtain rfl := Option.some.inj h
    obtain ⟨groups, hgroups, hne, hv, rfl⟩ := ih hbehind
    refine ⟨[c] :: groups, List.cons_ne_nil _ _, List.forall_mem_cons.2 ⟨List.cons_ne_nil c [], hne⟩,
      .cons hd hv, ?_⟩
    rw [List.intercalate_cons_of_ne_nil hgroups]
    rfl
  | case4 c rest _ _ ih =>
    obtain ⟨d, hd, h⟩ := Option.bind_eq_some_iff.1 h
    obtain ⟨behind, hbehind, h⟩ := Option.bind_eq_some_iff.1 h
    obtain rfl := Option.some.inj h
    obtain ⟨groups, hgroups, hne, hv, rfl⟩ := ih hbehind
    obtain ⟨g, gs, rfl⟩ := List.exists_cons_of_ne_nil hgroups
    refine ⟨(c :: g) :: gs, List.cons_ne_nil _ _,
      List.forall_mem_cons.2 ⟨List.cons_ne_nil c g, (List.forall_mem_cons.1 hne).2⟩, .cons hd hv, ?_⟩
    rw [List.intercalate_cons_cons_left]

/-- The digits of the groups stand in the text in their order. -/
theorem flatten_sublist_intercalate : ∀ groups : List (List Char), groups.flatten.Sublist (['_'].intercalate groups)
  | [] => List.Sublist.refl _
  | [g] => by simp
  | g :: g' :: gs => by
    rw [List.flatten_cons, List.intercalate_cons_cons, List.append_assoc]
    exact (List.Sublist.refl g).append ((flatten_sublist_intercalate (g' :: gs)).cons '_')

/-- In a text of joined groups there are digits and underscores. -/
theorem mem_intercalate : ∀ {groups : List (List Char)}, c ∈ ['_'].intercalate groups →
    c = '_' ∨ c ∈ groups.flatten
  | [], h => absurd h List.not_mem_nil
  | [g], h => .inr (by simpa using h)
  | g :: g' :: gs, h => by
    rw [List.intercalate_cons_cons, List.mem_append, List.mem_append, List.mem_singleton] at h
    rw [List.flatten_cons, List.mem_append]
    rcases h with (h | h) | h
    · exact .inr (.inl h)
    · exact .inl h
    · exact (mem_intercalate h).imp_right .inr

/-- Digits from 0 to 9 have their usual values. -/
theorem valued_of_isDigit (h : ∀ c ∈ digits, c.isDigit = true) :
    Valued digits (digits.map fun c => c.toNat - 0x30) := by
  rw [Valued, List.forall₂_map_right_iff, List.forall₂_same]
  exact fun c hc => digit?_of_isDigit (h c hc)

/-- And plain digits are these. -/
theorem Valued.of_isPlain (plain : ∀ c ∈ digits, IsPlain c) (h : Valued digits values) :
    (∀ c ∈ digits, c.isDigit = true) ∧ values = digits.map fun c => c.toNat - 0x30 := by
  induction h with
  | nil => exact ⟨List.forall_mem_nil _, rfl⟩
  | cons hd _ ih =>
    obtain ⟨hc, others⟩ := List.forall_mem_cons.1 plain
    obtain ⟨hc, rfl⟩ := hc.digit?_eq_some_iff.1 hd
    obtain ⟨isDigit, rfl⟩ := ih others
    exact ⟨List.forall_mem_cons.2 ⟨hc, isDigit⟩, rfl⟩

/-- Digits stand for the number that they are read as. -/
theorem ofDigits_map (digits : List Char) :
    ofDigits (digits.map fun c => c.toNat - 0x30) = Nat.ofDigitChars 10 digits 0 := by
  rw [ofDigits, List.foldl_map]
  rfl

end Groups

/-! ## Padding and signs -/

section Parts

variable {c : Char} {s before core after rest : List Char}

/-- The padding around what has none in it is trimmed. -/
theorem trimPadding_append (hb : ∀ c ∈ before, isPadding c = true) (hc : ∀ c ∈ core, isPadding c = false)
    (ha : ∀ c ∈ after, isPadding c = true) : trimPadding (before ++ core ++ after) = core := by
  have kept : ∀ {l : List Char}, (∀ c ∈ l, isPadding c = false) → l.dropWhile isPadding = l := fun hl =>
    List.dropWhile_eq_self_iff.2 fun hpos => by rw [hl _ (List.getElem_mem hpos)]; exact Bool.false_ne_true
  have front : (before ++ core ++ after).dropWhile isPadding = core ++ after ∨ core = [] := by
    rw [List.append_assoc, List.dropWhile_append_of_pos hb]
    cases core with
    | nil => exact .inr rfl
    | cons c core =>
      rw [List.cons_append, List.dropWhile_cons_of_neg (by simp [hc c (List.mem_cons_self ..)])]
      exact .inl rfl
  rcases front with front | rfl
  · rw [trimPadding, front, List.reverse_append,
      List.dropWhile_append_of_pos fun c h => ha c (List.mem_reverse.1 h),
      kept fun c h => hc c (List.mem_reverse.1 h), List.reverse_reverse]
  · have nothing : (before ++ [] ++ after).dropWhile isPadding = [] := by
      rw [List.append_nil, List.dropWhile_eq_nil_iff]
      exact List.forall_mem_append.2 ⟨hb, ha⟩
    rw [trimPadding, nothing]
    rfl

/-- Around what is left there was padding only. -/
theorem exists_trimPadding (s : List Char) : ∃ before after, s = before ++ trimPadding s ++ after ∧
    (∀ c ∈ before, isPadding c = true) ∧ ∀ c ∈ after, isPadding c = true := by
  refine ⟨s.takeWhile isPadding, (s.dropWhile isPadding).rtakeWhile isPadding, ?_,
    fun c hc => List.mem_takeWhile_imp hc, fun c hc => List.mem_rtakeWhile_imp hc⟩
  have back : trimPadding s ++ (s.dropWhile isPadding).rtakeWhile isPadding = s.dropWhile isPadding :=
    List.rdropWhile_append_rtakeWhile
  rw [List.append_assoc, back, List.takeWhile_append_dropWhile]

theorem unsigned_of_isDigit (h : c.isDigit = true) : unsigned (c :: rest) = (false, c :: rest) := by
  rw [unsigned]
  · rintro rest' hr
    obtain ⟨rfl, -⟩ := List.cons.inj hr
    exact absurd h (by decide)
  · rintro rest' hr
    obtain ⟨rfl, -⟩ := List.cons.inj hr
    exact absurd h (by decide)

/-- The sign in front of a digit is taken off. -/
theorem unsigned_sign (σ : Sign) (h : c.isDigit = true) :
    unsigned (σ.text ++ c :: rest) = (σ.negative, c :: rest) := by
  cases σ with
  | absent => exact unsigned_of_isDigit h
  | plus => rfl
  | minus => rfl

/-- What is taken off is a sign. -/
theorem exists_sign (s : List Char) : ∃ (σ : Sign) (rest : List Char), unsigned s = (σ.negative, rest) ∧
    s = σ.text ++ rest := by
  fun_cases unsigned s with
  | case1 rest => exact ⟨.minus, rest, rfl, rfl⟩
  | case2 rest => exact ⟨.plus, rest, rfl, rfl⟩
  | case3 => exact ⟨.absent, s, rfl, rfl⟩

end Parts

/-! ## Reading a numeral -/

namespace Numeral

variable (N : Numeral)

/-- The text of a numeral is a sign and a digit, and what follows. -/
theorem exists_digit : ∃ c rest, c.isDigit = true ∧ ['_'].intercalate N.groups = c :: rest := by
  obtain ⟨g, gs, hg⟩ := List.exists_cons_of_ne_nil N.groups_ne_nil
  have filled := N.ne_nil g (hg ▸ List.mem_cons_self ..)
  obtain ⟨c, rest, rfl⟩ := List.exists_cons_of_ne_nil filled
  have first : c ∈ N.groups.flatten := by
    rw [hg]
    exact List.mem_cons_self ..
  refine ⟨c, ['_'].intercalate (rest :: gs), N.isDigit c first, ?_⟩
  rw [hg, List.intercalate_cons_cons_left]

/-- No padding stands in a numeral. -/
theorem isPadding_of_mem_text : ∀ c ∈ N.text, isPadding c = false := by
  intro c hc
  rcases List.mem_append.1 hc with hc | hc
  · cases hσ : N.sign with
    | absent =>
      rw [hσ] at hc
      cases hc
    | plus | minus =>
      rw [hσ] at hc
      obtain rfl := List.mem_singleton.1 hc
      rfl
  · rcases mem_intercalate hc with rfl | hc
    · rfl
    · have blank := not_isBlank_of_isDigit (N.isDigit c hc)
      rw [isBlank, Bool.or_eq_false_iff] at blank
      exact blank.1

/-- The digits of a numeral are among those of a text that it stands in. -/
theorem length_digits_le {before after s : List Char} (h : s = before ++ N.text ++ after) :
    N.groups.flatten.length ≤ s.countP Char.isDigit := by
  have inside : N.groups.flatten.Sublist s := by
    rw [h, text, List.append_assoc, List.append_assoc]
    exact (flatten_sublist_intercalate N.groups).trans
      ((List.sublist_append_left _ after).trans
        ((List.sublist_append_right N.sign.text _).trans (List.sublist_append_right before _)))
  rw [← List.countP_eq_length.2 N.isDigit]
  exact inside.countP_le

end Numeral

variable {raw : String} {n : Int}

/-- What follows the sign is read as a number of that sign. -/
theorem parse?_eq_map {σ : Sign} {rest : List Char} (h : unsigned (trimPadding raw.toList) = (σ.negative, rest)) :
    parse? raw = (magnitude? rest).map σ.applied := by
  rw [parse?, h]
  cases hm : magnitude? rest with
  | none => simp only [hm]; rfl
  | some m => simp only [hm]; rfl

/-- **What denotes a number is read as that number**, unless it has too many digits. -/
theorem Denotes.parse?_eq (few : raw.toList.countP Char.isDigit ≤ digitLimit) (h : Denotes raw n) :
    parse? raw = some n := by
  obtain ⟨before, after, N, hb, ha, hraw, rfl⟩ := h
  have trimmed : trimPadding raw.toList = N.text := by
    rw [hraw]
    exact trimPadding_append (fun c hc => isPadding_of_isWhitespace (hb c hc)) N.isPadding_of_mem_text
      fun c hc => isPadding_of_isWhitespace (ha c hc)
  obtain ⟨c, rest, hc, htext⟩ := N.exists_digit
  have split : unsigned N.text = (N.sign.negative, ['_'].intercalate N.groups) := by
    rw [Numeral.text, htext]
    exact unsigned_sign N.sign hc
  have limit : N.groups.flatten.length ≤ digitLimit := (N.length_digits_le hraw).trans few
  have magnitude : magnitude? (['_'].intercalate N.groups)
      = some (Nat.ofDigitChars 10 N.groups.flatten 0) := by
    rw [magnitude?, groups?_intercalate N.groups_ne_nil N.ne_nil (valued_of_isDigit N.isDigit)]
    show (if (N.groups.flatten.map _).length ≤ digitLimit then some _ else none) = _
    rw [List.length_map, if_pos limit, ofDigits_map]
  rw [parse?_eq_map (trimmed ▸ split), magnitude]
  rfl

/-- **What is read as a number denotes it**, if the text is plain. -/
theorem denotes_of_parse? (plain : ∀ c ∈ raw.toList, IsPlain c) (h : parse? raw = some n) : Denotes raw n := by
  obtain ⟨before, after, hraw, hb, ha⟩ := exists_trimPadding raw.toList
  obtain ⟨σ, rest, split, htext⟩ := exists_sign (trimPadding raw.toList)
  rw [parse?_eq_map split] at h
  obtain ⟨m, hm, rfl⟩ := Option.map_eq_some_iff.1 h
  obtain ⟨values, hvalues, hm⟩ := Option.bind_eq_some_iff.1 hm
  obtain ⟨groups, hne, filled, valued, rfl⟩ := exists_groups_of_groups? hvalues
  have whole : raw.toList = before ++ (σ.text ++ ['_'].intercalate groups) ++ after := by
    rw [← htext]
    exact hraw
  have parts := plain
  rw [whole, List.forall_mem_append, List.forall_mem_append, List.forall_mem_append] at parts
  obtain ⟨⟨plainBefore, -, plainGroups⟩, plainAfter⟩ := parts
  obtain ⟨isDigit, rfl⟩ := valued.of_isPlain fun c hc =>
    plainGroups c ((flatten_sublist_intercalate groups).subset hc)
  refine ⟨before, after, ⟨σ, groups, hne, filled, isDigit⟩, fun c hc => (plainBefore c hc).isPadding_iff.1 (hb c hc),
    fun c hc => (plainAfter c hc).isPadding_iff.1 (ha c hc), whole, ?_⟩
  split at hm
  · obtain rfl := Option.some.inj hm
    rw [Numeral.value, ofDigits_map]
  · cases hm

/-- What denotes a number is not blank. -/
theorem Denotes.not_allBlank (h : Denotes raw n) : allBlank raw = false := by
  obtain ⟨before, after, N, -, -, hraw, -⟩ := h
  obtain ⟨c, rest, hc, htext⟩ := N.exists_digit
  rw [allBlank, List.all_eq_false]
  refine ⟨c, ?_, by rw [not_isBlank_of_isDigit hc]; exact Bool.false_ne_true⟩
  rw [hraw, Numeral.text, htext]
  simp

/-- A plain text is blank if there is nothing but white space in it. -/
theorem allBlank_iff (plain : ∀ c ∈ raw.toList, IsPlain c) : allBlank raw = true ↔ AllWhitespace raw.toList := by
  rw [allBlank, List.all_eq_true]
  exact forall₂_congr fun c hc => (plain c hc).isBlank_iff

/-- A number below the first one that is too long has no more digits than a numeral may have. -/
theorem length_toDigits_le {m : Nat} (h : m < firstTooLong) : (Nat.toDigits 10 m).length ≤ digitLimit := by
  have positive : 0 < digitLimit := by decide
  unfold firstTooLong at h
  -- the limit is given another name, so that nothing tries to compute the power
  generalize digitLimit = k at h positive ⊢
  exact (Nat.length_toDigits_le_iff (by decide) positive).2 h

/-- **The numeral of a number denotes it**, and has no more digits than are read. -/
theorem denotes_numeral {m : Nat} (h : numeral? m = some raw) :
    Denotes raw m ∧ raw.toList.countP Char.isDigit ≤ digitLimit := by
  rw [numeral?] at h
  split at h
  · rename_i hm
    obtain rfl : m.repr = raw := Option.some.inj h
    have digits : ∀ c ∈ Nat.toDigits 10 m, c.isDigit = true := fun c hc =>
      Nat.isDigit_of_mem_toDigits (by decide) (by decide) hc
    rw [Nat.toList_repr]
    refine ⟨⟨[], [], .unbroken _ Nat.toDigits_ne_nil digits, List.forall_mem_nil _, List.forall_mem_nil _, ?_, ?_⟩,
      List.countP_le_length.trans (length_toDigits_le hm)⟩
    · simp [Numeral.text, Numeral.unbroken, Sign.text]
    · simp [Numeral.value, Numeral.unbroken, Sign.applied, Sign.negative]
  · cases h

end Text

/-! ## The cap of an environment -/

namespace Settings

open Text

variable {env : Environment} {raw : String}

/-- The settings of an environment with a cap are those of this cap and of its switch. -/
theorem ofEnvironment_of_cap (h : env.lookup capVariable = some raw) : ofEnvironment env =
    (parseCap raw).map fun cap => ⟨cap, ((env.lookup debugVariable).map isOn).getD false⟩ := by
  rw [ofEnvironment, h]
  show (parseCap raw >>= _) = _
  cases parseCap raw <;> rfl

/-- The number that a text is read as is the cap unless it is negative. -/
theorem parseCap_of_some {n : Int} (blank : allBlank raw = false) (h : parse? raw = some n) :
    parseCap raw = if n < 0 then .error (.negativeCap n) else .ok (some n) := by
  rw [parseCap, blank, h]
  rfl

/-- **What becomes of a text for a cap.**  It is blank, or it denotes no number and is refused, or it denotes one
number and no other, which is the cap unless it is negative. -/
theorem parseCap_cases (plain : ∀ c ∈ raw.toList, IsPlain c) (few : raw.toList.countP Char.isDigit ≤ digitLimit) :
    (AllWhitespace raw.toList ∧ (∀ n, ¬ Denotes raw n) ∧ parseCap raw = .ok none) ∨
    (¬ AllWhitespace raw.toList ∧ (∀ n, ¬ Denotes raw n) ∧ parseCap raw = .error (.malformedCap raw)) ∨
    (¬ AllWhitespace raw.toList ∧ ∃ n, (∀ m, Denotes raw m ↔ m = n) ∧
      parseCap raw = if n < 0 then .error (.negativeCap n) else .ok (some n)) := by
  rw [← allBlank_iff plain]
  cases blank : allBlank raw with
  | true =>
    refine .inl ⟨rfl, fun n h => ?_, by rw [parseCap, blank]; rfl⟩
    rw [h.not_allBlank] at blank
    cases blank
  | false =>
    refine .inr ?_
    cases hn : parse? raw with
    | none =>
      refine .inl ⟨Bool.false_ne_true, fun n h => ?_, by rw [parseCap, blank, hn]; rfl⟩
      rw [h.parse?_eq few] at hn
      cases hn
    | some n =>
      refine .inr ⟨Bool.false_ne_true, n, fun m => ⟨fun h => ?_, fun h => h ▸ denotes_of_parse? plain hn⟩,
        parseCap_of_some blank hn⟩
      rw [h.parse?_eq few] at hn
      exact Option.some.inj hn

section Plain

variable (plain : ∀ c ∈ raw.toList, IsPlain c) (few : raw.toList.countP Char.isDigit ≤ digitLimit)

include plain few

/-- There is no cap just if the text is blank. -/
theorem parseCap_eq_none_iff : parseCap raw = .ok none ↔ AllWhitespace raw.toList := by
  rcases parseCap_cases plain few with ⟨white, -, h⟩ | ⟨black, -, h⟩ | ⟨black, n, -, h⟩
  · exact ⟨fun _ => white, fun _ => h⟩
  · exact ⟨fun h' => (nomatch h.symm.trans h'), fun white => absurd white black⟩
  · refine ⟨fun h' => ?_, fun white => absurd white black⟩
    rw [h] at h'
    split at h' <;> cases h'

/-- A number is the cap just if the text denotes it and it is not negative. -/
theorem parseCap_eq_some_iff {n : Int} : parseCap raw = .ok (some n) ↔ Denotes raw n ∧ 0 ≤ n := by
  rcases parseCap_cases plain few with ⟨-, none, h⟩ | ⟨-, none, h⟩ | ⟨-, m, one, h⟩
  · exact ⟨fun h' => (nomatch h.symm.trans h'), fun h' => absurd h'.1 (none n)⟩
  · exact ⟨fun h' => (nomatch h.symm.trans h'), fun h' => absurd h'.1 (none n)⟩
  · rw [h, one]
    constructor
    · intro h'
      split at h'
      · cases h'
      · obtain rfl := Option.some.inj (Except.ok.inj h')
        exact ⟨rfl, by omega⟩
    · rintro ⟨rfl, nonneg⟩
      rw [if_neg (Int.not_lt.2 nonneg)]

/-- What is neither is a problem. -/
theorem exists_problem (black : ¬ AllWhitespace raw.toList) (negative : ∀ n, Denotes raw n → n < 0) :
    ∃ p, parseCap raw = .error p := by
  rcases parseCap_cases plain few with ⟨white, -, -⟩ | ⟨-, -, h⟩ | ⟨-, m, one, h⟩
  · exact absurd white black
  · exact ⟨_, h⟩
  · rw [if_pos (negative m ((one m).2 rfl))] at h
    exact ⟨_, h⟩

end Plain

/-- No cap is negative. -/
theorem nonneg_of_parseCap {n : Int} (h : parseCap raw = .ok (some n)) : 0 ≤ n := by
  unfold parseCap at h
  split at h
  · cases h
  · split at h
    · cases h
    · split at h
      · cases h
      · obtain rfl := Option.some.inj (Except.ok.inj h)
        omega

theorem nonneg_of_ofEnvironment {s : Settings} {n : Int} (h : ofEnvironment env = .ok s)
    (hn : s.maxBranches = some n) : 0 ≤ n := by
  cases hraw : env.lookup capVariable with
  | none =>
    rw [ofEnvironment, hraw] at h
    obtain rfl := Except.ok.inj h
    cases hn
  | some raw =>
    rw [ofEnvironment_of_cap hraw] at h
    cases hcap : parseCap raw with
    | error p =>
      rw [hcap] at h
      cases h
    | ok cap =>
      rw [hcap] at h
      obtain rfl := Except.ok.inj h
      exact nonneg_of_parseCap (hcap.trans (congrArg Except.ok hn))

/-- The message of a problem starts with the name of the variable. -/
theorem Problem.exists_message (p : Problem) : ∃ rest, p.message = capVariable ++ rest := by
  cases p with
  | malformedCap raw => exact ⟨_, String.append_assoc ..⟩
  | negativeCap cap => exact ⟨_, String.append_assoc ..⟩

/-- The numeral of a number is the cap of that number. -/
theorem parseCap_numeral {m : Nat} (h : numeral? m = some raw) : parseCap raw = .ok (some m) := by
  obtain ⟨denotes, few⟩ := denotes_numeral h
  rw [parseCap_of_some denotes.not_allBlank (denotes.parse?_eq few), if_neg (Int.not_lt.2 (Int.natCast_nonneg m))]

/-- **The cap of an environment is read exactly.**  Let an environment hold a plain text for the cap, with no
more digits than a numeral may have.

* The environment has settings without a cap just if the text is blank.
* It has settings with a cap just if the text is a numeral, between white space, for a number that is not
  negative.  This number is the cap.
* In all other cases, where the text is no numeral or the numeral of a negative number, there are no settings.
  To load them is a defect of the family of bad values, and its message starts with the name of the variable.

So no environment has settings with a negative cap.  Zero with a minus is zero, and the numeral of a number is
read as that number. -/
theorem cap_read_exactly (V : Type) [Term V] (h : env.lookup capVariable = some raw)
    (plain : ∀ c ∈ raw.toList, IsPlain c) (few : raw.toList.countP Char.isDigit ≤ digitLimit) :
    ((ofEnvironment env).map maxBranches = .ok none ↔ AllWhitespace raw.toList) ∧
    (∀ n, (ofEnvironment env).map maxBranches = .ok (some n) ↔ Denotes raw n ∧ 0 ≤ n) ∧
    (¬ AllWhitespace raw.toList → (∀ n, Denotes raw n → n < 0) →
      ∃ p, (Run.load env : Run V Settings) = Run.reject (.settings p) ∧
        (Defect.settings p : Defect V).kind = .value ∧
        ∃ rest, (Defect.settings p : Defect V).message? = .ok (capVariable ++ rest)) ∧
    (∀ (env : Environment) s n, ofEnvironment env = .ok s → s.maxBranches = some n → 0 ≤ n) ∧
    (ofEnvironment (env.set capVariable "-0")).map maxBranches = .ok (some 0) ∧
    ∀ (m : Nat) text, numeral? m = some text →
      (ofEnvironment (env.set capVariable text)).map maxBranches = .ok (some (m : Int)) := by
  have cap : ∀ {env : Environment} {raw}, env.lookup capVariable = some raw →
      (ofEnvironment env).map maxBranches = parseCap raw := fun h => by
    rw [ofEnvironment_of_cap h]
    cases parseCap _ <;> rfl
  have refused : ∀ {p}, parseCap raw = .error p → (Run.load env : Run V Settings) = Run.reject (.settings p) :=
    fun hp => by
      rw [Run.load, ofEnvironment_of_cap h, hp]
      rfl
  rw [cap h]
  refine ⟨parseCap_eq_none_iff plain few, fun n => parseCap_eq_some_iff plain few, fun black negative => ?_,
    fun _ _ _ => nonneg_of_ofEnvironment, (cap (env.lookup_set ..)).trans rfl,
    fun m text hm => (cap (env.lookup_set ..)).trans (parseCap_numeral hm)⟩
  obtain ⟨p, hp⟩ := exists_problem plain few black negative
  obtain ⟨rest, hrest⟩ := p.exists_message
  exact ⟨p, refused hp, rfl, rest, congrArg Except.ok hrest⟩

/-- White space, a sign, a leading zero and an underscore make no difference to the cap. -/
theorem cap_read_exactly_grouped :
    let raw := "\t+0_12 \n"
    let env : Environment := [(debugVariable, "no"), (capVariable, raw)]
    env.lookup capVariable = some raw ∧ (∀ c ∈ raw.toList, IsPlain c) ∧
      raw.toList.countP Char.isDigit ≤ digitLimit ∧ Denotes raw 12 ∧
      (ofEnvironment env).map maxBranches = .ok (some 12) := by
  intro raw env
  have found : env.lookup capVariable = some raw := by decide
  have plain : ∀ c ∈ raw.toList, IsPlain c := List.all_iff_forall_prop.1 (by decide)
  have few : raw.toList.countP Char.isDigit ≤ digitLimit := by decide
  have denotes : Denotes raw 12 := ⟨['\t'], [' ', '\n'],
    ⟨.plus, [['0'], ['1', '2']], by decide, by decide, List.all_eq_true.1 (by decide)⟩,
    by decide, by decide, by decide, by decide⟩
  obtain ⟨-, capped, -⟩ := cap_read_exactly (Script.Datum Empty) found plain few
  exact ⟨found, plain, few, denotes, (capped 12).2 ⟨denotes, by decide⟩⟩

end Settings

end SymbolicPaths
