import Imap.Proofs.Rule.Exclusion

/-!
# Rules that decide within a line

A rule made of words and runs of plain bytes cannot pass over a byte that is not plain. Once such a
byte has arrived the rule has decided, and what it left unread starts in front of that byte or
earlier. Line ends are the bytes for which this matters: on a line that has ended no such rule asks
for more.

A rule that ends in the word for a line end has more to say: on a line that has ended it is
malformed, or it takes the line with its end and no byte behind it.
-/

namespace Imap

variable {α β : Type} {plain : UInt8 → Bool} {tails : Set Bytes}

/-- A definite outcome that leaves the tail unread, and before it only plain bytes. -/
def Outcome.Spares (plain : UInt8 → Bool) (tail : Bytes) : Outcome α → Prop
  | .matched _ rest => ∃ kept, (∀ byte ∈ kept, plain byte = true) ∧ kept ++ tail = rest
  | .failed .malformed => True
  | .failed (.incomplete _) => False

/-- The rule decides on plain bytes followed by one of the tails, and leaves the tail unread. -/
def Rule.WithinLine (plain : UInt8 → Bool) (tails : Set Bytes) (rule : Rule α) : Prop :=
  ∀ line, (∀ byte ∈ line, plain byte = true) → ∀ tail ∈ tails,
    (rule.run (line ++ tail)).Spares plain tail

theorem Outcome.Spares.map {tail : Bytes} {outcome : Outcome α}
    (spares : outcome.Spares plain tail) (change : α → β) :
    (outcome.map change).Spares plain tail := by
  cases outcome with
  | matched value rest => exact spares
  | failed failure =>
    cases failure with
    | malformed => trivial
    | incomplete needed => exact spares

/-- Plain bytes in front of an input stay within its plain part. -/
theorem Bytes.kept_of_append_eq {read rest line tail : Bytes}
    (allPlain : ∀ byte ∈ read, plain byte = true) (tailEnds : tail ∈ startingOutside plain)
    (same : read ++ rest = line ++ tail) : ∃ kept, read ++ kept = line ∧ kept ++ tail = rest := by
  rcases List.append_eq_append_iff.mp same with ⟨kept, lineEq, restEq⟩ | ⟨beyond, readEq, tailEq⟩
  · exact ⟨kept, lineEq.symm, restEq.symm⟩
  · rcases tailEnds with ⟨next, others, rfl, nextOutside⟩
    rcases beyond with _ | ⟨first, beyond⟩
    · rw [List.append_nil] at readEq
      rw [List.nil_append] at tailEq
      exact ⟨[], by rw [readEq, List.append_nil], tailEq⟩
    · obtain ⟨rfl, -⟩ := List.cons_eq_cons.mp tailEq
      have nextPlain := allPlain next (by simp [readEq])
      rw [nextOutside] at nextPlain
      cases nextPlain

namespace Rule

theorem WithinLine.not_incomplete {rule : Rule α} (within : rule.WithinLine plain tails)
    {line tail : Bytes} (linePlain : ∀ byte ∈ line, plain byte = true) (isTail : tail ∈ tails)
    (needed : Option Nat) : rule.run (line ++ tail) ≠ .failed (.incomplete needed) := by
  intro waits
  have spares := within line linePlain tail isTail
  rw [waits] at spares
  exact spares

theorem WithinLine.subset {rule : Rule α} {fewer : Set Bytes}
    (within : rule.WithinLine plain tails) (contained : fewer ⊆ tails) :
    rule.WithinLine plain fewer :=
  fun line linePlain tail isTail => within line linePlain tail (contained isTail)

/-! ## Tokens -/

/-- A match of plain bytes spares the tail. -/
private theorem spares_matched {line tail read rest : Bytes} {value : α}
    (linePlain : ∀ byte ∈ line, plain byte = true) (readPlain : ∀ byte ∈ read, plain byte = true)
    (tailEnds : tail ∈ Bytes.startingOutside plain) (same : read ++ rest = line ++ tail) :
    (Outcome.matched value rest).Spares plain tail := by
  obtain ⟨kept, rfl, rfl⟩ := Bytes.kept_of_append_eq readPlain tailEnds same
  exact ⟨kept, fun byte member => linePlain byte (List.mem_append_right read member), rfl⟩

/-- An input with an end is no beginning of plain bytes. -/
private theorem not_all_plain {line tail : Bytes}
    (tailEnds : tail ∈ Bytes.startingOutside plain) :
    ¬ ∀ byte ∈ line ++ tail, plain byte = true := by
  intro allPlain
  rcases tailEnds with ⟨next, others, rfl, nextOutside⟩
  have nextPlain := allPlain next (by simp)
  rw [nextOutside] at nextPlain
  cases nextPlain

theorem withinLine_word (ends : tails ⊆ Bytes.startingOutside plain) {literal : Bytes}
    (literalPlain : ∀ byte ∈ literal, plain byte = true) :
    (word literal).WithinLine plain tails := by
  intro line linePlain tail isTail
  cases answer : (word literal).run (line ++ tail) with
  | matched value rest =>
    obtain ⟨-, same⟩ := run_word_eq_matched_iff.mp answer
    exact spares_matched linePlain literalPlain (ends isTail) same
  | failed failure =>
    cases failure with
    | malformed => trivial
    | incomplete needed =>
      obtain ⟨-, missing, -, shape⟩ := run_word_eq_incomplete_iff.mp answer
      subst shape
      have inputPlain : ∀ byte ∈ line ++ tail, plain byte = true :=
        fun byte isIn => literalPlain byte (List.mem_append_left missing isIn)
      exact not_all_plain (ends isTail) inputPlain

theorem withinLine_bytesIn (ends : tails ⊆ Bytes.startingOutside plain) {member : UInt8 → Bool}
    (memberPlain : ∀ byte, member byte = true → plain byte = true) :
    (bytesIn member).WithinLine plain tails := by
  intro line linePlain tail isTail
  cases answer : (bytesIn member).run (line ++ tail) with
  | matched value rest =>
    obtain ⟨-, allMember, -, same⟩ := run_bytesIn_eq_matched_iff.mp answer
    have valuePlain : ∀ byte ∈ value, plain byte = true :=
      fun byte isIn => memberPlain byte (allMember byte isIn)
    exact spares_matched linePlain valuePlain (ends isTail) same
  | failed failure =>
    cases failure with
    | malformed => trivial
    | incomplete needed =>
      obtain ⟨-, allMember⟩ := run_bytesIn_eq_incomplete_iff.mp answer
      exact not_all_plain (ends isTail) fun byte isIn => memberPlain byte (allMember byte isIn)

/-- A word in any case, if no spelling of it holds a byte that is not plain. -/
theorem withinLine_wordAnyCase (ends : tails ⊆ Bytes.startingOutside plain) {literal : Bytes}
    (spellingsPlain : ∀ byte, Byte.lower byte ∈ literal.lower → plain byte = true) :
    (wordAnyCase literal).WithinLine plain tails := by
  have plainOfLower : ∀ {spelling : Bytes}, (∀ byte ∈ spelling.lower, byte ∈ literal.lower) →
      ∀ byte ∈ spelling, plain byte = true := fun contained byte isIn =>
    spellingsPlain byte (contained _ (List.mem_map_of_mem isIn))
  intro line linePlain tail isTail
  cases answer : (wordAnyCase literal).run (line ++ tail) with
  | matched value rest =>
    obtain ⟨sameLower, same⟩ := run_wordAnyCase_eq_matched_iff.mp answer
    exact spares_matched linePlain (plainOfLower fun _ => (sameLower ▸ ·)) (ends isTail) same
  | failed failure =>
    cases failure with
    | malformed => trivial
    | incomplete needed =>
      obtain ⟨-, -, isBeginning⟩ := run_wordAnyCase_eq_incomplete_iff.mp answer
      exact not_all_plain (ends isTail) (plainOfLower fun _ => isBeginning.mem)

/-- A rule whose first bytes are neither plain nor start a tail refuses every line. -/
theorem withinLine_of_beginsWith {rule : Rule α} {first : UInt8 → Bool}
    (begins : rule.BeginsWith first) (linesOutside : ∀ byte, plain byte = true → first byte = false)
    (tailsOutside : tails ⊆ Bytes.startingOutside first) : rule.WithinLine plain tails := by
  intro line linePlain tail isTail
  have startsOutside : line ++ tail ∈ Bytes.startingOutside first := by
    cases line with
    | nil => exact tailsOutside isTail
    | cons byte line =>
      exact Bytes.cons_mem_startingOutside
        (linesOutside byte (linePlain byte List.mem_cons_self)) (line ++ tail)
  rw [begins.run_outside startsOutside]
  trivial

/-- The bytes before a class that starts every tail. -/
theorem withinLine_bytesBefore {stop : UInt8 → Bool}
    (stops : tails ⊆ Bytes.startingOutside fun byte => !stop byte)
    (ends : tails ⊆ Bytes.startingOutside plain)
    (plainOrStop : ∀ byte, plain byte = true → stop byte = false) :
    (bytesBefore stop).WithinLine plain tails := by
  intro line linePlain tail isTail
  have lineMatch : (bytesBefore stop).run (line ++ tail) = .matched line tail :=
    run_bytesBefore_eq_matched_iff.mpr
      ⟨fun byte isIn => plainOrStop byte (linePlain byte isIn), stops isTail, rfl⟩
  rw [lineMatch]
  exact spares_matched linePlain linePlain (ends isTail) rfl

theorem withinLine_skipOptional (ends : tails ⊆ Bytes.startingOutside plain) {byte : UInt8}
    (bytePlain : plain byte = true) : (skipOptional byte).WithinLine plain tails := by
  intro line linePlain tail isTail
  have tailEnds := ends isTail
  cases answer : (skipOptional byte).run (line ++ tail) with
  | matched value rest =>
    rcases run_skipOptional_eq_matched_iff.mp answer with isByte | ⟨isSame, -⟩
    · exact spares_matched linePlain (List.forall_mem_singleton.mpr bytePlain) tailEnds isByte.symm
    · exact ⟨line, linePlain, isSame⟩
  | failed failure =>
    obtain ⟨-, isEmpty⟩ := run_skipOptional_eq_failed_iff.mp answer
    have allPlain : ∀ byte ∈ line ++ tail, plain byte = true := by simp [isEmpty]
    exact absurd allPlain (not_all_plain tailEnds)

/-! ## Sequences and choices -/

theorem withinLine_pure (value : α) : (pure value : Rule α).WithinLine plain tails := by
  intro line linePlain tail isTail
  exact ⟨line, linePlain, rfl⟩

theorem withinLine_reject : (reject : Rule α).WithinLine plain tails :=
  fun _ _ _ _ => trivial

theorem WithinLine.bind {first : Rule α} {next : α → Rule β}
    (firstWithin : first.WithinLine plain tails)
    (nextWithin : ∀ value, (next value).WithinLine plain tails) :
    (first >>= next).WithinLine plain tails := by
  intro line linePlain tail isTail
  have firstSpares := firstWithin line linePlain tail isTail
  rw [run_bind]
  cases answer : first.run (line ++ tail) with
  | matched value rest =>
    rw [answer] at firstSpares
    rcases firstSpares with ⟨kept, keptPlain, shape⟩
    subst shape
    exact nextWithin value kept keptPlain tail isTail
  | failed failure =>
    rw [answer] at firstSpares
    cases failure with
    | malformed => trivial
    | incomplete needed => exact firstSpares

theorem WithinLine.map {rule : Rule α} (within : rule.WithinLine plain tails) (change : α → β) :
    (change <$> rule).WithinLine plain tails :=
  within.bind fun value => withinLine_pure (change value)

theorem WithinLine.accepting {rule : Rule α} (within : rule.WithinLine plain tails)
    (accept : α → Option β) : (rule.accepting accept).WithinLine plain tails := by
  refine within.bind fun value => ?_
  cases accept value with
  | none => exact withinLine_reject
  | some accepted => exact withinLine_pure accepted

theorem WithinLine.orElse {first second : Rule α} (firstWithin : first.WithinLine plain tails)
    (secondWithin : second.WithinLine plain tails) :
    (first.orElse second).WithinLine plain tails := by
  intro line linePlain tail isTail
  have firstSpares := firstWithin line linePlain tail isTail
  rw [run_orElse]
  cases answer : first.run (line ++ tail) with
  | matched value rest =>
    rw [answer] at firstSpares
    exact firstSpares
  | failed failure =>
    cases failure with
    | malformed => exact secondWithin line linePlain tail isTail
    | incomplete needed =>
      rw [answer] at firstSpares
      exact firstSpares

theorem withinLine_firstOf {rules : List (Rule α)}
    (allWithin : ∀ rule ∈ rules, rule.WithinLine plain tails) :
    (firstOf rules).WithinLine plain tails := by
  induction rules with
  | nil => exact withinLine_reject
  | cons rule rules inductionHypothesis =>
    obtain ⟨headWithin, othersWithin⟩ := List.forall_mem_cons.mp allWithin
    exact headWithin.orElse (inductionHypothesis othersWithin)

theorem withinLine_expect (ends : tails ⊆ Bytes.startingOutside plain) {literal : Bytes}
    (literalPlain : ∀ byte ∈ literal, plain byte = true) :
    (expect literal).WithinLine plain tails :=
  (withinLine_word ends literalPlain).map _

theorem WithinLine.announced {rule : Rule α} (within : rule.WithinLine plain tails) (wrap : α → β)
    {literal : Bytes} (literalWithin : (expect literal).WithinLine plain tails) :
    (do
      expect literal
      let value ← rule
      pure (wrap value)).WithinLine plain tails :=
  literalWithin.bind fun _ => within.map wrap

theorem withinLine_keyword {literal : Bytes} (value : α)
    (literalWithin : (expect literal).WithinLine plain tails) :
    (keyword literal value).WithinLine plain tails :=
  literalWithin.bind fun _ => withinLine_pure value

theorem WithinLine.closed {rule : Rule α} (within : rule.WithinLine plain tails) (wrap : α → β)
    {literal : Bytes} (literalWithin : (expect literal).WithinLine plain tails) :
    (do
      let value ← rule
      expect literal
      pure (wrap value)).WithinLine plain tails :=
  within.bind fun value => literalWithin.bind fun _ => withinLine_pure (wrap value)

theorem WithinLine.spaced_field {first : Rule α} {next : α → Rule β}
    (firstWithin : first.WithinLine plain tails) (spaceWithin : space.WithinLine plain tails)
    (nextWithin : ∀ value, (next value).WithinLine plain tails) :
    (do
      let value ← first
      space
      next value).WithinLine plain tails :=
  firstWithin.bind fun value => spaceWithin.bind fun _ => nextWithin value

/-! ## Lists -/

theorem WithinLine.items {item : Rule α} (itemWithin : item.WithinLine plain tails) :
    (items item).WithinLine plain tails := by
  intro line linePlain tail isTail
  induction same : line ++ tail using items_induction item generalizing line with
  | malformed input answer =>
    rw [run_items_of_malformed answer]
    exact ⟨line, linePlain, same⟩
  | incomplete input needed answer =>
    subst same
    exact absurd answer (itemWithin.not_incomplete linePlain isTail needed)
  | standstill input value rest answer notShorter =>
    rw [run_items_of_standstill answer notShorter]
    exact ⟨line, linePlain, same⟩
  | matched input value rest answer shorter inductionHypothesis =>
    subst same
    have itemSpares := itemWithin line linePlain tail isTail
    rw [answer] at itemSpares
    rcases itemSpares with ⟨left, leftPlain, shape⟩
    subst shape
    rw [run_items_of_matched answer shorter]
    exact (inductionHypothesis left leftPlain rfl).map _

theorem WithinLine.many {item : Rule α} (itemWithin : item.WithinLine plain tails) :
    (many item).WithinLine plain tails :=
  itemWithin.bind fun _ => itemWithin.items.bind fun _ => withinLine_pure _

theorem WithinLine.spacedItems {item : Rule α} (ends : tails ⊆ Bytes.startingOutside plain)
    (spacePlain : plain Byte.space = true) (itemWithin : item.WithinLine plain tails) :
    (spacedItems item).WithinLine plain tails := by
  intro line linePlain tail isTail
  have tailEnds := ends isTail
  have markPlain : ∀ byte ∈ [Byte.space], plain byte = true :=
    List.forall_mem_singleton.mpr spacePlain
  induction same : line ++ tail using spacedItems_induction item generalizing line with
  | empty =>
    have allPlain : ∀ byte ∈ line ++ tail, plain byte = true := by simp [same]
    exact absurd allPlain (not_all_plain tailEnds)
  | outside input inputOutside =>
    rw [run_spacedItems_of_outside inputOutside]
    exact ⟨line, linePlain, same⟩
  | malformed afterSpace answer =>
    rw [run_spacedItems_of_malformed answer]
    exact ⟨line, linePlain, same⟩
  | incomplete afterSpace needed answer =>
    obtain ⟨kept, rfl, rfl⟩ := Bytes.kept_of_append_eq markPlain tailEnds same.symm
    obtain ⟨-, keptPlain⟩ := List.forall_mem_cons.mp linePlain
    exact absurd answer (itemWithin.not_incomplete keptPlain isTail needed)
  | matched afterSpace value rest answer inductionHypothesis =>
    obtain ⟨kept, rfl, rfl⟩ := Bytes.kept_of_append_eq markPlain tailEnds same.symm
    obtain ⟨-, keptPlain⟩ := List.forall_mem_cons.mp linePlain
    have itemSpares := itemWithin kept keptPlain tail isTail
    rw [answer] at itemSpares
    rcases itemSpares with ⟨left, leftPlain, shape⟩
    subst shape
    rw [run_spacedItems_of_matched answer]
    exact (inductionHypothesis left leftPlain rfl).map _

theorem WithinLine.spaced {item : Rule α} (ends : tails ⊆ Bytes.startingOutside plain)
    (spacePlain : plain Byte.space = true) (itemWithin : item.WithinLine plain tails) :
    (spaced item).WithinLine plain tails :=
  itemWithin.bind fun _ => (itemWithin.spacedItems ends spacePlain).bind fun _ =>
    withinLine_pure _

theorem WithinLine.parenthesized {item : Rule α} (ends : tails ⊆ Bytes.startingOutside plain)
    (marksPlain : ∀ byte ∈ ascii "( )", plain byte = true)
    (itemWithin : item.WithinLine plain tails) : (parenthesized item).WithinLine plain tails := by
  have openPlain : ∀ byte ∈ ascii "(", plain byte = true := by
    intro byte isOpen
    exact marksPlain byte (List.mem_of_mem_take (i := 1) isOpen)
  have closePlain : ∀ byte ∈ ascii ")", plain byte = true := by
    intro byte isClose
    exact marksPlain byte (List.mem_of_mem_drop (i := 2) isClose)
  have spacePlain : plain Byte.space = true := marksPlain Byte.space (by decide)
  have valuesWithin := (itemWithin.spaced ends spacePlain).orElse (withinLine_pure [])
  exact (withinLine_expect ends openPlain).bind fun _ => valuesWithin.bind fun _ =>
    (withinLine_expect ends closePlain).bind fun _ => withinLine_pure _

/-! ## Rules that close the line -/

/-- On plain bytes with the closing word behind them the rule is malformed, or it takes them and
the closing word. -/
def Closes (rule : Rule α) (plain : UInt8 → Bool) (closing : Bytes) : Prop :=
  ∀ line, (∀ byte ∈ line, plain byte = true) → ∀ later,
    rule.run (line ++ (closing ++ later)) = .failed .malformed ∨
      ∃ value, rule.run (line ++ (closing ++ later)) = .matched value later

theorem closes_keyword {first : UInt8} (notPlain : plain first = false) (others : Bytes)
    (value : α) : (keyword (first :: others) value).Closes plain (first :: others) := by
  intro line linePlain later
  cases line with
  | nil => exact Or.inr ⟨value, run_bind_expect_append (first :: others) later _⟩
  | cons byte line =>
    have different : byte ≠ first := by
      intro isFirst
      have bytePlain := linePlain byte List.mem_cons_self
      rw [isFirst, notPlain] at bytePlain
      cases bytePlain
    have notFirst : byte :: line ++ (first :: others ++ later) ∈
        Bytes.startingOutside (· == first) :=
      ⟨byte, _, rfl, beq_eq_false_iff_ne.mpr different⟩
    exact Or.inl (run_bind_failed ((beginsWith_expect first others).run_outside notFirst) _)

theorem Closes.after {first : Rule α} {next : α → Rule β} {closing : Bytes}
    (nextCloses : ∀ value, (next value).Closes plain closing)
    (firstWithin : first.WithinLine plain (Set.range (closing ++ ·))) :
    (first >>= next).Closes plain closing := by
  intro line linePlain later
  have firstSpares := firstWithin line linePlain (closing ++ later) ⟨later, rfl⟩
  rw [run_bind]
  cases answer : first.run (line ++ (closing ++ later)) with
  | matched value rest =>
    rw [answer] at firstSpares
    rcases firstSpares with ⟨kept, keptPlain, shape⟩
    subst shape
    exact nextCloses value kept keptPlain later
  | failed failure =>
    rw [answer] at firstSpares
    cases failure with
    | malformed => exact Or.inl rfl
    | incomplete needed => exact firstSpares.elim

theorem closes_firstOf {rules : List (Rule α)} {closing : Bytes}
    (allClose : ∀ rule ∈ rules, rule.Closes plain closing) :
    (firstOf rules).Closes plain closing := by
  induction rules with
  | nil => exact fun _ _ _ => Or.inl rfl
  | cons rule others inductionHypothesis =>
    obtain ⟨headCloses, othersClose⟩ := List.forall_mem_cons.mp allClose
    intro line linePlain later
    rw [firstOf_cons]
    rcases headCloses line linePlain later with fails | ⟨value, isMatch⟩
    · rw [run_orElse, fails]
      exact inductionHypothesis othersClose line linePlain later
    · exact Or.inr ⟨value, run_orElse_eq_matched_iff.mpr (Or.inl isMatch)⟩

end Rule

end Imap
