import Mathlib.Algebra.Group.Nat.Even
import Mathlib.Data.List.DropRight
import Imap.Proofs.Grammar.Quoted

/-!
# The closing quote

The scanner for a quoted string goes from left to right and remembers nothing but whether a backslash
has just made the next byte harmless. Where it stops can be told by looking at one quote alone: the
backslashes right before it pair up, so the quote is bare if they are even in number and escaped if
they are odd. The scanner stops at the first bare quote, and without one it waits.
-/

namespace Imap.Quoted

variable {text front before after : Bytes}

/-! ## Bare quotes -/

/-- The number of backslashes in the run that ends the text. -/
def trailingBackslashes (text : Bytes) : Nat :=
  (text.rtakeWhile (· == Byte.backslash)).length

/-- A quote in the text with an even number of backslashes right before it. -/
structure BareQuote (text before after : Bytes) : Prop where
  split : before ++ Byte.doubleQuote :: after = text
  paired : Even (trailingBackslashes before)

/-- The bare quote of the text with the fewest bytes before it. -/
structure FirstBareQuote (text before after : Bytes) : Prop where
  bare : BareQuote text before after
  first : ∀ {earlier later : Bytes}, BareQuote text earlier later → before.length ≤ earlier.length

/-- The text with each pair of a backslash and a quote or backslash, read from left to right,
replaced by the second byte of the pair. Every other byte is kept. -/
def unescape : Bytes → Bytes
  | [] => []
  | [byte] => [byte]
  | byte :: next :: later =>
    if byte = Byte.backslash ∧ (next = Byte.doubleQuote ∨ next = Byte.backslash) then
      next :: unescape later
    else byte :: unescape (next :: later)

theorem FirstBareQuote.unique {otherBefore otherAfter : Bytes}
    (first : FirstBareQuote text before after)
    (other : FirstBareQuote text otherBefore otherAfter) :
    before = otherBefore ∧ after = otherAfter := by
  have sameLength : before.length = otherBefore.length :=
    Nat.le_antisymm (first.first other.bare) (other.first first.bare)
  have sameText := first.bare.split.trans other.bare.split.symm
  obtain ⟨sameBefore, sameTail⟩ := List.append_inj sameText sameLength
  exact ⟨sameBefore, (List.cons.inj sameTail).2⟩

/-! ## One step of the scanner

The scanner passes over one plain byte, or over a backslash together with the byte after it. In
neither case does it pass a bare quote or leave a pair of backslashes half read, so the bare quotes
of the text are those of what comes after the step.
-/

/-- A run of backslashes that reaches back into a front with paired ones changes by whole pairs. -/
theorem even_trailingBackslashes_append (paired : Even (trailingBackslashes front))
    (text : Bytes) :
    Even (trailingBackslashes (front ++ text)) ↔ Even (trailingBackslashes text) := by
  simp only [trailingBackslashes, List.rtakeWhile, List.length_reverse, List.reverse_append,
    List.takeWhile_append] at *
  split
  · rename_i isRun
    rw [List.length_append, Nat.even_add, isRun]
    simp only [paired, iff_true, List.length_reverse]
  · exact Iff.rfl

/-- A front in which the scanner does not stop and after which no byte is escaped. -/
structure Passed (front : Bytes) : Prop where
  paired : Even (trailingBackslashes front)
  noQuote : ∀ before after, ¬ BareQuote front before after

theorem Passed.bareQuote_append_iff (passed : Passed front) :
    BareQuote (front ++ text) before after ↔
      ∃ shorter, before = front ++ shorter ∧ BareQuote text shorter after := by
  constructor
  · rintro ⟨split, paired⟩
    rcases List.append_eq_append_iff.mp split with
      ⟨middle, shape, quoteShape⟩ | ⟨shorter, shape, textShape⟩
    · cases middle with
      | nil => exact ⟨[], by simpa using shape.symm, quoteShape, Even.zero⟩
      | cons byte middle =>
        obtain ⟨isQuote, -⟩ := List.cons.inj quoteShape
        rw [← isQuote] at shape
        exact absurd ⟨shape.symm, paired⟩ (passed.noQuote before middle)
    · subst shape
      have shorterPaired := (even_trailingBackslashes_append passed.paired shorter).mp paired
      exact ⟨shorter, rfl, textShape.symm, shorterPaired⟩
  · rintro ⟨shorter, rfl, split, paired⟩
    refine ⟨?_, (even_trailingBackslashes_append passed.paired shorter).mpr paired⟩
    rw [List.append_assoc, split]

theorem Passed.firstBareQuote_append (passed : Passed front)
    (first : FirstBareQuote text before after) :
    FirstBareQuote (front ++ text) (front ++ before) after where
  bare := passed.bareQuote_append_iff.mpr ⟨before, rfl, first.bare⟩
  first := by
    intro earlier later bare
    obtain ⟨shorter, rfl, shorterBare⟩ := passed.bareQuote_append_iff.mp bare
    have := first.first shorterBare
    simp only [List.length_append]
    omega

theorem passed_plain {byte : UInt8} (notQuote : byte ≠ Byte.doubleQuote)
    (notBackslash : byte ≠ Byte.backslash) : Passed [byte] where
  paired := by simp [trailingBackslashes, List.rtakeWhile, notBackslash]
  noQuote := by
    rintro before after ⟨split, -⟩
    rcases before with _ | ⟨first, others⟩
    · exact notQuote (List.cons.inj split).1.symm
    · simp at split

/-- A quote behind a single backslash is not bare, and two backslashes are a pair. -/
theorem passed_pair (escaped : UInt8) : Passed [Byte.backslash, escaped] where
  paired := by
    by_cases isBackslash : escaped = Byte.backslash
    · subst isBackslash
      decide
    · simp [trailingBackslashes, List.rtakeWhile, isBackslash]
  noQuote := by
    rintro before after ⟨split, paired⟩
    rcases before with _ | ⟨first, _ | ⟨second, others⟩⟩
    · exact absurd (List.cons.inj split).1 (by decide)
    · obtain rfl : first = Byte.backslash := (List.cons.inj split).1
      exact absurd paired (by decide)
    · simp at split

theorem unescape_plain {byte : UInt8} (notBackslash : byte ≠ Byte.backslash) (text : Bytes) :
    unescape (byte :: text) = byte :: unescape text := by
  cases text with
  | nil => rfl
  | cons next later => simp only [unescape, notBackslash, false_and, if_false]

theorem unescape_pair (escaped : UInt8) (text : Bytes) :
    unescape (Byte.backslash :: escaped :: text) = unescapePair escaped ++ unescape text := by
  by_cases isSpecial : escaped = Byte.doubleQuote ∨ escaped = Byte.backslash
  · simp [unescape, unescapePair, Byte.isQuotedSpecial, isSpecial]
  · obtain ⟨notQuote, notBackslash⟩ := not_or.mp isSpecial
    have kept := unescape_plain notBackslash text
    simp [unescape, unescapePair, Byte.isQuotedSpecial, notQuote, notBackslash, kept]

/-! ## The whole scan -/

/-- The scanner has stopped at the first bare quote, or it has met none and run through. -/
def ScanDecided (text : Bytes) : Prop :=
  (∃ before after, FirstBareQuote text before after ∧
    close? text = some (unescape before, after)) ∨
  close? text = none ∧ ∀ before after, ¬ BareQuote text before after

theorem Passed.scanDecided_append (passed : Passed front) (meaning : Bytes)
    (scan : close? (front ++ text) =
      (close? text).map fun (value, after) => (meaning ++ value, after))
    (meant : ∀ later, unescape (front ++ later) = meaning ++ unescape later)
    (decided : ScanDecided text) : ScanDecided (front ++ text) := by
  rcases decided with ⟨before, after, first, closed⟩ | ⟨notClosed, noQuote⟩
  · refine Or.inl ⟨front ++ before, after, passed.firstBareQuote_append first, ?_⟩
    rw [scan, closed, meant]
    rfl
  · refine Or.inr ⟨?_, fun before after bare => ?_⟩
    · rw [scan, notClosed]
      rfl
    · obtain ⟨shorter, -, shorterBare⟩ := passed.bareQuote_append_iff.mp bare
      exact noQuote shorter after shorterBare

theorem scanDecided (text : Bytes) : ScanDecided text := by
  induction text using close?.induct with
  | case1 =>
    refine Or.inr ⟨rfl, ?_⟩
    rintro before after ⟨split, -⟩
    simp at split
  | case2 rest =>
    refine Or.inl ⟨[], rest, ⟨⟨rfl, Even.zero⟩, ?_⟩, close?_quote rest⟩
    exact fun _ => Nat.zero_le _
  | case3 =>
    refine Or.inr ⟨rfl, ?_⟩
    rintro before after ⟨split, -⟩
    rcases before with _ | ⟨first, others⟩
    · exact absurd (List.cons.inj split).1 (by decide)
    · simp at split
  | case4 escaped later _ inductionHypothesis =>
    exact (passed_pair escaped).scanDecided_append (unescapePair escaped)
      (close?_escape escaped later) (unescape_pair escaped) inductionHypothesis
  | case5 byte later notQuote notBackslash inductionHypothesis =>
    exact (passed_plain notQuote notBackslash).scanDecided_append [byte]
      (close?_plain notQuote notBackslash later) (unescape_plain notBackslash)
      inductionHypothesis

theorem close?_eq_some_iff {value rest : Bytes} :
    close? text = some (value, rest) ↔
      ∃ before, FirstBareQuote text before rest ∧ value = unescape before := by
  rcases scanDecided text with ⟨before, after, first, closed⟩ | ⟨notClosed, noQuote⟩
  · rw [closed]
    constructor
    · intro same
      cases same
      exact ⟨before, first, rfl⟩
    · rintro ⟨otherBefore, other, rfl⟩
      obtain ⟨rfl, rfl⟩ := first.unique other
      rfl
  · rw [notClosed]
    refine iff_of_false nofun ?_
    rintro ⟨before, first, -⟩
    exact noQuote before rest first.bare

theorem close?_eq_none_iff :
    close? text = none ↔ ¬ ∃ before after, BareQuote text before after := by
  rcases scanDecided text with ⟨before, after, first, closed⟩ | ⟨notClosed, noQuote⟩
  · rw [closed]
    exact iff_of_false nofun (not_not_intro ⟨before, after, first.bare⟩)
  · exact iff_of_true notClosed fun ⟨before, after, bare⟩ => noQuote before after bare

/-- A quoted string ends at the first bare quote. Its value is what stands before that quote,
unescaped, and everything after the quote is left over. Without a bare quote it waits, however long
the text is, and cannot say for how many bytes. -/
theorem rule_closes_at_first_bare_quote (text : Bytes) :
    (∀ value rest, rule.run (Byte.doubleQuote :: text) = .matched value rest ↔
      ∃ before, FirstBareQuote text before rest ∧ value = unescape before) ∧
    ((∃ value rest, rule.run (Byte.doubleQuote :: text) = .matched value rest) ↔
      ∃ before after, BareQuote text before after) ∧
    ∀ failure, rule.run (Byte.doubleQuote :: text) = .failed failure ↔
      failure = .incomplete none ∧ ¬ ∃ before after, BareQuote text before after := by
  have opened : rule.run (Byte.doubleQuote :: text) = body.run text :=
    Rule.run_bind_expect_append [Byte.doubleQuote] text fun _ => body
  rw [opened]
  refine ⟨fun value rest => ?_, ?_, fun failure => ?_⟩
  · rw [run_body_eq_matched_iff, close?_eq_some_iff]
  · rw [← not_iff_not, ← close?_eq_none_iff]
    simp only [run_body_eq_matched_iff, Option.eq_none_iff_forall_ne_some, Prod.forall, not_exists,
      ne_eq]
  · cases failure with
    | malformed => exact iff_of_false run_body_ne_malformed nofun
    | incomplete needed =>
      rw [run_body_eq_incomplete_iff, close?_eq_none_iff, Failure.incomplete.injEq]

/-- Of the two quotes inside, the first has three backslashes before it and the second has four. -/
example : rule.run (ascii "\"a\\\\\\\"b\\\\\\\\\" c") =
    .matched (ascii "a\\\"b\\\\") (ascii " c") := by
  decide +kernel

end Imap.Quoted
