import Imap.Proofs.Rule.Completion

/-!
# Rules whose counts of missing bytes can be followed

A count is worth following when the missing bytes belong to the value whatever they are. Then a
reader may ask for all of them at once: it asks for none that comes after the value, and the value
is not complete before the last of them has arrived. Stability says that a count goes down with the
bytes. Here is what happens when it reaches zero: the rule has used all of its input, so it waits
again, this time without a count, or it matches with nothing left over.

The places where counts may arise are a parameter, a set of inputs for each number of missing bytes.
Membership must be a matter of how an input ends, as it is for dead ends.

A rule that ends in a fixed word outlasts its counts: the missing bytes may complete a part of the
value, but the word has to come after them.
-/

namespace Imap

variable {α β : Type}

/-- A wait without a count, or a match with nothing left over. -/
def Outcome.Exhausts (outcome : Outcome α) : Prop :=
  outcome = .failed (.incomplete none) ∨ ∃ value, outcome = .matched value []

theorem Outcome.Exhausts.map {outcome : Outcome α} (exhausts : outcome.Exhausts)
    (change : α → β) : (outcome.map change).Exhausts := by
  rcases exhausts with waits | ⟨value, isMatch⟩
  · rw [waits]
    exact Or.inl rfl
  · rw [isMatch]
    exact Or.inr ⟨change value, rfl⟩

namespace Rule

/-- The inputs that lack a given number of bytes, which is seen from how they end. -/
structure Shortage where
  inputs : Nat → Set Bytes
  absorbing : ∀ needed, LeftAbsorbing (inputs needed)

/-- The count belongs to a place that `short` allows, and the bytes counted leave the rule with
nothing to read. -/
structure CountsAt (rule : Rule α) (short : Shortage) (input : Bytes) (needed : Nat) : Prop where
  announced : input ∈ short.inputs needed
  filled : ∀ missing : Bytes, missing.length = needed → (rule.run (input ++ missing)).Exhausts

/-- The rule decides nothing on no bytes, and each of its counts can be followed. -/
structure Counts (rule : Rule α) (short : Shortage) : Prop where
  empty : (rule.run []).Exhausts
  counted : ∀ {input : Bytes} {needed : Nat},
    rule.run input = .failed (.incomplete (some needed)) → rule.CountsAt short input needed

variable {short : Shortage}

/-! ## Tokens -/

/-- A rule that waits, but never with a count. -/
theorem counts_of_uncounted {rule : Rule α} (empty : (rule.run []).Exhausts)
    (uncounted : ∀ {input : Bytes} {needed : Option Nat},
      rule.run input = .failed (.incomplete needed) → needed = none) : rule.Counts short where
  empty := empty
  counted := by
    intro input needed waits
    cases uncounted waits

theorem counts_pure (value : α) : (pure value : Rule α).Counts short :=
  counts_of_uncounted (Or.inr ⟨value, rfl⟩) nofun

theorem counts_word {literal : Bytes} (nonempty : literal ≠ []) :
    (word literal).Counts short := by
  apply counts_of_uncounted
  · exact Or.inl (run_word_eq_incomplete_iff.mpr ⟨rfl, literal, nonempty, rfl⟩)
  · intro input needed waits
    exact (run_word_eq_incomplete_iff.mp waits).1

theorem run_expect_ne_counted {literal input : Bytes} {needed : Nat} :
    (expect literal).run input ≠ .failed (.incomplete (some needed)) := by
  intro waits
  cases (run_word_eq_incomplete_iff.mp (run_expect_eq_failed_iff.mp waits)).1

theorem run_keyword_ne_counted {literal input : Bytes} {value : α} {needed : Nat} :
    (keyword literal value).run input ≠ .failed (.incomplete (some needed)) := by
  intro waits
  rcases run_bind_eq_failed_iff.mp waits with wordWaits | ⟨_, _, _, pureWaits⟩
  · exact run_expect_ne_counted wordWaits
  · cases pureWaits

theorem counts_wordAnyCase {literal : Bytes} (nonempty : literal ≠ []) :
    (wordAnyCase literal).Counts short := by
  apply counts_of_uncounted
  · have isShorter := List.length_pos_iff.mpr nonempty
    exact Or.inl (run_wordAnyCase_eq_incomplete_iff.mpr ⟨rfl, isShorter, List.nil_prefix⟩)
  · intro input needed waits
    exact (run_wordAnyCase_eq_incomplete_iff.mp waits).1

theorem counts_bytesIn (member : UInt8 → Bool) : (bytesIn member).Counts short := by
  apply counts_of_uncounted
  · exact Or.inl rfl
  · intro input needed waits
    exact (run_bytesIn_eq_incomplete_iff.mp waits).1

theorem counts_bytesBefore (stop : UInt8 → Bool) : (bytesBefore stop).Counts short := by
  apply counts_of_uncounted
  · exact Or.inl rfl
  · intro input needed waits
    exact (run_bytesBefore_eq_incomplete_iff.mp waits).1

theorem counts_skipOptional (byte : UInt8) : (skipOptional byte).Counts short := by
  apply counts_of_uncounted
  · exact Or.inl rfl
  · intro input needed waits
    cases (run_skipOptional_eq_failed_iff.mp waits).1
    rfl

/-! ## Sequence and choice -/

private theorem exhausts_bind {first : Rule α} {next : α → Rule β} {input : Bytes}
    (firstExhausts : (first.run input).Exhausts)
    (nextEmpty : ∀ value, ((next value).run []).Exhausts) :
    ((first >>= next).run input).Exhausts := by
  rcases firstExhausts with waits | ⟨value, firstMatch⟩
  · exact Or.inl (run_bind_failed waits next)
  · -- The first part has used all of its input, so the second one starts with nothing.
    rw [run_bind_matched firstMatch]
    exact nextEmpty value

private theorem exhausts_orElse {first : Rule α} (second : Rule α) {input : Bytes}
    (firstExhausts : (first.run input).Exhausts) :
    ((first.orElse second).run input).Exhausts := by
  rcases firstExhausts with waits | ⟨value, firstMatch⟩
  · exact Or.inl (run_orElse_eq_incomplete_iff.mpr (Or.inl waits))
  · exact Or.inr ⟨value, run_orElse_eq_matched_iff.mpr (Or.inl firstMatch)⟩

theorem Counts.bind {first : Rule α} {next : α → Rule β}
    (firstCounts : first.Counts short) (stable : first.Stable)
    (nextCounts : ∀ value, (next value).Counts short) :
    (first >>= next).Counts short where
  empty := exhausts_bind firstCounts.empty fun value => (nextCounts value).empty
  counted := by
    intro input needed waits
    rcases run_bind_eq_failed_iff.mp waits with firstWaits | ⟨value, left, firstMatch, nextWaits⟩
    · obtain ⟨announced, filled⟩ := firstCounts.counted firstWaits
      refine ⟨announced, fun missing isAll => ?_⟩
      exact exhausts_bind (filled missing isAll) fun value => (nextCounts value).empty
    · obtain ⟨announced, filled⟩ := (nextCounts value).counted nextWaits
      constructor
      · obtain ⟨start, shape⟩ := first.rest_suffix firstMatch
        subst shape
        exact short.absorbing needed start left announced
      · intro missing isAll
        rw [run_bind_matched (stable.matched_append firstMatch missing)]
        exact filled missing isAll

theorem Counts.map {rule : Rule α} (counts : rule.Counts short) (change : α → β) :
    (change <$> rule).Counts short where
  empty := by
    rw [run_map]
    exact counts.empty.map change
  counted := by
    intro input needed waits
    obtain ⟨announced, filled⟩ := counts.counted (run_map_eq_failed_iff.mp waits)
    refine ⟨announced, fun missing isAll => ?_⟩
    rw [run_map]
    exact (filled missing isAll).map change

theorem Counts.orElse {first second : Rule α} (firstCounts : first.Counts short)
    (stable : first.Stable) (secondCounts : second.Counts short) :
    (first.orElse second).Counts short where
  empty := exhausts_orElse second firstCounts.empty
  counted := by
    intro input needed waits
    rcases run_orElse_eq_incomplete_iff.mp waits with firstWaits | ⟨firstFails, secondWaits⟩
    · obtain ⟨announced, filled⟩ := firstCounts.counted firstWaits
      exact ⟨announced, fun missing isAll => exhausts_orElse second (filled missing isAll)⟩
    · obtain ⟨announced, filled⟩ := secondCounts.counted secondWaits
      refine ⟨announced, fun missing isAll => ?_⟩
      rw [run_orElse, stable.malformed_append firstFails missing]
      exact filled missing isAll

theorem orElse_reject (rule : Rule α) : rule.orElse reject = rule := by
  ext input
  rw [run_orElse]
  cases answer : rule.run input with
  | matched value rest => rfl
  | failed failure =>
    cases failure with
    | malformed => rfl
    | incomplete needed => rfl

theorem counts_firstOf {rules : List (Rule α)} (nonempty : rules ≠ [])
    (allCount : ∀ rule ∈ rules, rule.Counts short) (allStable : ∀ rule ∈ rules, rule.Stable) :
    (firstOf rules).Counts short := by
  induction rules with
  | nil => exact absurd rfl nonempty
  | cons rule others inductionHypothesis =>
    obtain ⟨headCounts, othersCount⟩ := List.forall_mem_cons.mp allCount
    obtain ⟨headStable, othersStable⟩ := List.forall_mem_cons.mp allStable
    rw [firstOf_cons]
    by_cases isLast : others = []
    · rw [isLast, firstOf_nil, orElse_reject]
      exact headCounts
    · exact headCounts.orElse headStable (inductionHypothesis isLast othersCount othersStable)

theorem counts_expect {literal : Bytes} (nonempty : literal ≠ []) :
    (expect literal).Counts short :=
  (counts_word nonempty).map _

theorem counts_keyword {literal : Bytes} (nonempty : literal ≠ []) (value : α) :
    (keyword literal value).Counts short :=
  (counts_expect nonempty).map fun _ => value

theorem Counts.after_expect {next : Unit → Rule β} {literal : Bytes} (nonempty : literal ≠ [])
    (nextCounts : (next ()).Counts short) : (expect literal >>= next).Counts short :=
  (counts_expect nonempty).bind (stable_expect literal) fun _ => nextCounts

theorem Counts.announced {rule : Rule α} (counts : rule.Counts short) (wrap : α → β)
    {literal : Bytes} (nonempty : literal ≠ []) :
    (do
      expect literal
      let value ← rule
      pure (wrap value)).Counts short :=
  Counts.after_expect nonempty (counts.map wrap)

theorem Counts.closed {rule : Rule α} (counts : rule.Counts short) (stable : rule.Stable)
    {literal : Bytes} (nonempty : literal ≠ []) (wrap : α → β) :
    (do
      let value ← rule
      expect literal
      pure (wrap value)).Counts short :=
  counts.bind stable fun value => Counts.after_expect nonempty (counts_pure (wrap value))

theorem Counts.spaced_field {first : Rule α} {next : α → Rule β} (counts : first.Counts short)
    (stable : first.Stable) (nextCounts : ∀ value, (next value).Counts short) :
    (do
      let value ← first
      space
      next value).Counts short :=
  counts.bind stable fun value => Counts.after_expect (by decide) (nextCounts value)

/-! ## Lists -/

section Lists

variable {item : Rule α}

private theorem exhausts_items (itemEmpty : (item.run []).Exhausts) {input : Bytes}
    (itemExhausts : (item.run input).Exhausts) : ((items item).run input).Exhausts := by
  have nothingExhausts : ((items item).run []).Exhausts := by
    rcases itemEmpty with waits | ⟨value, itemMatch⟩
    · exact Or.inl (run_items_of_incomplete waits)
    · exact Or.inr ⟨[], run_items_of_standstill itemMatch (Nat.lt_irrefl 0)⟩
  rcases itemExhausts with waits | ⟨value, itemMatch⟩
  · exact Or.inl (run_items_of_incomplete waits)
  · by_cases isEmpty : input = []
    · rw [isEmpty]
      exact nothingExhausts
    · rw [run_items_of_matched itemMatch (List.length_pos_iff.mpr isEmpty)]
      exact nothingExhausts.map (value :: ·)

/-- After an item with nothing left over, the list waits for a space or for its end. -/
private theorem exhausts_spacedItems {afterSpace : Bytes}
    (itemExhausts : (item.run afterSpace).Exhausts) :
    ((spacedItems item).run (Byte.space :: afterSpace)).Exhausts := by
  rcases itemExhausts with waits | ⟨value, itemMatch⟩
  · exact Or.inl (run_spacedItems_of_incomplete waits)
  · rw [run_spacedItems_of_matched itemMatch, run_spacedItems_nil]
    exact Or.inl rfl

theorem Counts.items (itemCounts : item.Counts short) (stable : item.Stable) :
    (items item).Counts short where
  empty := exhausts_items itemCounts.empty itemCounts.empty
  counted := by
    intro input needed waits
    -- The count is that of the first item that waits; the items before it stay as they are.
    induction input using items_induction item with
    | malformed input answer =>
      rw [run_items_of_malformed answer] at waits
      cases waits
    | incomplete input itemNeeded answer =>
      rw [run_items_of_incomplete answer] at waits
      cases waits
      obtain ⟨announced, filled⟩ := itemCounts.counted answer
      exact ⟨announced, fun missing isAll => exhausts_items itemCounts.empty (filled missing isAll)⟩
    | standstill input value rest answer notShorter =>
      rw [run_items_of_standstill answer notShorter] at waits
      cases waits
    | matched input value rest answer shorter inductionHypothesis =>
      rw [run_items_of_matched answer shorter, Outcome.map_eq_failed_iff] at waits
      obtain ⟨announced, filled⟩ := inductionHypothesis waits
      constructor
      · obtain ⟨start, shape⟩ := item.rest_suffix answer
        subst shape
        exact short.absorbing needed start rest announced
      · intro missing isAll
        have filledShorter : (rest ++ missing).length < (input ++ missing).length := by
          simpa using shorter
        rw [run_items_of_matched (stable.matched_append answer missing) filledShorter]
        exact (filled missing isAll).map (value :: ·)

theorem Counts.spacedItems (itemCounts : item.Counts short) (stable : item.Stable) :
    (spacedItems item).Counts short where
  empty := Or.inl run_spacedItems_nil
  counted := by
    intro input needed waits
    induction input using spacedItems_induction item with
    | empty =>
      rw [run_spacedItems_nil] at waits
      cases waits
    | outside input inputOutside =>
      rw [run_spacedItems_of_outside inputOutside] at waits
      cases waits
    | malformed afterSpace answer =>
      rw [run_spacedItems_of_malformed answer] at waits
      cases waits
    | incomplete afterSpace itemNeeded answer =>
      rw [run_spacedItems_of_incomplete answer] at waits
      cases waits
      obtain ⟨announced, filled⟩ := itemCounts.counted answer
      exact ⟨short.absorbing needed [Byte.space] afterSpace announced,
        fun missing isAll => exhausts_spacedItems (filled missing isAll)⟩
    | matched afterSpace value rest answer inductionHypothesis =>
      rw [run_spacedItems_of_matched answer, Outcome.map_eq_failed_iff] at waits
      obtain ⟨announced, filled⟩ := inductionHypothesis waits
      constructor
      · obtain ⟨start, shape⟩ := item.rest_suffix answer
        subst shape
        exact short.absorbing needed (Byte.space :: start) rest announced
      · intro missing isAll
        rw [List.cons_append, run_spacedItems_of_matched (stable.matched_append answer missing)]
        exact (filled missing isAll).map (value :: ·)

theorem Counts.many (itemCounts : item.Counts short) (stable : item.Stable) :
    (many item).Counts short :=
  itemCounts.bind stable fun first => (itemCounts.items stable).map (first :: ·)

theorem Counts.spaced (itemCounts : item.Counts short) (stable : item.Stable) :
    (spaced item).Counts short :=
  itemCounts.bind stable fun first => (itemCounts.spacedItems stable).map (first :: ·)

theorem Counts.parenthesized (itemCounts : item.Counts short) (stable : item.Stable) :
    (parenthesized item).Counts short := by
  have valuesCount := (itemCounts.spaced stable).orElse (stable_spaced stable) (counts_pure [])
  have valuesStable := (stable_spaced stable).orElse (stable_pure [])
  exact Counts.after_expect (by decide) (valuesCount.closed valuesStable (by decide) id)

end Lists

/-! ## Rules that outlast their counts -/

/-- The bytes counted are never the last ones that the rule needs. -/
def OutlastsCounts (rule : Rule α) : Prop :=
  ∀ input missing : Bytes, rule.run input = .failed (.incomplete (some missing.length)) →
    rule.run (input ++ missing) = .failed (.incomplete none)

theorem outlastsCounts_bytesIn (member : UInt8 → Bool) : (bytesIn member).OutlastsCounts := by
  intro input missing waits
  cases (run_bytesIn_eq_incomplete_iff.mp waits).1

theorem outlastsCounts_expect (literal : Bytes) : (expect literal).OutlastsCounts := by
  intro input missing waits
  exact absurd waits run_expect_ne_counted

theorem OutlastsCounts.bind {first : Rule α} {next : α → Rule β}
    (firstOutlasts : first.OutlastsCounts) (stable : first.Stable)
    (nextOutlasts : ∀ value, (next value).OutlastsCounts) : (first >>= next).OutlastsCounts := by
  intro input missing waits
  rcases run_bind_eq_failed_iff.mp waits with firstWaits | ⟨value, left, firstMatch, nextWaits⟩
  · exact run_bind_failed (firstOutlasts input missing firstWaits) next
  · rw [run_bind_matched (stable.matched_append firstMatch missing)]
    exact nextOutlasts value left missing nextWaits

theorem OutlastsCounts.orElse {first second : Rule α} (firstOutlasts : first.OutlastsCounts)
    (stable : first.Stable) (secondOutlasts : second.OutlastsCounts) :
    (first.orElse second).OutlastsCounts := by
  intro input missing waits
  rw [run_orElse_eq_incomplete_iff]
  rcases run_orElse_eq_incomplete_iff.mp waits with firstWaits | ⟨firstFails, secondWaits⟩
  · exact Or.inl (firstOutlasts input missing firstWaits)
  · exact Or.inr ⟨stable.malformed_append firstFails missing,
      secondOutlasts input missing secondWaits⟩

theorem Counts.outlastsCounts_closed {rule : Rule α} (counts : rule.Counts short)
    {literal : Bytes} (nonempty : literal ≠ []) (wrap : α → β) :
    (do
      let value ← rule
      expect literal
      pure (wrap value)).OutlastsCounts := by
  intro input missing waits
  -- The counted bytes belong to the value, so the closing word is left with no input.
  rcases run_bind_eq_failed_iff.mp waits with ruleWaits | ⟨value, left, -, closeWaits⟩
  · have nextWaits : (expect literal).run [] = .failed (.incomplete none) := by
      rw [run_expect_eq_failed_iff, run_word_eq_incomplete_iff]
      exact ⟨rfl, literal, nonempty, rfl⟩
    rcases (counts.counted ruleWaits).filled missing rfl with stillWaits | ⟨value, ruleMatch⟩
    · exact run_bind_failed stillWaits _
    · rw [run_bind_matched ruleMatch]
      exact run_bind_failed nextWaits _
  · exact absurd closeWaits run_keyword_ne_counted

end Rule

end Imap
