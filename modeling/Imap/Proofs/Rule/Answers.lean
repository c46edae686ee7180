import Mathlib.Data.List.TakeWhile
import Mathlib.Data.Set.Basic
import Imap.Rule.Repetition

/-!
# The answers of rules

For each single token, the exact inputs on which it matches, waits, or is malformed; for sequences
and ordered choices, how their answers come from those of their parts. Later theories read these
equivalences and do not open the rules themselves.
-/

namespace Imap

/-- The inputs that start with a byte outside a class. A run of the class ends before them. -/
def Bytes.startingOutside (member : UInt8 → Bool) : Set Bytes :=
  {input | ∃ next rest, input = next :: rest ∧ member next = false}

namespace Bytes

variable {member : UInt8 → Bool}

theorem cons_mem_startingOutside {next : UInt8} (isOutside : member next = false) (rest : Bytes) :
    next :: rest ∈ startingOutside member :=
  ⟨next, rest, rfl, isOutside⟩

theorem append_mem_startingOutside {input : Bytes} (isOutside : input ∈ startingOutside member)
    (later : Bytes) : input ++ later ∈ startingOutside member := by
  rcases isOutside with ⟨next, rest, rfl, nextOutside⟩
  exact cons_mem_startingOutside nextOutside (rest ++ later)

/-- What starts outside a class starts outside a smaller one. -/
theorem startingOutside_subset {wider : UInt8 → Bool}
    (contained : ∀ byte, member byte = true → wider byte = true) :
    startingOutside wider ⊆ startingOutside member := by
  intro input inputOutside
  rcases inputOutside with ⟨next, rest, rfl, nextOutside⟩
  cases nextMember : member next with
  | false => exact cons_mem_startingOutside nextMember rest
  | true => simp [contained next nextMember] at nextOutside

/-- A run of a class and what follows it are found again by scanning for the class. -/
theorem scan_append {run rest : Bytes} (allMember : ∀ byte ∈ run, member byte = true)
    (restOutside : rest ∈ startingOutside member) :
    (run ++ rest).takeWhile member = run ∧ (run ++ rest).dropWhile member = rest := by
  rcases restOutside with ⟨next, tail, rfl, nextOutside⟩
  have notMember : ¬ member next = true := by simp [nextOutside]
  rw [List.takeWhile_append_of_pos allMember, List.dropWhile_append_of_pos allMember,
    List.takeWhile_cons_of_neg notMember, List.dropWhile_cons_of_neg notMember]
  exact ⟨List.append_nil run, rfl⟩

/-- Scanning for a class either reaches the end of the input or stops before a byte outside it. -/
theorem all_member_or_split (member : UInt8 → Bool) (input : Bytes) :
    (∀ byte ∈ input, member byte = true) ∨
      ∃ run rest, run ++ rest = input ∧ (∀ byte ∈ run, member byte = true) ∧
        rest ∈ startingOutside member := by
  induction input with
  | nil => exact Or.inl (by simp)
  | cons next input inductionHypothesis =>
    cases nextMember : member next with
    | false =>
      exact Or.inr ⟨[], next :: input, rfl, by simp,
        cons_mem_startingOutside nextMember input⟩
    | true =>
      rcases inductionHypothesis with allMember | ⟨run, rest, rfl, runMember, restOutside⟩
      · exact Or.inl (List.forall_mem_cons.mpr ⟨nextMember, allMember⟩)
      · exact Or.inr ⟨next :: run, rest, rfl,
          List.forall_mem_cons.mpr ⟨nextMember, runMember⟩, restOutside⟩

end Bytes

theorem Outcome.map_eq_failed_iff {α β : Type} {change : α → β} {outcome : Outcome α}
    {failure : Failure} : outcome.map change = .failed failure ↔ outcome = .failed failure := by
  cases outcome with
  | matched value rest => simp
  | failed outcomeFailure => simp

namespace Rule

variable {α β : Type} {input rest value : Bytes} {needed : Option Nat}

/-! ## Words -/

theorem run_word_append (literal rest : Bytes) :
    (word literal).run (literal ++ rest) = .matched literal rest := by
  simp [word]

theorem run_word_eq_matched_iff {literal : Bytes} :
    (word literal).run input = .matched value rest ↔ value = literal ∧ literal ++ rest = input := by
  constructor
  · intro equality
    simp only [word] at equality
    split at equality
    · rename_i isPrefix
      cases equality
      exact ⟨rfl, List.prefix_iff_eq_append.mp isPrefix⟩
    · split at equality <;> cases equality
  · rintro ⟨rfl, rfl⟩
    exact run_word_append value rest

theorem run_word_eq_incomplete_iff {literal : Bytes} :
    (word literal).run input = .failed (.incomplete needed) ↔
      needed = none ∧ ∃ missing, missing ≠ [] ∧ input ++ missing = literal := by
  constructor
  · intro equality
    simp only [word] at equality
    split at equality
    · cases equality
    · rename_i notPrefix
      split at equality
      · rename_i isExtension
        cases equality
        rcases isExtension with ⟨missing, shape⟩
        subst shape
        refine ⟨rfl, missing, ?_, rfl⟩
        rintro rfl
        exact notPrefix (by simp)
      · cases equality
  · rintro ⟨rfl, missing, nonempty, rfl⟩
    have notPrefix : ¬ input ++ missing <+: input := by
      intro isPrefix
      have := isPrefix.length_le
      have := List.length_pos_iff.mpr nonempty
      simp only [List.length_append] at *
      omega
    simp only [word, notPrefix, if_false, List.prefix_append, if_true]

theorem run_word_eq_malformed_iff {literal : Bytes} :
    (word literal).run input = .failed .malformed ↔
      ¬ literal <+: input ∧ ¬ input <+: literal := by
  constructor
  · intro equality
    simp only [word] at equality
    split at equality
    · cases equality
    · rename_i notPrefix
      split at equality
      · cases equality
      · rename_i notExtension
        exact ⟨notPrefix, notExtension⟩
  · rintro ⟨notPrefix, notExtension⟩
    simp only [word, notPrefix, notExtension, if_false]

theorem run_expect (literal input : Bytes) :
    (expect literal).run input = ((word literal).run input).map fun _ => () :=
  run_map (fun _ => ()) (word literal) input

theorem run_expect_eq_matched_iff {literal : Bytes} {found : Unit} :
    (expect literal).run input = .matched found rest ↔ literal ++ rest = input := by
  rw [run_expect, Outcome.map_eq_matched_iff]
  constructor
  · rintro ⟨spelling, wordMatch, -⟩
    exact (run_word_eq_matched_iff.mp wordMatch).2
  · intro equality
    exact ⟨literal, run_word_eq_matched_iff.mpr ⟨rfl, equality⟩, rfl⟩

theorem run_bind_expect_append (literal rest : Bytes) (next : Unit → Rule α) :
    (expect literal >>= next).run (literal ++ rest) = (next ()).run rest := by
  have literalMatch : (expect literal).run (literal ++ rest) = .matched () rest :=
    run_expect_eq_matched_iff.mpr rfl
  exact run_bind_matched literalMatch next

theorem run_expect_eq_failed_iff {literal : Bytes} {failure : Failure} :
    (expect literal).run input = .failed failure ↔
      (word literal).run input = .failed failure := by
  rw [run_expect, Outcome.map_eq_failed_iff]

theorem run_wordAnyCase_eq_matched_iff {literal : Bytes} :
    (wordAnyCase literal).run input = .matched value rest ↔
      value.lower = literal.lower ∧ value ++ rest = input := by
  constructor
  · intro equality
    simp only [wordAnyCase] at equality
    split at equality
    · rename_i isPrefix
      cases equality
      refine ⟨?_, List.take_append_drop literal.length input⟩
      have sameLength : literal.lower.length = literal.length := Bytes.length_lower literal
      have taken := List.prefix_iff_eq_take.mp isPrefix
      rw [sameLength] at taken
      rw [taken]
      exact List.map_take
    · split at equality <;> cases equality
  · rintro ⟨sameLower, rfl⟩
    have sameLength : value.length = literal.length := by
      simpa using congrArg List.length sameLower
    have lowerAppend : (value ++ rest).lower = value.lower ++ rest.lower := List.map_append
    have isPrefix : literal.lower <+: (value ++ rest).lower := by
      rw [lowerAppend, sameLower]
      exact List.prefix_append _ _
    simp only [wordAnyCase, isPrefix, if_true, ← sameLength]
    rw [List.take_left, List.drop_left]

theorem run_wordAnyCase_eq_incomplete_iff {literal : Bytes} :
    (wordAnyCase literal).run input = .failed (.incomplete needed) ↔
      needed = none ∧ input.length < literal.length ∧ input.lower <+: literal.lower := by
  constructor
  · intro equality
    simp only [wordAnyCase] at equality
    split at equality
    · cases equality
    · rename_i notPrefix
      split at equality
      · rename_i isExtension
        cases equality
        refine ⟨rfl, ?_, isExtension⟩
        by_contra notShorter
        have shorter := isExtension.length_le
        have same : input.lower = literal.lower := by
          apply isExtension.eq_of_length_le
          simp only [Bytes.length_lower] at *
          omega
        exact notPrefix (same ▸ List.prefix_rfl)
      · cases equality
  · rintro ⟨rfl, shorter, isExtension⟩
    have notPrefix : ¬ literal.lower <+: input.lower := by
      intro isPrefix
      have := isPrefix.length_le
      simp only [Bytes.length_lower] at this
      omega
    simp only [wordAnyCase, notPrefix, isExtension, if_true, if_false]

theorem run_wordAnyCase_eq_malformed_iff {literal : Bytes} :
    (wordAnyCase literal).run input = .failed .malformed ↔
      ¬ literal.lower <+: input.lower ∧ ¬ input.lower <+: literal.lower := by
  constructor
  · intro equality
    simp only [wordAnyCase] at equality
    split at equality
    · cases equality
    · rename_i notPrefix
      split at equality
      · cases equality
      · rename_i notExtension
        exact ⟨notPrefix, notExtension⟩
  · rintro ⟨notPrefix, notExtension⟩
    simp only [wordAnyCase, notPrefix, notExtension, if_false]

/-! ## Runs of a class -/

theorem run_bytesIn_eq_matched_iff {member : UInt8 → Bool} :
    (bytesIn member).run input = .matched value rest ↔
      value ≠ [] ∧ (∀ byte ∈ value, member byte = true) ∧
        rest ∈ Bytes.startingOutside member ∧ value ++ rest = input := by
  constructor
  · intro equality
    have split := List.takeWhile_append_dropWhile (p := member) (l := input)
    simp only [bytesIn] at equality
    split at equality
    · cases equality
    · rename_i next tail ended
      split at equality
      · cases equality
      · rename_i nonempty
        cases equality
        have nextOutside : member next = false := by
          have stopped := List.head?_dropWhile_not member input
          rw [ended] at stopped
          simpa using stopped
        rw [ended] at split
        exact ⟨nonempty, fun byte => List.mem_takeWhile_imp,
          Bytes.cons_mem_startingOutside nextOutside tail, split⟩
  · rintro ⟨nonempty, allMember, restOutside, rfl⟩
    obtain ⟨taken, dropped⟩ := Bytes.scan_append allMember restOutside
    rcases restOutside with ⟨next, tail, rfl, -⟩
    simp only [bytesIn, taken, dropped, nonempty, if_false]

theorem run_bytesIn_eq_incomplete_iff {member : UInt8 → Bool} :
    (bytesIn member).run input = .failed (.incomplete needed) ↔
      needed = none ∧ ∀ byte ∈ input, member byte = true := by
  constructor
  · intro equality
    simp only [bytesIn] at equality
    split at equality
    · rename_i ended
      cases equality
      exact ⟨rfl, List.dropWhile_eq_nil_iff.mp ended⟩
    · split at equality <;> cases equality
  · rintro ⟨rfl, allMember⟩
    simp only [bytesIn, List.dropWhile_eq_nil_iff.mpr allMember]

theorem run_bytesIn_eq_malformed_iff {member : UInt8 → Bool} :
    (bytesIn member).run input = .failed .malformed ↔
      input ∈ Bytes.startingOutside member := by
  constructor
  · intro equality
    cases input with
    | nil => simp [bytesIn] at equality
    | cons next rest =>
      cases nextMember : member next with
      | false => exact Bytes.cons_mem_startingOutside nextMember rest
      | true =>
        simp only [bytesIn, List.takeWhile_cons_of_pos nextMember] at equality
        split at equality
        · cases equality
        · split at equality
          · rename_i empty
            cases empty
          · cases equality
  · rintro ⟨next, rest, rfl, nextOutside⟩
    have notMember : ¬ member next = true := by simp [nextOutside]
    simp only [bytesIn, List.dropWhile_cons_of_neg notMember,
      List.takeWhile_cons_of_neg notMember, if_true]

theorem run_bytesBefore_eq_matched_iff {stop : UInt8 → Bool} :
    (bytesBefore stop).run input = .matched value rest ↔
      (∀ byte ∈ value, stop byte = false) ∧
        rest ∈ Bytes.startingOutside (fun byte => !stop byte) ∧ value ++ rest = input := by
  constructor
  · intro equality
    have split := List.takeWhile_append_dropWhile (p := fun byte => !stop byte) (l := input)
    simp only [bytesBefore] at equality
    split at equality
    · cases equality
    · rename_i next tail ended
      cases equality
      have nextOutside : (!stop next) = false := by
        have stopped := List.head?_dropWhile_not (fun byte => !stop byte) input
        rw [ended] at stopped
        simpa using stopped
      rw [ended] at split
      refine ⟨fun byte byteMember => ?_, Bytes.cons_mem_startingOutside nextOutside tail, split⟩
      simpa using List.mem_takeWhile_imp byteMember
  · rintro ⟨noStop, restOutside, rfl⟩
    have allMember : ∀ byte ∈ value, (!stop byte) = true := by simpa using noStop
    obtain ⟨taken, dropped⟩ := Bytes.scan_append allMember restOutside
    rcases restOutside with ⟨next, tail, rfl, -⟩
    simp only [bytesBefore, taken, dropped]

theorem run_bytesBefore_ne_malformed {stop : UInt8 → Bool} :
    (bytesBefore stop).run input ≠ .failed .malformed := by
  intro equality
  simp only [bytesBefore] at equality
  split at equality <;> cases equality

theorem run_bytesBefore_eq_incomplete_iff {stop : UInt8 → Bool} :
    (bytesBefore stop).run input = .failed (.incomplete needed) ↔
      needed = none ∧ ∀ byte ∈ input, stop byte = false := by
  constructor
  · intro equality
    simp only [bytesBefore] at equality
    split at equality
    · rename_i ended
      cases equality
      have allMember := List.dropWhile_eq_nil_iff.mp ended
      exact ⟨rfl, by simpa using allMember⟩
    · cases equality
  · rintro ⟨rfl, noStop⟩
    have allMember : ∀ byte ∈ input, (!stop byte) = true := by simpa using noStop
    simp only [bytesBefore, List.dropWhile_eq_nil_iff.mpr allMember]

/-! ## Counted bytes and the optional byte -/

theorem run_exactly_eq_matched_iff {count : Nat} :
    (exactly count).run input = .matched value rest ↔
      value.length = count ∧ value ++ rest = input := by
  constructor
  · intro equality
    simp only [exactly] at equality
    split at equality
    · cases equality
    · cases equality
      exact ⟨List.length_take_of_le (by omega), List.take_append_drop count input⟩
  · rintro ⟨rfl, rfl⟩
    have notShort : ¬ (value ++ rest).length < value.length := by
      rw [List.length_append]
      omega
    simp only [exactly, notShort, if_false]
    rw [List.take_left, List.drop_left]

theorem run_exactly_eq_incomplete_iff {count : Nat} :
    (exactly count).run input = .failed (.incomplete needed) ↔
      needed = some (count - input.length) ∧ input.length < count := by
  constructor
  · intro equality
    simp only [exactly] at equality
    split at equality
    · rename_i short
      cases equality
      exact ⟨rfl, short⟩
    · cases equality
  · rintro ⟨rfl, short⟩
    simp only [exactly, short, if_true]

theorem run_exactly_ne_malformed {count : Nat} :
    (exactly count).run input ≠ .failed .malformed := by
  intro equality
  simp only [exactly] at equality
  split at equality <;> cases equality

theorem run_skipOptional_cons_self (byte : UInt8) (rest : Bytes) :
    (skipOptional byte).run (byte :: rest) = .matched () rest := by
  simp only [skipOptional, if_true]

theorem run_skipOptional_of_outside {byte : UInt8}
    (restOutside : rest ∈ Bytes.startingOutside (· == byte)) :
    (skipOptional byte).run rest = .matched () rest := by
  rcases restOutside with ⟨next, tail, rfl, nextOutside⟩
  have different : next ≠ byte := by simpa using nextOutside
  simp only [skipOptional, different, if_false]

theorem run_skipOptional_eq_matched_iff {byte : UInt8} {found : Unit} :
    (skipOptional byte).run input = .matched found rest ↔
      input = byte :: rest ∨ input = rest ∧ rest ∈ Bytes.startingOutside (· == byte) := by
  constructor
  · intro equality
    rcases input with _ | ⟨next, tail⟩
    · cases equality
    · by_cases isByte : next = byte
      · rw [isByte, run_skipOptional_cons_self] at equality
        cases equality
        exact Or.inl (by rw [isByte])
      · have isOutside : next :: tail ∈ Bytes.startingOutside (· == byte) :=
          ⟨next, tail, rfl, beq_eq_false_iff_ne.mpr isByte⟩
        rw [run_skipOptional_of_outside isOutside] at equality
        cases equality
        exact Or.inr ⟨rfl, isOutside⟩
  · intro shape
    rcases shape with isByte | ⟨isSame, isOutside⟩
    · rw [isByte, run_skipOptional_cons_self]
    · rw [isSame, run_skipOptional_of_outside isOutside]

theorem run_skipOptional_eq_failed_iff {byte : UInt8} {failure : Failure} :
    (skipOptional byte).run input = .failed failure ↔ failure = .incomplete none ∧ input = [] := by
  rcases input with _ | ⟨next, tail⟩
  · simp [skipOptional, eq_comm]
  · by_cases isByte : next = byte
    · simp [skipOptional, isByte]
    · simp [skipOptional, isByte]

/-! ## Sequence and choice -/

theorem run_bind_eq_failed_iff {first : Rule α} {next : α → Rule β} {failure : Failure} :
    (first >>= next).run input = .failed failure ↔
      first.run input = .failed failure ∨
        ∃ middle firstRest, first.run input = .matched middle firstRest ∧
          (next middle).run firstRest = .failed failure := by
  rw [run_bind]
  cases first.run input with
  | matched middle firstRest =>
    constructor
    · exact fun nextFailure => Or.inr ⟨middle, firstRest, rfl, nextFailure⟩
    · rintro (equality | ⟨_, _, equality, nextFailure⟩)
      · cases equality
      · cases equality
        exact nextFailure
  | failed firstFailure => simp

theorem run_map_eq_failed_iff {change : α → β} {rule : Rule α} {failure : Failure} :
    (change <$> rule).run input = .failed failure ↔ rule.run input = .failed failure := by
  rw [run_map, Outcome.map_eq_failed_iff]

theorem run_accepting_eq_matched_iff {rule : Rule α} {accept : α → Option β} {found : β} :
    (rule.accepting accept).run input = .matched found rest ↔
      ∃ earlier, rule.run input = .matched earlier rest ∧ accept earlier = some found := by
  rw [accepting, run_bind_eq_matched_iff]
  constructor
  · intro steps
    rcases steps with ⟨earlier, afterRule, ruleMatch, acceptMatch⟩
    cases accepted : accept earlier with
    | none => simp [accepted] at acceptMatch
    | some value =>
      rw [accepted] at acceptMatch
      cases acceptMatch
      exact ⟨earlier, ruleMatch, accepted⟩
  · intro steps
    rcases steps with ⟨earlier, ruleMatch, accepted⟩
    refine ⟨earlier, rest, ruleMatch, ?_⟩
    rw [accepted]
    rfl

theorem run_accepting_eq_incomplete_iff {rule : Rule α} {accept : α → Option β} :
    (rule.accepting accept).run input = .failed (.incomplete needed) ↔
      rule.run input = .failed (.incomplete needed) := by
  rw [accepting, run_bind_eq_failed_iff]
  refine ⟨fun waits => ?_, fun waits => Or.inl waits⟩
  rcases waits with ruleWaits | ⟨earlier, afterRule, -, acceptWaits⟩
  · exact ruleWaits
  · cases accepted : accept earlier with
    | none => simp [accepted] at acceptWaits
    | some value => simp [accepted] at acceptWaits

theorem run_accepting_of_refused {rule : Rule α} {accept : α → Option β} {earlier : α}
    (ruleMatch : rule.run input = .matched earlier rest) (refused : accept earlier = none) :
    (rule.accepting accept).run input = .failed .malformed := by
  rw [accepting, run_bind_matched ruleMatch, refused]
  rfl

theorem run_orElse_eq_matched_iff {first second : Rule α} {found : α} :
    (first.orElse second).run input = .matched found rest ↔
      first.run input = .matched found rest ∨
        first.run input = .failed .malformed ∧ second.run input = .matched found rest := by
  rw [run_orElse]
  cases first.run input with
  | matched firstFound firstRest => simp
  | failed failure =>
    cases failure with
    | malformed => simp
    | incomplete count => simp

theorem run_orElse_eq_incomplete_iff {first second : Rule α} :
    (first.orElse second).run input = .failed (.incomplete needed) ↔
      first.run input = .failed (.incomplete needed) ∨
        first.run input = .failed .malformed ∧
          second.run input = .failed (.incomplete needed) := by
  rw [run_orElse]
  cases first.run input with
  | matched firstFound firstRest => simp
  | failed failure =>
    cases failure with
    | malformed => simp
    | incomplete count => simp

theorem run_orElse_eq_malformed_iff {first second : Rule α} :
    (first.orElse second).run input = .failed .malformed ↔
      first.run input = .failed .malformed ∧ second.run input = .failed .malformed := by
  rw [run_orElse]
  cases first.run input with
  | matched firstFound firstRest => simp
  | failed failure =>
    cases failure with
    | malformed => simp
    | incomplete count => simp

theorem run_firstOf_eq_malformed_iff {rules : List (Rule α)} :
    (firstOf rules).run input = .failed .malformed ↔
      ∀ rule ∈ rules, rule.run input = .failed .malformed := by
  induction rules with
  | nil => simp
  | cons rule rules inductionHypothesis =>
    rw [firstOf_cons, run_orElse_eq_malformed_iff, inductionHypothesis, List.forall_mem_cons]

/-! ## Lists -/

section Lists

variable {item : Rule α} {found : α}

theorem run_items_of_malformed (itemFailure : item.run input = .failed .malformed) :
    (items item).run input = .matched [] input := by
  change itemsFrom item input = _
  rw [itemsFrom, itemFailure]

theorem run_items_of_incomplete (itemFailure : item.run input = .failed (.incomplete needed)) :
    (items item).run input = .failed (.incomplete needed) := by
  change itemsFrom item input = _
  rw [itemsFrom, itemFailure]

theorem run_items_of_matched (itemMatch : item.run input = .matched found rest)
    (shorter : rest.length < input.length) :
    (items item).run input = ((items item).run rest).map (found :: ·) := by
  change itemsFrom item input = (itemsFrom item rest).map (found :: ·)
  rw [itemsFrom, itemMatch]
  simp only [shorter, if_true]

theorem run_items_of_standstill (itemMatch : item.run input = .matched found rest)
    (notShorter : ¬ rest.length < input.length) :
    (items item).run input = .matched [] input := by
  change itemsFrom item input = _
  rw [itemsFrom, itemMatch]
  simp only [notShorter, if_false]

theorem run_spacedItems_nil : (spacedItems item).run [] = .failed (.incomplete none) := by
  change spacedItemsFrom item [] = _
  rw [spacedItemsFrom]

theorem run_spacedItems_of_outside
    (inputOutside : input ∈ Bytes.startingOutside (· == Byte.space)) :
    (spacedItems item).run input = .matched [] input := by
  rcases inputOutside with ⟨next, tail, rfl, nextOutside⟩
  have notSpace : next ≠ Byte.space := by simpa using nextOutside
  change spacedItemsFrom item (next :: tail) = _
  rw [spacedItemsFrom, if_neg notSpace]

theorem run_spacedItems_of_malformed (itemFailure : item.run input = .failed .malformed) :
    (spacedItems item).run (Byte.space :: input) = .matched [] (Byte.space :: input) := by
  change spacedItemsFrom item (Byte.space :: input) = _
  rw [spacedItemsFrom, if_pos rfl]
  split <;> simp_all

theorem run_spacedItems_of_incomplete
    (itemFailure : item.run input = .failed (.incomplete needed)) :
    (spacedItems item).run (Byte.space :: input) = .failed (.incomplete needed) := by
  change spacedItemsFrom item (Byte.space :: input) = _
  rw [spacedItemsFrom, if_pos rfl]
  split <;> simp_all

theorem run_spacedItems_of_matched (itemMatch : item.run input = .matched found rest) :
    (spacedItems item).run (Byte.space :: input) =
      ((spacedItems item).run rest).map (found :: ·) := by
  change spacedItemsFrom item (Byte.space :: input) = (spacedItemsFrom item rest).map _
  rw [spacedItemsFrom, if_pos rfl]
  split <;> simp_all

/-- A list goes on from what an item leaves, so a property of inputs may be assumed of that. -/
@[elab_as_elim]
theorem items_induction (item : Rule α) {motive : Bytes → Prop} (input : Bytes)
    (malformed : ∀ input, item.run input = .failed .malformed → motive input)
    (incomplete : ∀ input needed, item.run input = .failed (.incomplete needed) → motive input)
    (standstill : ∀ input found rest, item.run input = .matched found rest →
      ¬ rest.length < input.length → motive input)
    (matched : ∀ input found rest, item.run input = .matched found rest →
      rest.length < input.length → motive rest → motive input) : motive input := by
  induction length : input.length using Nat.strong_induction_on generalizing input with
  | _ length inductionHypothesis =>
    subst length
    cases answer : item.run input with
    | matched found rest =>
      by_cases shorter : rest.length < input.length
      · exact matched input found rest answer shorter
          (inductionHypothesis rest.length shorter rest rfl)
      · exact standstill input found rest answer shorter
    | failed failure =>
      cases failure with
      | malformed => exact malformed input answer
      | incomplete needed => exact incomplete input needed answer

@[elab_as_elim]
theorem spacedItems_induction (item : Rule α) {motive : Bytes → Prop} (input : Bytes)
    (empty : motive [])
    (outside : ∀ input, input ∈ Bytes.startingOutside (· == Byte.space) → motive input)
    (malformed : ∀ afterSpace, item.run afterSpace = .failed .malformed →
      motive (Byte.space :: afterSpace))
    (incomplete : ∀ afterSpace needed, item.run afterSpace = .failed (.incomplete needed) →
      motive (Byte.space :: afterSpace))
    (matched : ∀ afterSpace found rest, item.run afterSpace = .matched found rest →
      motive rest → motive (Byte.space :: afterSpace)) : motive input := by
  induction length : input.length using Nat.strong_induction_on generalizing input with
  | _ length inductionHypothesis =>
    subst length
    rcases input with _ | ⟨next, afterNext⟩
    · exact empty
    · by_cases isSpace : next = Byte.space
      · subst isSpace
        cases answer : item.run afterNext with
        | matched found rest =>
          have shorter : rest.length < (Byte.space :: afterNext).length :=
            Nat.lt_succ_of_le (item.rest_length_le answer)
          exact matched afterNext found rest answer
            (inductionHypothesis rest.length shorter rest rfl)
        | failed failure =>
          cases failure with
          | malformed => exact malformed afterNext answer
          | incomplete needed => exact incomplete afterNext needed answer
      · exact outside (next :: afterNext)
          (Bytes.cons_mem_startingOutside (by simpa using isSpace) afterNext)

end Lists

end Rule

end Imap
