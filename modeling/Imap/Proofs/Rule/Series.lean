import Imap.Proofs.Rule.Answers
import Imap.Rule.Consuming

/-!
# Series of items

A list is read item by item. The items of one kind of list follow each other directly, those of the
other kind have a space between neighbours; both are lists with a separator, which may be empty.
What a list answers can be told from the series of matches that its items form. The failure that
stops the series decides: if nothing can follow, the series is the list, and if it may still go on,
the whole list waits.
-/

namespace Imap.Rule

variable {α : Type} {item : Rule α} {separator input middle rest : Bytes} {value : α}
  {values : List α} {needed : Option Nat}

/-! ## One more item -/

/-- What would carry a list on: the separator and an item. -/
def behind (separator : Bytes) (item : Rule α) : Rule α := do
  expect separator
  item

theorem run_behind_nil (item : Rule α) (input : Bytes) :
    (behind [] item).run input = item.run input :=
  run_bind_expect_append [] input fun _ => item

theorem run_behind_space (item : Rule α) (later : Bytes) :
    (behind [Byte.space] item).run (Byte.space :: later) = item.run later :=
  run_bind_expect_append [Byte.space] later fun _ => item

theorem run_behind_space_nil (item : Rule α) :
    (behind [Byte.space] item).run [] = .failed (.incomplete none) :=
  rfl

theorem run_behind_space_of_outside (item : Rule α)
    (inputOutside : input ∈ Bytes.startingOutside (· == Byte.space)) :
    (behind [Byte.space] item).run input = .failed .malformed := by
  rcases inputOutside with ⟨next, tail, rfl, nextOutside⟩
  have notSpace : next ≠ Byte.space := by simpa using nextOutside
  apply run_bind_failed
  rw [run_expect_eq_failed_iff, run_word_eq_malformed_iff]
  simp [notSpace, notSpace.symm]

theorem run_behind_eq_matched_iff :
    (behind separator item).run input = .matched value rest ↔
      ∃ later, separator ++ later = input ∧ item.run later = .matched value rest := by
  rw [behind, run_bind_eq_matched_iff]
  simp only [run_expect_eq_matched_iff, exists_const]

/-- An input ends at once, starts with another byte than a space, or starts with a space. -/
@[elab_as_elim]
theorem space_cases {motive : Bytes → Prop} (input : Bytes) (empty : motive [])
    (outside : ∀ input ∈ Bytes.startingOutside (· == Byte.space), motive input)
    (space : ∀ later, motive (Byte.space :: later)) : motive input := by
  rcases input with _ | ⟨next, later⟩
  · exact empty
  · by_cases isSpace : next = Byte.space
    · rw [isSpace]
      exact space later
    · exact outside _ (Bytes.cons_mem_startingOutside (by simpa using isSpace) later)

theorem ne_of_outside_space (inputOutside : input ∈ Bytes.startingOutside (· == Byte.space)) :
    input ≠ [] ∧ ∀ later, input ≠ Byte.space :: later := by
  rcases inputOutside with ⟨next, tail, rfl, nextOutside⟩
  have notSpace : next ≠ Byte.space := by simpa using nextOutside
  exact ⟨List.cons_ne_nil next tail, fun later same => notSpace (List.cons.inj same).1⟩

theorem run_behind_space_eq_malformed_iff :
    (behind [Byte.space] item).run input = .failed .malformed ↔
      input ≠ [] ∧ ∀ later, input = Byte.space :: later →
        item.run later = .failed .malformed := by
  cases input using space_cases with
  | empty => simp [run_behind_space_nil]
  | outside input inputOutside =>
    obtain ⟨nonempty, noSpace⟩ := ne_of_outside_space inputOutside
    refine iff_of_true (run_behind_space_of_outside item inputOutside) ⟨nonempty, ?_⟩
    exact fun later same => absurd same (noSpace later)
  | space later => simp [run_behind_space]

theorem run_behind_space_eq_incomplete_iff :
    (behind [Byte.space] item).run input = .failed (.incomplete needed) ↔
      input = [] ∧ needed = none ∨
        ∃ later, input = Byte.space :: later ∧
          item.run later = .failed (.incomplete needed) := by
  cases input using space_cases with
  | empty =>
    rw [run_behind_space_nil, Outcome.failed.injEq, Failure.incomplete.injEq]
    simp [eq_comm (a := needed)]
  | outside input inputOutside =>
    obtain ⟨nonempty, noSpace⟩ := ne_of_outside_space inputOutside
    simp [run_behind_space_of_outside item inputOutside, nonempty, noSpace]
  | space later => simp [run_behind_space]

/-! ## Series -/

/-- Items that match one after the other, the separator standing between neighbours: their values in
order, and what the last of them leaves. -/
inductive Series (item : Rule α) (separator : Bytes) : Bytes → List α → Bytes → Prop where
  | last {input rest : Bytes} {value : α} (isMatch : item.run input = .matched value rest) :
      Series item separator input [value] rest
  | more {input middle rest : Bytes} {value : α} {values : List α}
      (isMatch : item.run input = .matched value (separator ++ middle))
      (later : Series item separator middle values rest) :
      Series item separator input (value :: values) rest

theorem Series.exists_match (series : Series item separator input values rest) :
    ∃ value afterFirst, item.run input = .matched value afterFirst := by
  cases series with
  | last isMatch => exact ⟨_, _, isMatch⟩
  | more isMatch later => exact ⟨_, _, isMatch⟩

/-- Each item of a series costs a byte at least. -/
theorem Series.length_add_le (series : Series item separator input values rest)
    (consumes : item.Consuming) : values.length + rest.length ≤ input.length := by
  induction series with
  | last isMatch =>
    have := consumes isMatch
    simp only [List.length_singleton]
    omega
  | more isMatch later inductionHypothesis =>
    have := consumes isMatch
    simp only [List.length_append] at this
    simp only [List.length_cons]
    omega

/-- What a list answers when it has read a series and one more item fails: a malformed item ends the
list in front of the separator, an incomplete one is passed on. -/
def stopped (values : List α) (rest : Bytes) : Failure → Outcome (List α)
  | .malformed => .matched values rest
  | .incomplete needed => .failed (.incomplete needed)

theorem map_stopped (value : α) (values : List α) (rest : Bytes) (failure : Failure) :
    (stopped values rest failure).map (value :: ·) = stopped (value :: values) rest failure := by
  cases failure <;> rfl

/-- The answers that a list may give, told from the series at the front of the input. -/
inductive Answers (item : Rule α) (separator input : Bytes) : Outcome (List α) → Prop where
  | failed {failure : Failure} (isFailure : item.run input = .failed failure) :
      Answers item separator input (.failed failure)
  | stopped {values : List α} {rest : Bytes} {failure : Failure}
      (series : Series item separator input values rest)
      (stops : (behind separator item).run rest = .failed failure) :
      Answers item separator input (stopped values rest failure)

theorem Answers.more {outcome : Outcome (List α)} {other : α}
    (isMatch : item.run input = .matched value (separator ++ middle))
    (otherMatch : item.run middle = .matched other rest)
    (later : Answers item separator middle outcome) :
    Answers item separator input (outcome.map (value :: ·)) := by
  cases later with
  | failed isFailure =>
    rw [isFailure] at otherMatch
    cases otherMatch
  | stopped series stops =>
    rw [map_stopped]
    exact .stopped (.more isMatch series) stops

theorem answers_matched_iff :
    Answers item separator input (.matched values rest) ↔
      Series item separator input values rest ∧
        (behind separator item).run rest = .failed .malformed := by
  constructor
  · intro answers
    generalize equality : Outcome.matched values rest = outcome at answers
    cases answers with
    | failed isFailure => cases equality
    | @stopped _ _ failure series stops =>
      cases failure <;> cases equality
      exact ⟨series, stops⟩
  · rintro ⟨series, stops⟩
    exact .stopped series stops

theorem answers_malformed_iff :
    Answers item separator input (.failed .malformed) ↔ item.run input = .failed .malformed := by
  constructor
  · intro answers
    generalize equality : Outcome.failed (α := List α) .malformed = outcome at answers
    cases answers with
    | failed isFailure =>
      cases equality
      exact isFailure
    | @stopped _ _ failure series stops => cases failure <;> cases equality
  · exact .failed

theorem answers_incomplete_iff :
    Answers item separator input (.failed (.incomplete needed)) ↔
      item.run input = .failed (.incomplete needed) ∨
        ∃ values rest, Series item separator input values rest ∧
          (behind separator item).run rest = .failed (.incomplete needed) := by
  constructor
  · intro answers
    generalize equality : Outcome.failed (α := List α) (.incomplete needed) = outcome at answers
    cases answers with
    | failed isFailure =>
      cases equality
      exact Or.inl isFailure
    | @stopped values rest failure series stops =>
      cases failure <;> cases equality
      exact Or.inr ⟨values, rest, series, stops⟩
  · rintro (isFailure | ⟨values, rest, series, stops⟩)
    · exact .failed isFailure
    · exact .stopped series stops

/-! ## Lists -/

/-- The equations of a list: the failure of its first item, the end behind its first item, and one
item in front of a shorter list. -/
structure Repeats (list : Rule (List α)) (item : Rule α) (separator : Bytes) : Prop where
  failed : ∀ {input : Bytes} {failure : Failure},
    item.run input = .failed failure → list.run input = .failed failure
  stopped : ∀ {input rest : Bytes} {value : α} {failure : Failure},
    item.run input = .matched value rest → (behind separator item).run rest = .failed failure →
      list.run input = stopped [value] rest failure
  more : ∀ {input middle rest : Bytes} {value other : α},
    item.run input = .matched value (separator ++ middle) →
      item.run middle = .matched other rest →
        list.run input = (list.run middle).map (value :: ·)
  shorter : ∀ {input middle : Bytes} {value : α},
    item.run input = .matched value (separator ++ middle) → middle.length < input.length

namespace Repeats

variable {list : Rule (List α)}

theorem answers (repeats : Repeats list item separator) (input : Bytes) :
    Answers item separator input (list.run input) := by
  -- The list goes on behind the first item only, so the induction is on the length of the input.
  induction length : input.length using Nat.strong_induction_on generalizing input with
  | _ length inductionHypothesis =>
    subst length
    cases answer : item.run input with
    | failed failure =>
      rw [repeats.failed answer]
      exact .failed answer
    | matched value afterFirst =>
      cases next : (behind separator item).run afterFirst with
      | failed failure =>
        rw [repeats.stopped answer next]
        exact .stopped (.last answer) next
      | matched other afterOther =>
        obtain ⟨middle, shape, otherMatch⟩ := run_behind_eq_matched_iff.mp next
        subst shape
        have later := inductionHypothesis middle.length (repeats.shorter answer) middle rfl
        rw [repeats.more answer otherMatch]
        exact .more answer otherMatch later

theorem run_of_series (repeats : Repeats list item separator)
    (series : Series item separator input values rest) {failure : Failure}
    (stops : (behind separator item).run rest = .failed failure) :
    list.run input = Rule.stopped values rest failure := by
  induction series with
  | last isMatch => exact repeats.stopped isMatch stops
  | more isMatch later inductionHypothesis =>
    obtain ⟨other, afterOther, otherMatch⟩ := later.exists_match
    rw [repeats.more isMatch otherMatch, inductionHypothesis stops, map_stopped]

/-- A list answers what the series of its items tells, and nothing else. -/
theorem run_eq_iff (repeats : Repeats list item separator) {outcome : Outcome (List α)} :
    list.run input = outcome ↔ Answers item separator input outcome := by
  constructor
  · intro equality
    rw [← equality]
    exact repeats.answers input
  · intro answers
    cases answers with
    | failed isFailure => exact repeats.failed isFailure
    | stopped series stops => exact repeats.run_of_series series stops

end Repeats

theorem run_many_of_matched (isMatch : item.run input = .matched value rest) :
    (many item).run input = ((items item).run rest).map (value :: ·) := by
  rw [many, run_bind_matched isMatch]
  exact run_map (value :: ·) (items item) rest

theorem run_spaced_of_matched (isMatch : item.run input = .matched value rest) :
    (spaced item).run input = ((spacedItems item).run rest).map (value :: ·) := by
  rw [spaced, run_bind_matched isMatch]
  exact run_map (value :: ·) (spacedItems item) rest

theorem run_items_of_stopped {failure : Failure} (stops : item.run input = .failed failure) :
    (items item).run input = stopped [] input failure := by
  cases failure with
  | malformed => exact run_items_of_malformed stops
  | incomplete needed => exact run_items_of_incomplete stops

theorem run_spacedItems_of_stopped {failure : Failure}
    (stops : (behind [Byte.space] item).run input = .failed failure) :
    (spacedItems item).run input = stopped [] input failure := by
  cases input using space_cases with
  | empty =>
    rw [run_behind_space_nil] at stops
    cases stops
    exact run_spacedItems_nil
  | outside input inputOutside =>
    rw [run_behind_space_of_outside item inputOutside] at stops
    cases stops
    exact run_spacedItems_of_outside inputOutside
  | space later =>
    rw [run_behind_space] at stops
    cases failure with
    | malformed => exact run_spacedItems_of_malformed stops
    | incomplete needed => exact run_spacedItems_of_incomplete stops

/-- An item that takes nothing would match at the same place for ever, so the items are asked to take
a byte each. -/
theorem repeats_many (consumes : item.Consuming) : Repeats (many item) item [] where
  failed := fun isFailure => run_bind_failed isFailure _
  stopped := by
    intro input rest value failure isMatch stops
    rw [run_behind_nil] at stops
    rw [run_many_of_matched isMatch, run_items_of_stopped stops, map_stopped]
  more := by
    intro input middle rest value other isMatch otherMatch
    rw [run_many_of_matched isMatch, run_many_of_matched otherMatch]
    exact congrArg _ (run_items_of_matched otherMatch (consumes otherMatch))
  shorter := fun isMatch => consumes isMatch

/-- The space between neighbours is progress enough, whatever the items take. -/
theorem repeats_spaced (item : Rule α) : Repeats (spaced item) item [Byte.space] where
  failed := fun isFailure => run_bind_failed isFailure _
  stopped := by
    intro input rest value failure isMatch stops
    rw [run_spaced_of_matched isMatch, run_spacedItems_of_stopped stops, map_stopped]
  more := by
    intro input middle rest value other isMatch otherMatch
    rw [run_spaced_of_matched isMatch, run_spaced_of_matched otherMatch]
    exact congrArg _ (run_spacedItems_of_matched otherMatch)
  shorter := fun isMatch => item.rest_length_le isMatch

end Imap.Rule
