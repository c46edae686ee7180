import Imap.Rule.Token

/-!
# Repeated rules

Two ways to read a list: items that follow each other directly, and items with one space between
them. Both are greedy. The list ends where the next item is malformed, and a space that no item
follows stays unread. An item or a space that has not arrived yet leaves the whole list incomplete,
since the list could go on. A list in parentheses may also be empty.
-/

namespace Imap.Rule

variable {α : Type}

/-- The items at the front of the input, possibly none. A match that takes no byte ends the list,
since it would match again for ever. -/
def itemsFrom (item : Rule α) (input : Bytes) : Outcome (List α) :=
  match item.run input with
  | .failed .malformed => .matched [] input
  | .failed (.incomplete needed) => .failed (.incomplete needed)
  | .matched value rest =>
    if rest.length < input.length then (itemsFrom item rest).map (value :: ·)
    else .matched [] input
termination_by input.length

/-- The items at the front of the input, each with a space before it, possibly none. -/
def spacedItemsFrom (item : Rule α) (input : Bytes) : Outcome (List α) :=
  match input with
  | [] => .failed (.incomplete none)
  | next :: afterNext =>
    if next = Byte.space then
      match _ : item.run afterNext with
      | .failed .malformed => .matched [] (next :: afterNext)
      | .failed (.incomplete needed) => .failed (.incomplete needed)
      | .matched value rest => (spacedItemsFrom item rest).map (value :: ·)
    else .matched [] (next :: afterNext)
termination_by input.length
decreasing_by
  have := item.rest_length_le ‹_›
  simp only [List.length_cons]
  omega

theorem itemsFrom_suffix (item : Rule α) {input rest : Bytes} {values : List α}
    (itemsMatch : itemsFrom item input = .matched values rest) : rest <:+ input := by
  fun_induction itemsFrom item input generalizing values with
  | case1 =>
    cases itemsMatch
    exact List.suffix_refl _
  | case2 => cases itemsMatch
  | case3 input value middle itemMatch shorter inductionHypothesis =>
    obtain ⟨later, laterMatch, -⟩ := Outcome.map_eq_matched_iff.mp itemsMatch
    exact (inductionHypothesis laterMatch).trans (item.rest_suffix itemMatch)
  | case4 =>
    cases itemsMatch
    exact List.suffix_refl _

theorem spacedItemsFrom_suffix (item : Rule α) {input rest : Bytes} {values : List α}
    (itemsMatch : spacedItemsFrom item input = .matched values rest) : rest <:+ input := by
  fun_induction spacedItemsFrom item input generalizing values with
  | case1 => cases itemsMatch
  | case2 =>
    cases itemsMatch
    exact List.suffix_refl _
  | case3 => cases itemsMatch
  | case4 afterNext value middle itemMatch inductionHypothesis =>
    obtain ⟨later, laterMatch, -⟩ := Outcome.map_eq_matched_iff.mp itemsMatch
    exact ((inductionHypothesis laterMatch).trans (item.rest_suffix itemMatch)).trans
      (List.suffix_cons _ _)
  | case5 =>
    cases itemsMatch
    exact List.suffix_refl _

/-- Items with nothing between them, possibly none. -/
def items (item : Rule α) : Rule (List α) where
  run := itemsFrom item
  rest_suffix := itemsFrom_suffix item

/-- Items with a space before each, possibly none. -/
def spacedItems (item : Rule α) : Rule (List α) where
  run := spacedItemsFrom item
  rest_suffix := spacedItemsFrom_suffix item

/-- One or more items with nothing between them. -/
def many (item : Rule α) : Rule (List α) := do
  let first ← item
  let others ← items item
  pure (first :: others)

/-- One or more items with a space between neighbours. -/
def spaced (item : Rule α) : Rule (List α) := do
  let first ← item
  let others ← spacedItems item
  pure (first :: others)

/-- Items with a space between neighbours, in parentheses. Where no item matches the list is empty,
and the closing parenthesis has to follow at once. -/
def parenthesized (item : Rule α) : Rule (List α) := do
  expect (ascii "(")
  let values ← orElse (spaced item) (pure [])
  expect (ascii ")")
  pure values

end Imap.Rule
