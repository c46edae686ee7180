import Imap.Rule.Outcome

/-!
# Grammar rules

A rule reads a value from the front of a byte string. Its type holds the one fact that every rule
shares: the bytes left over by a match are a suffix of the bytes given. Repetition needs it to end,
and a decoder needs it to say how many bytes belong to a value.

Rules form a monad, so a rule for a composite value is written as the sequence of its parts. The
first part that fails decides the failure of the whole.
-/

namespace Imap

/-- A reader of a value at the front of a byte string. -/
@[ext]
structure Rule (α : Type) where
  run : Bytes → Outcome α
  rest_suffix :
    ∀ {input rest : Bytes} {value : α}, run input = .matched value rest → rest <:+ input

namespace Rule

variable {α β : Type}

/-- Matches any input without reading from it. -/
def succeed (value : α) : Rule α where
  run input := .matched value input
  rest_suffix := by
    intro input rest found equality
    cases equality
    exact List.suffix_refl input

/-- Matches nothing. -/
def reject : Rule α where
  run _ := .failed .malformed
  rest_suffix := nofun

/-- Reads with the first rule, then with the rule that its value selects. -/
def andThen (first : Rule α) (next : α → Rule β) : Rule β where
  run input :=
    match first.run input with
    | .matched value rest => (next value).run rest
    | .failed failure => .failed failure
  rest_suffix := by
    intro input rest found equality
    split at equality
    · rename_i value middle firstMatch
      exact ((next value).rest_suffix equality).trans (first.rest_suffix firstMatch)
    · cases equality

instance : Monad Rule where
  pure := succeed
  bind := andThen

/-- Tries the second rule on the same input where the first is malformed. A first rule that waits
for more bytes decides, since the second could only match by ignoring bytes not yet received. -/
def orElse (first second : Rule α) : Rule α where
  run input :=
    match first.run input with
    | .failed .malformed => second.run input
    | outcome => outcome
  rest_suffix := by
    intro input rest found equality
    split at equality
    · exact second.rest_suffix equality
    · exact first.rest_suffix equality

/-- Ordered choice: the first rule that is not malformed decides. -/
def firstOf (rules : List (Rule α)) : Rule α :=
  rules.foldr orElse reject

/-- Keeps a match whose value is accepted and refuses any other as malformed. -/
def accepting (rule : Rule α) (accept : α → Option β) : Rule β := do
  let value ← rule
  match accept value with
  | some accepted => pure accepted
  | none => reject

@[simp]
theorem run_succeed (value : α) (input : Bytes) :
    (succeed value).run input = .matched value input :=
  rfl

@[simp]
theorem run_reject (input : Bytes) : (reject : Rule α).run input = .failed .malformed :=
  rfl

@[simp]
theorem run_pure (value : α) (input : Bytes) :
    (pure value : Rule α).run input = .matched value input :=
  rfl

theorem run_bind (first : Rule α) (next : α → Rule β) (input : Bytes) :
    (first >>= next).run input =
      match first.run input with
      | .matched value rest => (next value).run rest
      | .failed failure => .failed failure :=
  rfl

theorem run_bind_matched {first : Rule α} {input rest : Bytes} {value : α}
    (firstMatch : first.run input = .matched value rest) (next : α → Rule β) :
    (first >>= next).run input = (next value).run rest := by
  rw [run_bind, firstMatch]

theorem run_bind_failed {first : Rule α} {input : Bytes} {failure : Failure}
    (firstFailure : first.run input = .failed failure) (next : α → Rule β) :
    (first >>= next).run input = .failed failure := by
  rw [run_bind, firstFailure]

theorem run_bind_eq_matched_iff {first : Rule α} {next : α → Rule β} {input rest : Bytes}
    {value : β} :
    (first >>= next).run input = .matched value rest ↔
      ∃ middle firstRest, first.run input = .matched middle firstRest ∧
        (next middle).run firstRest = .matched value rest := by
  rw [run_bind]
  cases first.run input with
  | matched middle firstRest =>
    constructor
    · exact fun nextMatch => ⟨middle, firstRest, rfl, nextMatch⟩
    · rintro ⟨_, _, firstEquality, nextMatch⟩
      cases firstEquality
      exact nextMatch
  | failed failure => simp

@[simp]
theorem run_map (change : α → β) (rule : Rule α) (input : Bytes) :
    (change <$> rule).run input = (rule.run input).map change := by
  change (rule >>= fun value => pure (change value)).run input = _
  rw [run_bind]
  cases rule.run input <;> rfl

theorem run_orElse (first second : Rule α) (input : Bytes) :
    (orElse first second).run input =
      match first.run input with
      | .failed .malformed => second.run input
      | outcome => outcome :=
  rfl

@[simp]
theorem firstOf_nil : firstOf ([] : List (Rule α)) = reject :=
  rfl

@[simp]
theorem firstOf_cons (rule : Rule α) (rules : List (Rule α)) :
    firstOf (rule :: rules) = orElse rule (firstOf rules) :=
  rfl

theorem rest_length_le (rule : Rule α) {input rest : Bytes} {value : α}
    (ruleMatch : rule.run input = .matched value rest) : rest.length ≤ input.length :=
  (rule.rest_suffix ruleMatch).length_le

end Rule

end Imap
