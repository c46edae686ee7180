import Imap.Proofs.Grammar.ResponseReading
import Imap.Proofs.Rule.Series

/-!
# Progress

Every rule of the grammar takes at least one byte whenever it matches, apart from free text and the
remark of a condition, which may both be empty. A rule takes a byte if its first part does, and the
first part of each rule is a word, a run of bytes of one class, or a choice among such rules. The
items of every list are among these rules. So no list of the grammar goes on for ever: each item
takes a byte of what was left, and a list has at most as many items as bytes.
-/

namespace Imap

namespace Rule

variable {α β : Type}

/-- Each match leaves an end of the input, which may be the whole. -/
def LeavesSuffix (rule : Rule α) : Prop :=
  ∀ ⦃input rest : Bytes⦄ ⦃value : α⦄, rule.run input = .matched value rest → rest <:+ input

/-- Each match leaves an end of the input that is shorter than the input. -/
structure Progresses (rule : Rule α) : Prop where
  leavesSuffix : rule.LeavesSuffix
  consuming : rule.Consuming

/-- The alternatives of a choice progress, and so does the choice. -/
structure ChoiceProgresses (forms : List (Rule α)) : Prop where
  forms_progress : ∀ form ∈ forms, form.Progresses
  choice_progresses : (firstOf forms).Progresses

/-- A list comes to an end on every input. From no place can the separator and one more item be read
again and again; the list answers what the series of its items tells; and each of its items has taken
a byte. -/
structure Ends (list : Rule (List α)) (item : Rule α) (separator : Bytes) : Prop where
  wellFounded : WellFounded fun rest input : Bytes =>
    ∃ value, (behind separator item).run input = .matched value rest
  answers : ∀ input, Answers item separator input (list.run input)
  length_le : ∀ {input rest : Bytes} {values : List α}, list.run input = .matched values rest →
    values.length + rest.length ≤ input.length

theorem leavesSuffix (rule : Rule α) : rule.LeavesSuffix :=
  fun _ _ _ isMatch => rule.rest_suffix isMatch

theorem Consuming.progresses {rule : Rule α} (consumes : rule.Consuming) : rule.Progresses :=
  ⟨rule.leavesSuffix, consumes⟩

theorem choiceProgresses_of_consuming {forms : List (Rule α)}
    (allConsume : ∀ form ∈ forms, form.Consuming) : ChoiceProgresses forms where
  forms_progress := fun form member => (allConsume form member).progresses
  choice_progresses := (consuming_firstOf allConsume).progresses

theorem consuming_wordAnyCase {literal : Bytes} (nonempty : literal ≠ []) :
    (wordAnyCase literal).Consuming := by
  intro input rest value isMatch
  obtain ⟨sameLetters, rfl⟩ := run_wordAnyCase_eq_matched_iff.mp isMatch
  have sameLength : value.length = literal.length := by
    simpa using congrArg List.length sameLetters
  have := List.length_pos_iff.mpr nonempty
  rw [List.length_append]
  omega

theorem consuming_keyword {literal : Bytes} (nonempty : literal ≠ []) (value : α) :
    (keyword literal value).Consuming :=
  (consuming_expect nonempty).bind _

theorem Consuming.accepting {rule : Rule α} (consumes : rule.Consuming) (accept : α → Option β) :
    (rule.accepting accept).Consuming :=
  consumes.bind _

theorem consuming_parenthesized (item : Rule α) : (parenthesized item).Consuming :=
  (consuming_expect (by decide)).bind _

theorem Consuming.behind {item : Rule α} (consumes : item.Consuming) (separator : Bytes) :
    (behind separator item).Consuming := by
  intro input rest value isMatch
  obtain ⟨later, rfl, itemMatch⟩ := run_behind_eq_matched_iff.mp isMatch
  have := consumes itemMatch
  rw [List.length_append]
  omega

/-- The bytes left over are a measure of what a list may still read. -/
theorem Repeats.ends {list : Rule (List α)} {item : Rule α} {separator : Bytes}
    (repeats : Repeats list item separator) (consumes : item.Consuming) :
    Ends list item separator where
  wellFounded := by
    refine Subrelation.wf ?_ (measure (List.length : Bytes → Nat)).wf
    rintro rest input ⟨value, isMatch⟩
    exact consumes.behind separator isMatch
  answers := repeats.answers
  length_le := by
    intro input rest values isMatch
    obtain ⟨series, -⟩ := answers_matched_iff.mp (repeats.run_eq_iff.mp isMatch)
    exact series.length_add_le consumes

end Rule

open Rule

/-! ## Tokens -/

theorem Number.consuming_rule : Number.rule.Consuming :=
  (consuming_bytesIn _).accepting _

theorem Number.consuming_wideRule : Number.wideRule.Consuming :=
  (consuming_bytesIn _).accepting _

theorem ByteString.consuming_forms : ∀ form ∈ ByteString.forms, form.Consuming := by
  simp only [ByteString.forms, List.forall_mem_cons]
  refine ⟨?_, ?_, List.forall_mem_nil _⟩
  · exact (consuming_expect (by decide)).bind _
  · exact (consuming_expect (by decide)).bind _

theorem NullableString.consuming_forms : ∀ form ∈ NullableString.forms, form.Consuming := by
  simp only [NullableString.forms, List.forall_mem_cons]
  refine ⟨?_, ?_, List.forall_mem_nil _⟩
  · exact consuming_keyword (by decide) none
  · exact (consuming_firstOf ByteString.consuming_forms).map some

theorem NullableString.consuming_rule : NullableString.rule.Consuming :=
  consuming_firstOf NullableString.consuming_forms

theorem Atom.consuming_rule : Atom.rule.Consuming :=
  consuming_bytesIn _

theorem Flag.consuming_forms : ∀ form ∈ Flag.forms, form.Consuming := by
  simp only [Flag.forms, List.forall_mem_cons]
  refine ⟨?_, Atom.consuming_rule, List.forall_mem_nil _⟩
  exact (consuming_expect (by decide)).bind _

theorem Flag.consuming_rule : Flag.rule.Consuming :=
  consuming_firstOf Flag.consuming_forms

theorem Flag.consuming_permanentForms : ∀ form ∈ Flag.permanentForms, form.Consuming := by
  simp only [Flag.permanentForms, List.forall_mem_cons]
  exact ⟨consuming_word (by decide), Flag.consuming_rule, List.forall_mem_nil _⟩

theorem Flag.consuming_permanentRule : Flag.permanentRule.Consuming :=
  consuming_firstOf Flag.consuming_permanentForms

/-! ## Conditions -/

theorem Status.consuming_forms : ∀ form ∈ Status.forms, form.Consuming := by
  intro form member
  obtain ⟨status, -, rfl⟩ := List.mem_map.mp member
  have nonempty : status.word ≠ [] := by cases status <;> decide
  exact (consuming_wordAnyCase nonempty).bind _

theorem Condition.consuming_rule : Condition.rule.Consuming :=
  (consuming_firstOf Status.consuming_forms).bind _

theorem ResponseCode.consuming_forms : ∀ form ∈ ResponseCode.forms, form.Consuming := by
  simp only [ResponseCode.forms, List.forall_mem_cons]
  refine ⟨?_, ?_, ?_, ?_, ?_, ?_, ?_, List.forall_mem_nil _⟩
  · exact (consuming_expect (by decide)).bind _
  · exact (consuming_expect (by decide)).bind _
  · exact (consuming_expect (by decide)).bind _
  · exact consuming_keyword (by decide) _
  · exact consuming_keyword (by decide) _
  · exact consuming_keyword (by decide) _
  · exact (consuming_expect (by decide)).bind _

theorem ResponseCode.consuming_rule : ResponseCode.rule.Consuming :=
  (consuming_expect (by decide)).bind _

/-! ## Fetched messages -/

theorem AddressList.consuming_groupRule : AddressList.groupRule.Consuming :=
  (consuming_expect (by decide)).bind _

theorem AddressList.consuming_forms : ∀ form ∈ AddressList.forms, form.Consuming := by
  simp only [AddressList.forms, List.forall_mem_cons]
  refine ⟨?_, AddressList.consuming_groupRule.map some, List.forall_mem_nil _⟩
  exact consuming_keyword (by decide) none

theorem Envelope.consuming_fields : Envelope.fields.Consuming :=
  NullableString.consuming_rule.bind _

theorem Attribute.consuming_forms : ∀ form ∈ Attribute.forms, form.Consuming := by
  simp only [Attribute.forms, List.forall_mem_cons]
  refine ⟨?_, ?_, ?_, ?_, ?_, ?_, ?_, List.forall_mem_nil _⟩
  all_goals exact (consuming_expect (by decide)).bind _

theorem Attribute.consuming_rule : Attribute.rule.Consuming :=
  consuming_firstOf Attribute.consuming_forms

theorem Attribute.consuming_listRule : Attribute.listRule.Consuming :=
  (consuming_expect (by decide)).bind _

/-! ## Responses -/

theorem MailboxDatum.consuming_forms : ∀ form ∈ MailboxDatum.forms, form.Consuming := by
  simp only [MailboxDatum.forms, List.forall_mem_cons]
  refine ⟨?_, ?_, ?_, List.forall_mem_nil _⟩
  · exact (consuming_expect (by decide)).bind _
  · exact Number.consuming_rule.bind _
  · exact Number.consuming_rule.bind _

theorem Response.consuming_untaggedForms : ∀ form ∈ Response.untaggedForms, form.Consuming := by
  simp only [Response.untaggedForms, List.forall_mem_cons]
  refine ⟨?_, ?_, ?_, ?_, ?_, List.forall_mem_nil _⟩
  · exact Condition.consuming_rule.map _
  · exact (consuming_firstOf MailboxDatum.consuming_forms).map _
  · exact Number.consuming_rule.bind _
  · exact Number.consuming_rule.bind _
  · exact (consuming_expect (by decide)).bind _

/-- Every rule of the grammar progresses, apart from the two whose match may be empty, and every list
of the grammar comes to an end. -/
theorem rules_progress_and_lists_end :
    (Number.rule.Progresses ∧ Number.wideRule.Progresses ∧ ChoiceProgresses ByteString.forms ∧
      ChoiceProgresses NullableString.forms ∧ Atom.rule.Progresses ∧
      ChoiceProgresses Flag.forms ∧ ChoiceProgresses Flag.permanentForms ∧
      Flag.listRule.Progresses ∧ (parenthesized Flag.permanentRule).Progresses) ∧
    (ChoiceProgresses Status.forms ∧ ChoiceProgresses ResponseCode.forms ∧
      ResponseCode.rule.Progresses ∧ Condition.rule.Progresses) ∧
    (Address.rule.Progresses ∧ AddressList.groupRule.Progresses ∧
      ChoiceProgresses AddressList.forms ∧ Envelope.fields.Progresses ∧
      ChoiceProgresses Attribute.forms ∧ Attribute.listRule.Progresses) ∧
    (ChoiceProgresses MailboxDatum.forms ∧ Response.capabilityNameRule.Progresses ∧
      ChoiceProgresses Response.untaggedForms ∧ Response.tagRule.Progresses ∧
      ChoiceProgresses Response.forms) ∧
    (FreeText.rule.LeavesSuffix ∧ Remark.rule.LeavesSuffix) ∧
    Ends (many Address.rule) Address.rule [] ∧
    Ends (many Response.capabilityNameRule) Response.capabilityNameRule [] ∧
    Ends (spaced Flag.rule) Flag.rule [Byte.space] ∧
    Ends (spaced Flag.permanentRule) Flag.permanentRule [Byte.space] ∧
    Ends (spaced Attribute.rule) Attribute.rule [Byte.space] := by
  -- The rules come in the order of the sections above.
  refine ⟨⟨?_, ?_, ?_, ?_, ?_, ?_, ?_, ?_, ?_⟩, ⟨?_, ?_, ?_, ?_⟩, ⟨?_, ?_, ?_, ?_, ?_, ?_⟩,
    ⟨?_, ?_, ?_, ?_, ?_⟩, ⟨?_, ?_⟩, ?_, ?_, ?_, ?_, ?_⟩
  · exact Number.consuming_rule.progresses
  · exact Number.consuming_wideRule.progresses
  · exact choiceProgresses_of_consuming ByteString.consuming_forms
  · exact choiceProgresses_of_consuming NullableString.consuming_forms
  · exact Atom.consuming_rule.progresses
  · exact choiceProgresses_of_consuming Flag.consuming_forms
  · exact choiceProgresses_of_consuming Flag.consuming_permanentForms
  · exact (consuming_parenthesized Flag.rule).progresses
  · exact (consuming_parenthesized Flag.permanentRule).progresses
  · exact choiceProgresses_of_consuming Status.consuming_forms
  · exact choiceProgresses_of_consuming ResponseCode.consuming_forms
  · exact ResponseCode.consuming_rule.progresses
  · exact Condition.consuming_rule.progresses
  · exact Address.consuming_rule.progresses
  · exact AddressList.consuming_groupRule.progresses
  · exact choiceProgresses_of_consuming AddressList.consuming_forms
  · exact Envelope.consuming_fields.progresses
  · exact choiceProgresses_of_consuming Attribute.consuming_forms
  · exact Attribute.consuming_listRule.progresses
  · exact choiceProgresses_of_consuming MailboxDatum.consuming_forms
  · exact Response.consuming_capabilityNameRule.progresses
  · exact choiceProgresses_of_consuming Response.consuming_untaggedForms
  · exact (consuming_bytesIn Byte.isTagChar).progresses
  · exact choiceProgresses_of_consuming Response.consuming_forms
  · exact FreeText.rule.leavesSuffix
  · exact Remark.rule.leavesSuffix
  · exact (repeats_many Address.consuming_rule).ends Address.consuming_rule
  · exact (repeats_many Response.consuming_capabilityNameRule).ends
      Response.consuming_capabilityNameRule
  · exact (repeats_spaced Flag.rule).ends Flag.consuming_rule
  · exact (repeats_spaced Flag.permanentRule).ends Flag.consuming_permanentRule
  · exact (repeats_spaced Attribute.rule).ends Attribute.consuming_rule

/-- At a line end there is an empty remark, with an empty text. -/
example : Remark.rule.run Bytes.crlf = .matched { code := none, text := none } Bytes.crlf := by
  decide +kernel

end Imap
