import Imap.Proofs.Grammar.ResponseReading
import Imap.Proofs.Grammar.Stability
import Imap.Proofs.Rule.Counting

/-!
# Only literals count

The grammar counts missing bytes in one place: behind the header of a literal, for the part of the
body that has not arrived. Every other rule passes such a count on, and every rule before or beside
the literal has already decided, so the count that a response gives is that of the literal its input
ends in. No response ends in a literal, and so none is complete when the counted bytes have arrived.
-/

namespace Imap

open Rule Spelling

/-! ## Tokens -/

namespace Number

theorem run_rule_ne_counted {input : Bytes} {needed : Nat} :
    rule.run input ≠ .failed (.incomplete (some needed)) := by
  intro waits
  cases (run_bytesIn_eq_incomplete_iff.mp (run_accepting_eq_incomplete_iff.mp waits)).1

private theorem counts_accepting {α : Type} {accept : Bytes → Option α} {short : Shortage} :
    (digitRun.accepting accept).Counts short := by
  apply counts_of_uncounted
  · exact Or.inl (run_accepting_eq_incomplete_iff.mpr rfl)
  · intro input needed waits
    exact (run_bytesIn_eq_incomplete_iff.mp (run_accepting_eq_incomplete_iff.mp waits)).1

theorem counts_rule {short : Shortage} : rule.Counts short :=
  counts_accepting

theorem counts_wideRule {short : Shortage} : wideRule.Counts short :=
  counts_accepting

end Number

theorem Quoted.counts_rule {short : Shortage} : Quoted.rule.Counts short := by
  refine Counts.after_expect (by decide) (counts_of_uncounted ?_ ?_)
  · exact Or.inl rfl
  · intro input needed waits
    exact (run_body_eq_incomplete_iff.mp waits).1

namespace Literal

/-- The inputs that end in the header of a literal and all of its body but the last `needed`
bytes. -/
def unfinished (needed : Nat) : Set Bytes :=
  {input | ∃ start digits body,
    start ++ ascii "\x7b" ++ digits ++ ascii "\x7d\r\n" ++ body = input ∧
      digits ∈ numeral (body.length + needed) ∧ body.length + needed < UInt32.size}

def shortage : Shortage where
  inputs := unfinished
  absorbing := by
    intro needed front input isShort
    rcases isShort with ⟨start, digits, body, shape, isNumeral, fits⟩
    subst shape
    exact ⟨front ++ start, digits, body, by simp, isNumeral, fits⟩

/-- A literal that counts has a header, and its body has begun. -/
private theorem shape_of_counted {input : Bytes} {needed : Nat}
    (waits : rule.run input = .failed (.incomplete (some needed))) :
    ∃ digits body, ascii "\x7b" ++ (digits ++ (ascii "\x7d\r\n" ++ body)) = input ∧
      digits ∈ numeral (body.length + needed) ∧ body.length + needed < UInt32.size := by
  rcases run_bind_eq_failed_iff.mp waits with openWaits | ⟨_, afterOpen, openMatch, waits⟩
  · exact absurd openWaits run_expect_ne_counted
  rcases run_bind_eq_failed_iff.mp waits with numberWaits | ⟨length, left, numberMatch, waits⟩
  · exact absurd numberWaits Number.run_rule_ne_counted
  rcases run_bind_eq_failed_iff.mp waits with closeWaits | ⟨_, body, closeMatch, bodyWaits⟩
  · exact absurd closeWaits run_expect_ne_counted
  obtain ⟨isMissing, isShort⟩ := run_exactly_eq_incomplete_iff.mp bodyWaits
  obtain rfl := run_expect_eq_matched_iff.mp openMatch
  obtain rfl := run_expect_eq_matched_iff.mp closeMatch
  obtain ⟨-, digits, isNumeral, shape⟩ := Number.reads_rule.sound numberMatch
  subst shape
  have total : body.length + needed = length.toNat := by
    have isMissing := Option.some.inj isMissing
    omega
  rw [← total] at isNumeral
  exact ⟨digits, body, rfl, isNumeral, total ▸ length.toNat_lt⟩

theorem counts_rule : rule.Counts shortage where
  empty := Or.inl (((beginsWith_expect 123 []).bind _).run_nil)
  counted := by
    intro input needed waits
    obtain ⟨digits, body, shape, isNumeral, fits⟩ := shape_of_counted waits
    subst shape
    constructor
    · exact ⟨[], digits, body, by simp, isNumeral, fits⟩
    · intro missing isAll
      have wholeLength : (body ++ missing).length = body.length + needed := by
        rw [List.length_append, isAll]
      have isWord : ascii "\x7b" ++ (digits ++ (ascii "\x7d\r\n" ++ (body ++ missing))) ∈
          spelling (body ++ missing) := by
        rw [← wholeLength] at isNumeral fits
        have isBody : body ++ missing ∈
            asIs (fun body => body.length < UInt32.size) (body ++ missing) := ⟨rfl, fits⟩
        refine mem_prod_of_flatten [_, _, _, _] ?_ (.cons (ascii_mem_literally "\x7b") <|
          .cons isNumeral <| .cons (ascii_mem_literally "\x7d\r\n") <| .cons isBody .nil)
        simp
      have ruleMatch := reads_rule.complete (Set.mem_univ _) isWord (Set.mem_univ [])
      refine Or.inr ⟨body ++ missing, ?_⟩
      simpa using ruleMatch

end Literal

namespace ByteString

theorem counts_rule : rule.Counts Literal.shortage := by
  have formsCount : ∀ form ∈ forms, form.Counts Literal.shortage := by
    simp only [forms, List.forall_mem_cons]
    exact ⟨Quoted.counts_rule, Literal.counts_rule, by simp⟩
  exact counts_firstOf (by simp [forms]) formsCount stable_forms

end ByteString

namespace NullableString

theorem counts_rule : rule.Counts Literal.shortage := by
  have formsCount : ∀ form ∈ forms, form.Counts Literal.shortage := by
    simp only [forms, List.forall_mem_cons]
    exact ⟨counts_keyword (by decide) none, ByteString.counts_rule.map some, by simp⟩
  exact counts_firstOf (by simp [forms]) formsCount stable_forms

/-- Where the word for a missing string cannot stand, a string must be present. -/
private theorem run_present_of_malformed {input : Bytes}
    (notNil : (keyword nil (none : Option Bytes)).run input = .failed .malformed) :
    (rule.accepting id).run input = ByteString.rule.run input := by
  have ruleRun : rule.run input = (ByteString.rule.run input).map some := by
    rw [rule, forms, firstOf_cons, firstOf_cons, firstOf_nil, orElse_reject, run_orElse, notNil,
      run_map]
  rw [accepting, run_bind, ruleRun]
  cases ByteString.rule.run input with
  | matched text rest => rfl
  | failed failure => rfl

/-- A count belongs to a string that is present, so what completes it is accepted. -/
theorem counts_present : (rule.accepting id).Counts Literal.shortage where
  empty := Or.inl (run_accepting_eq_incomplete_iff.mpr rfl)
  counted := by
    intro input needed waits
    have ruleWaits := run_accepting_eq_incomplete_iff.mp waits
    rcases run_orElse_eq_incomplete_iff.mp ruleWaits with nilWaits | ⟨notNil, -⟩
    · exact absurd nilWaits run_keyword_ne_counted
    · rw [run_present_of_malformed notNil] at waits
      obtain ⟨announced, filled⟩ := ByteString.counts_rule.counted waits
      refine ⟨announced, fun missing isAll => ?_⟩
      have stillNotNil := (stable_keyword nil none).malformed_append notNil missing
      rw [run_present_of_malformed stillNotNil]
      exact filled missing isAll

end NullableString

/-! ## Words and flags -/

section Uncounted

variable {short : Shortage}

theorem Atom.counts_rule : Atom.rule.Counts short :=
  counts_bytesIn _

theorem Flag.counts_extensionRule : Flag.extensionRule.Counts short :=
  Atom.counts_rule.announced _ (by decide)

theorem Flag.counts_rule : Flag.rule.Counts short := by
  have formsCount : ∀ form ∈ Flag.forms, form.Counts short := by
    simp only [Flag.forms, List.forall_mem_cons]
    exact ⟨Flag.counts_extensionRule, Atom.counts_rule, by simp⟩
  exact counts_firstOf (by simp [Flag.forms]) formsCount Flag.stable_forms

theorem Flag.counts_permanentRule : Flag.permanentRule.Counts short := by
  have wildcardCounts : (word (ascii "\\*")).Counts short := counts_word (by decide)
  exact wildcardCounts.orElse (stable_word _) (counts_firstOf (by simp) (by simp [Flag.counts_rule])
    (by simp [Flag.stable_rule]))

theorem Flag.counts_listRule : Flag.listRule.Counts short :=
  Flag.counts_rule.parenthesized Flag.stable_rule

/-! ## Conditions -/

theorem Status.counts_rule : Status.rule.Counts short := by
  have formsCount : ∀ form ∈ Status.forms, form.Counts short := by
    intro form member
    obtain ⟨status, -, shape⟩ := List.mem_map.mp member
    subst shape
    have wordNonempty : status.word ≠ [] := by
      cases status <;> decide
    exact (counts_wordAnyCase wordNonempty).map fun _ => status
  exact counts_firstOf (by simp [Status.forms, Status.all]) formsCount Status.stable_forms

theorem ResponseCode.counts_rule : ResponseCode.rule.Counts short := by
  have formsCount : ∀ form ∈ ResponseCode.forms, form.Counts short := by
    simp only [ResponseCode.forms, List.forall_mem_cons]
    refine ⟨?_, ?_, ?_, ?_, ?_, ?_, ?_, by simp⟩
    · exact (Flag.counts_permanentRule.parenthesized Flag.stable_permanentRule).announced _
        (by decide)
    · exact Number.counts_rule.announced _ (by decide)
    · exact Number.counts_rule.announced _ (by decide)
    · exact counts_keyword (by decide) _
    · exact counts_keyword (by decide) _
    · exact counts_keyword (by decide) _
    · exact Number.counts_wideRule.announced _ (by decide)
  have codeCounts := counts_firstOf (by simp [ResponseCode.forms]) formsCount
    ResponseCode.stable_forms
  exact Counts.after_expect (by decide)
    (codeCounts.closed (stable_firstOf ResponseCode.stable_forms) (by decide) id)

theorem Remark.counts_rule : Remark.rule.Counts short := by
  have bracketCounts : ResponseCode.rule.Counts short := ResponseCode.counts_rule
  have knownCounts := bracketCounts.bind ResponseCode.stable_rule fun code =>
    (counts_skipOptional Byte.space).map fun _ => some code
  have codeCounts : Remark.leadingCode.Counts short :=
    knownCounts.orElse Remark.stable_knownCode (counts_pure none)
  exact codeCounts.bind Remark.stable_leadingCode fun _ => (counts_bytesBefore _).map _

theorem Condition.counts_rule : Condition.rule.Counts short :=
  Status.counts_rule.spaced_field Status.stable_rule fun _ => Remark.counts_rule.map _

end Uncounted

/-! ## Fetched messages -/

theorem Address.counts_rule : Address.rule.Counts Literal.shortage := by
  have stringCounts := NullableString.counts_rule
  have stringStable := NullableString.stable_rule
  refine Counts.after_expect (by decide) ?_
  refine stringCounts.spaced_field stringStable fun name => ?_
  refine stringCounts.spaced_field stringStable fun sourceRoute => ?_
  refine stringCounts.spaced_field stringStable fun mailbox => ?_
  exact stringCounts.closed stringStable (by decide) _

theorem AddressList.counts_rule : AddressList.rule.Counts Literal.shortage := by
  have groupCounts : AddressList.groupRule.Counts Literal.shortage :=
    Counts.after_expect (by decide) ((Address.counts_rule.many Address.stable_rule).closed
      (stable_many Address.stable_rule) (by decide) id)
  have formsCount : ∀ form ∈ AddressList.forms, form.Counts Literal.shortage := by
    simp only [AddressList.forms, List.forall_mem_cons]
    exact ⟨counts_keyword (by decide) none, groupCounts.map some, by simp⟩
  exact counts_firstOf (by simp [AddressList.forms]) formsCount AddressList.stable_forms

theorem Envelope.counts_fields : Envelope.fields.Counts Literal.shortage := by
  have stringCounts := NullableString.counts_rule
  have stringStable := NullableString.stable_rule
  have listCounts := AddressList.counts_rule
  have listStable := AddressList.stable_rule
  refine stringCounts.spaced_field stringStable fun date => ?_
  refine stringCounts.spaced_field stringStable fun subject => ?_
  refine listCounts.spaced_field listStable fun sentFrom => ?_
  refine listCounts.spaced_field listStable fun sender => ?_
  refine listCounts.spaced_field listStable fun replyTo => ?_
  refine listCounts.spaced_field listStable fun sentTo => ?_
  refine listCounts.spaced_field listStable fun carbonCopy => ?_
  refine listCounts.spaced_field listStable fun blindCopy => ?_
  refine stringCounts.spaced_field stringStable fun inReplyTo => ?_
  exact stringCounts.closed stringStable (by decide) _

namespace Attribute

theorem counts_rule : rule.Counts Literal.shortage := by
  have formsCount : ∀ form ∈ forms, form.Counts Literal.shortage := by
    simp only [forms, List.forall_mem_cons]
    refine ⟨?_, ?_, ?_, ?_, ?_, ?_, ?_, by simp⟩
    · exact Envelope.counts_fields.announced _ (by decide)
    · exact NullableString.counts_present.announced _ (by decide)
    · exact Flag.counts_listRule.announced _ (by decide)
    · exact Counts.after_expect (by decide)
        (Number.counts_wideRule.closed Number.stable_wideRule (by decide) _)
    · exact NullableString.counts_rule.announced _ (by decide)
    · exact Number.counts_rule.announced _ (by decide)
    · exact Number.counts_rule.announced _ (by decide)
  exact counts_firstOf (by simp [forms]) formsCount stable_forms

theorem counts_listRule : listRule.Counts Literal.shortage :=
  Counts.after_expect (by decide)
    ((counts_rule.spaced stable_rule).closed (stable_spaced stable_rule) (by decide) id)

end Attribute

/-! ## Responses -/

theorem MailboxDatum.counts_rule {short : Shortage} : MailboxDatum.rule.Counts short := by
  have formsCount : ∀ form ∈ MailboxDatum.forms, form.Counts short := by
    simp only [MailboxDatum.forms, List.forall_mem_cons]
    refine ⟨?_, ?_, ?_, by simp⟩
    · exact Flag.counts_listRule.announced _ (by decide)
    · exact Number.counts_rule.closed Number.stable_rule (by decide) _
    · exact Number.counts_rule.closed Number.stable_rule (by decide) _
  exact counts_firstOf (by simp [MailboxDatum.forms]) formsCount MailboxDatum.stable_forms

namespace Response

theorem counts_untaggedForms : ∀ form ∈ untaggedForms, form.Counts Literal.shortage := by
  simp only [untaggedForms, List.forall_mem_cons]
  refine ⟨?_, ?_, ?_, ?_, ?_, by simp⟩
  · exact Condition.counts_rule.map _
  · exact MailboxDatum.counts_rule.map _
  · exact Number.counts_rule.closed Number.stable_rule (by decide) _
  · exact Number.counts_rule.bind Number.stable_rule fun _ =>
      Attribute.counts_listRule.announced _ (by decide)
  · have nameCounts : capabilityNameRule.Counts Literal.shortage :=
      Counts.after_expect (by decide) Atom.counts_rule
    exact (nameCounts.many stable_capabilityNameRule).announced _ (by decide)

private theorem counts_untagged : (firstOf untaggedForms).Counts Literal.shortage :=
  counts_firstOf (by simp [untaggedForms]) counts_untaggedForms stable_untaggedForms

/-- The count that a response gives is that of a literal at the end of its input. -/
theorem counts_rule : rule.Counts Literal.shortage := by
  have formsCount : ∀ form ∈ forms, form.Counts Literal.shortage := by
    simp only [forms, List.forall_mem_cons]
    refine ⟨?_, ?_, by simp⟩
    · exact Counts.after_expect (by decide)
        (counts_untagged.closed (stable_firstOf stable_untaggedForms) (by decide) id)
    · refine (counts_bytesIn _).spaced_field (stable_bytesIn _) fun tag => ?_
      exact Condition.counts_rule.closed Condition.stable_rule (by decide) _
  exact counts_firstOf (by simp [forms]) formsCount stable_forms

/-- The line end comes after every literal. -/
theorem outlastsCounts_rule : rule.OutlastsCounts := by
  have untaggedOutlasts : untaggedRule.OutlastsCounts :=
    (outlastsCounts_expect _).bind (stable_expect _) fun _ =>
      counts_untagged.outlastsCounts_closed (by decide) id
  have taggedOutlasts : taggedRule.OutlastsCounts := by
    refine (outlastsCounts_bytesIn _).bind (stable_bytesIn _) fun tag => ?_
    refine (outlastsCounts_expect _).bind (stable_expect _) fun _ => ?_
    have conditionCounts : Condition.rule.Counts Literal.shortage := Condition.counts_rule
    exact conditionCounts.outlastsCounts_closed (by decide) _
  have isChoice : rule = untaggedRule.orElse taggedRule := by
    rw [rule, forms, firstOf_cons, firstOf_cons, firstOf_nil, orElse_reject]
  rw [isChoice]
  exact untaggedOutlasts.orElse stable_untaggedRule taggedOutlasts

end Response

end Imap
