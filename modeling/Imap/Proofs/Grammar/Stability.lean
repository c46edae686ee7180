import Imap.Proofs.Grammar.Quoted
import Imap.Proofs.Rule.Stability
import Imap.Response.Decode

/-!
# Every rule of the grammar is stable

Only two rules need an argument of their own: the scanner for the closing quote, and the literal,
whose body depends on the number before it. All others are built from stable parts.
-/

namespace Imap

open Rule

namespace Quoted

theorem stable_body : body.Stable := by
  apply stable_of_uncounted
  · intro input rest value bodyMatch later
    have closed := run_body_eq_matched_iff.mp bodyMatch
    exact run_body_eq_matched_iff.mpr (close?_append closed later)
  · intro input bodyFailure
    exact absurd bodyFailure run_body_ne_malformed
  · intro input needed bodyFailure
    exact (run_body_eq_incomplete_iff.mp bodyFailure).1

theorem stable_rule : rule.Stable :=
  (stable_expect _).bind fun _ => stable_body

end Quoted

/-! ## Tokens -/

theorem Number.stable_rule : Number.rule.Stable :=
  (stable_bytesIn _).accepting _

theorem Number.stable_wideRule : Number.wideRule.Stable :=
  (stable_bytesIn _).accepting _

theorem Literal.stable_rule : Literal.rule.Stable :=
  (stable_expect _).bind fun _ => Number.stable_rule.bind fun _ =>
    (stable_expect _).bind fun _ => stable_exactly _

theorem ByteString.stable_forms : ∀ form ∈ ByteString.forms, form.Stable := by
  simp [ByteString.forms, Quoted.stable_rule, Literal.stable_rule]

theorem ByteString.stable_rule : ByteString.rule.Stable :=
  stable_firstOf ByteString.stable_forms

theorem NullableString.stable_forms : ∀ form ∈ NullableString.forms, form.Stable := by
  simp [NullableString.forms, stable_keyword, ByteString.stable_rule.map]

theorem NullableString.stable_rule : NullableString.rule.Stable :=
  stable_firstOf NullableString.stable_forms

theorem Atom.stable_rule : Atom.rule.Stable :=
  stable_bytesIn _

theorem Flag.stable_extensionRule : Flag.extensionRule.Stable :=
  (stable_expect _).bind fun _ => Atom.stable_rule.bind fun _ => stable_pure _

theorem Flag.stable_forms : ∀ form ∈ Flag.forms, form.Stable := by
  simp [Flag.forms, Flag.stable_extensionRule, Atom.stable_rule]

theorem Flag.stable_rule : Flag.rule.Stable :=
  stable_firstOf Flag.stable_forms

theorem Flag.stable_permanentRule : Flag.permanentRule.Stable :=
  stable_firstOf (by simp [Flag.permanentForms, stable_word, Flag.stable_rule])

theorem Flag.stable_listRule : Flag.listRule.Stable :=
  stable_parenthesized Flag.stable_rule

/-! ## Conditions -/

/-- A rule that reads a word and then one value is as stable as the rule for the value. -/
theorem stable_announced {α β : Type} (literal : Bytes) {rule : Rule α} (stable : rule.Stable)
    (wrap : α → β) :
    (do
      expect literal
      let value ← rule
      pure (wrap value)).Stable :=
  (stable_expect _).bind fun _ => stable.bind fun _ => stable_pure _

theorem Status.stable_forms : ∀ form ∈ Status.forms, form.Stable := by
  intro form member
  obtain ⟨status, -, shape⟩ := List.mem_map.mp member
  subst shape
  exact (stable_wordAnyCase _).bind fun _ => stable_pure _

theorem Status.stable_rule : Status.rule.Stable :=
  stable_firstOf Status.stable_forms

theorem ResponseCode.stable_forms : ∀ form ∈ ResponseCode.forms, form.Stable := by
  simp only [ResponseCode.forms, List.forall_mem_cons]
  refine ⟨?_, ?_, ?_, ?_, ?_, ?_, ?_, by simp⟩
  · exact stable_announced _ (stable_parenthesized Flag.stable_permanentRule) _
  · exact stable_announced _ Number.stable_rule _
  · exact stable_announced _ Number.stable_rule _
  · exact stable_keyword _ _
  · exact stable_keyword _ _
  · exact stable_keyword _ _
  · exact stable_announced _ Number.stable_wideRule _

theorem ResponseCode.stable_rule : ResponseCode.rule.Stable :=
  (stable_expect _).bind fun _ => (stable_firstOf ResponseCode.stable_forms).bind fun _ =>
    (stable_expect _).bind fun _ => stable_pure _

theorem Remark.stable_knownCode :
    (do
      let code ← ResponseCode.rule
      skipOptional Byte.space
      pure (some code)).Stable :=
  ResponseCode.stable_rule.bind fun _ => (stable_skipOptional _).bind fun _ => stable_pure _

theorem Remark.stable_leadingCode : Remark.leadingCode.Stable :=
  Remark.stable_knownCode.orElse (stable_pure none)

theorem Remark.stable_rule : Remark.rule.Stable :=
  Remark.stable_leadingCode.bind fun _ => (stable_bytesBefore _).bind fun _ => stable_pure _

theorem Condition.stable_rule : Condition.rule.Stable :=
  Status.stable_rule.bind fun _ => stable_space.bind fun _ =>
    Remark.stable_rule.bind fun _ => stable_pure _

/-! ## Fetched messages -/

theorem Address.stable_rule : Address.rule.Stable :=
  (stable_expect _).bind fun _ => NullableString.stable_rule.bind fun _ =>
    stable_space.bind fun _ => NullableString.stable_rule.bind fun _ =>
    stable_space.bind fun _ => NullableString.stable_rule.bind fun _ =>
    stable_space.bind fun _ => NullableString.stable_rule.bind fun _ =>
    (stable_expect _).bind fun _ => stable_pure _

theorem AddressList.stable_groupRule : AddressList.groupRule.Stable :=
  (stable_expect _).bind fun _ => (stable_many Address.stable_rule).bind fun _ =>
    (stable_expect _).bind fun _ => stable_pure _

theorem AddressList.stable_forms : ∀ form ∈ AddressList.forms, form.Stable := by
  simp [AddressList.forms, stable_keyword, AddressList.stable_groupRule.map]

theorem AddressList.stable_rule : AddressList.rule.Stable :=
  stable_firstOf AddressList.stable_forms

theorem Envelope.stable_fields : Envelope.fields.Stable :=
  NullableString.stable_rule.bind fun _ => stable_space.bind fun _ =>
    NullableString.stable_rule.bind fun _ => stable_space.bind fun _ =>
    AddressList.stable_rule.bind fun _ => stable_space.bind fun _ =>
    AddressList.stable_rule.bind fun _ => stable_space.bind fun _ =>
    AddressList.stable_rule.bind fun _ => stable_space.bind fun _ =>
    AddressList.stable_rule.bind fun _ => stable_space.bind fun _ =>
    AddressList.stable_rule.bind fun _ => stable_space.bind fun _ =>
    AddressList.stable_rule.bind fun _ => stable_space.bind fun _ =>
    NullableString.stable_rule.bind fun _ => stable_space.bind fun _ =>
    NullableString.stable_rule.bind fun _ => (stable_expect _).bind fun _ => stable_pure _

theorem Attribute.stable_forms : ∀ form ∈ Attribute.forms, form.Stable := by
  simp only [Attribute.forms, List.forall_mem_cons]
  refine ⟨?_, ?_, ?_, ?_, ?_, ?_, ?_, by simp⟩
  · exact stable_announced _ Envelope.stable_fields _
  · exact stable_announced _ (NullableString.stable_rule.accepting id) _
  · exact stable_announced _ Flag.stable_listRule _
  · exact (stable_expect _).bind fun _ => Number.stable_wideRule.bind fun _ =>
      (stable_expect _).bind fun _ => stable_pure _
  · exact stable_announced _ NullableString.stable_rule _
  · exact stable_announced _ Number.stable_rule _
  · exact stable_announced _ Number.stable_rule _

theorem Attribute.stable_rule : Attribute.rule.Stable :=
  stable_firstOf Attribute.stable_forms

theorem Attribute.stable_listRule : Attribute.listRule.Stable :=
  (stable_expect _).bind fun _ => (stable_spaced Attribute.stable_rule).bind fun _ =>
    (stable_expect _).bind fun _ => stable_pure _

/-! ## Responses -/

/-- A rule that reads a number and then a word is stable. -/
theorem stable_counted {β : Type} (literal : Bytes) (wrap : UInt32 → β) :
    (do
      let count ← Number.rule
      expect literal
      pure (wrap count)).Stable :=
  Number.stable_rule.bind fun _ => (stable_expect _).bind fun _ => stable_pure _

theorem MailboxDatum.stable_forms : ∀ form ∈ MailboxDatum.forms, form.Stable := by
  simp only [MailboxDatum.forms, List.forall_mem_cons]
  refine ⟨?_, ?_, ?_, by simp⟩
  · exact stable_announced _ Flag.stable_listRule _
  · exact stable_counted _ _
  · exact stable_counted _ _

theorem MailboxDatum.stable_rule : MailboxDatum.rule.Stable :=
  stable_firstOf MailboxDatum.stable_forms

namespace Response

theorem stable_capabilityNameRule : capabilityNameRule.Stable :=
  stable_space.bind fun _ => Atom.stable_rule

theorem stable_untaggedForms : ∀ form ∈ untaggedForms, form.Stable := by
  simp only [untaggedForms, List.forall_mem_cons]
  refine ⟨?_, ?_, ?_, ?_, ?_, by simp⟩
  · exact Condition.stable_rule.map _
  · exact MailboxDatum.stable_rule.map _
  · exact stable_counted _ _
  · exact Number.stable_rule.bind fun _ => (stable_expect _).bind fun _ =>
      Attribute.stable_listRule.bind fun _ => stable_pure _
  · exact stable_announced _ (stable_many stable_capabilityNameRule) _

theorem stable_untaggedRule : untaggedRule.Stable :=
  (stable_expect _).bind fun _ => (stable_firstOf stable_untaggedForms).bind fun _ =>
    (stable_expect _).bind fun _ => stable_pure _

theorem stable_taggedRule : taggedRule.Stable :=
  (stable_bytesIn _).bind fun _ => stable_space.bind fun _ =>
    Condition.stable_rule.bind fun _ => (stable_expect _).bind fun _ => stable_pure _

theorem stable_forms : ∀ form ∈ forms, form.Stable := by
  simp [forms, stable_untaggedRule, stable_taggedRule]

/-- Bytes received later change no definite answer about a response. -/
theorem stable_rule : rule.Stable :=
  stable_firstOf stable_forms

end Response

end Imap
