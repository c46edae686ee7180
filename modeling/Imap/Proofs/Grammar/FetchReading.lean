import Imap.Proofs.Grammar.TokenReading

/-!
# Fetched messages read their spellings

An address and an envelope are records. Each field is read in its turn and fixes one field of the
value, so the values that remain after all fields are the one record they make up.
-/

namespace Imap

open Rule Spelling

/-! ## Addresses -/

namespace Address

theorem reads_rule : rule.Reads Set.univ spelling Set.univ := by
  refine Reads.after_expect ?_ (ascii "(")
  refine Reads.spaced_field name NullableString.reads_rule fun name => ?_
  refine Reads.spaced_field sourceRoute NullableString.reads_rule fun sourceRoute => ?_
  refine Reads.spaced_field mailbox NullableString.reads_rule fun mailbox => ?_
  refine Reads.field host NullableString.reads_rule (fun host => ?_)
    fun _ _ _ _ _ _ => Set.mem_univ _
  refine Reads.after_expect ?_ (ascii ")")
  refine (reads_pure _).congr ?_ fun _ _ => rfl
  ext ⟨_, _, _, _⟩
  simp [and_assoc]

theorem consuming_rule : rule.Consuming :=
  (consuming_expect (by decide)).bind _

theorem run_rule_close (rest : Bytes) : rule.run (ascii ")" ++ rest) = .failed .malformed :=
  ((beginsWith_expect 40 []).bind _).run_outside (Bytes.cons_mem_startingOutside (by decide) rest)

end Address

namespace AddressList

theorem reads_groupRule : groupRule.Reads Set.univ (fun addresses => spelling (some addresses))
    Set.univ := by
  have addressesRead := reads_many Address.reads_rule Address.consuming_rule
    fun _ _ _ _ => Set.mem_univ _
  have groupReads : groupRule.Reads (id '' Set.univ) (fun addresses => spelling (some addresses))
      Set.univ :=
    addressesRead.enclosed (ascii "(") (ascii ")") id (fun _ _ => rfl)
      fun rest => ⟨Set.mem_univ _, Address.run_rule_close rest⟩
  exact groupReads.congr (by simp) fun _ _ => rfl

theorem reads_rule : rule.Reads Set.univ spelling Set.univ := by
  have nilReads : (keyword NullableString.nil none).Reads {none} spelling Set.univ :=
    reads_keyword NullableString.nil none rfl
  have groupReads : (some <$> groupRule).Reads (Set.range some) spelling Set.univ :=
    reads_groupRule.map some fun _ => rfl
  have eitherReads := reads_firstOf exclusive_forms (.cons nilReads (.cons groupReads .nil))
  refine eitherReads.congr (Set.eq_univ_of_forall fun value => ?_) fun _ _ => rfl
  cases value with
  | none => simp
  | some addresses => simp

end AddressList

/-! ## Envelopes -/

namespace Envelope

theorem reads_fields : fields.Reads Set.univ spelling Set.univ := by
  refine Reads.spaced_field date NullableString.reads_rule fun date => ?_
  refine Reads.spaced_field subject NullableString.reads_rule fun subject => ?_
  refine Reads.spaced_field sentFrom AddressList.reads_rule fun sentFrom => ?_
  refine Reads.spaced_field sender AddressList.reads_rule fun sender => ?_
  refine Reads.spaced_field replyTo AddressList.reads_rule fun replyTo => ?_
  refine Reads.spaced_field sentTo AddressList.reads_rule fun sentTo => ?_
  refine Reads.spaced_field carbonCopy AddressList.reads_rule fun carbonCopy => ?_
  refine Reads.spaced_field blindCopy AddressList.reads_rule fun blindCopy => ?_
  refine Reads.spaced_field inReplyTo NullableString.reads_rule fun inReplyTo => ?_
  refine Reads.field messageId NullableString.reads_rule (fun messageId => ?_)
    fun _ _ _ _ _ _ => Set.mem_univ _
  refine Reads.after_expect ?_ (ascii ")")
  refine (reads_pure _).congr ?_ fun _ _ => rfl
  ext ⟨_, _, _, _, _, _, _, _, _, _⟩
  simp [and_assoc]

end Envelope

/-! ## Attributes -/

namespace Attribute

theorem reads_internalDateRule :
    internalDateRule.Reads (Set.range internalDate) spelling Set.univ := by
  have presentReads : (NullableString.rule.accepting id).Reads Set.univ ByteString.spelling
      Set.univ := by
    refine NullableString.reads_rule.accepting fun value word => ?_
    simp [NullableString.spelling]
  exact presentReads.announced _ internalDate fun _ => rfl

theorem reads_modSeqRule : modSeqRule.Reads (Set.range modSeq) spelling Set.univ := by
  have closedReads : modSeqRule.Reads (modSeq '' Set.univ) spelling Set.univ :=
    Number.reads_wideRule.enclosed (ascii "MODSEQ (") (ascii ")") modSeq (fun _ _ => rfl)
      (Bytes.cons_mem_startingOutside (by decide))
  exact closedReads.congr Set.image_univ fun _ _ => rfl

/-- A number at the end of an attribute is ended by a byte that is no digit. -/
theorem reads_rule : rule.Reads Set.univ spelling (Bytes.startingOutside Byte.isDigit) := by
  have envelopeReads : envelopeRule.Reads (Set.range envelope) spelling Set.univ :=
    Envelope.reads_fields.announced _ envelope fun _ => rfl
  have flagsReads : flagsRule.Reads (Set.range flags) spelling Set.univ :=
    Flag.reads_listRule.announced _ flags fun _ => rfl
  have rfc822Reads : rfc822Rule.Reads (Set.range rfc822) spelling Set.univ :=
    NullableString.reads_rule.announced _ rfc822 fun _ => rfl
  have sizeReads : rfc822SizeRule.Reads (Set.range rfc822Size) spelling
      (Bytes.startingOutside Byte.isDigit) :=
    Number.reads_rule.announced _ rfc822Size fun _ => rfl
  have uidReads : uidRule.Reads (Set.range uid) spelling (Bytes.startingOutside Byte.isDigit) :=
    Number.reads_rule.announced _ uid fun _ => rfl
  have anywhere := Set.subset_univ (Bytes.startingOutside Byte.isDigit)
  have choiceReads := reads_firstOf exclusive_forms
    (.cons (envelopeReads.follow_mono anywhere) <|
      .cons (reads_internalDateRule.follow_mono anywhere) <|
      .cons (flagsReads.follow_mono anywhere) <| .cons (reads_modSeqRule.follow_mono anywhere) <|
      .cons (rfc822Reads.follow_mono anywhere) <| .cons sizeReads <| .cons uidReads .nil)
  refine choiceReads.congr (Set.eq_univ_of_forall fun value => ?_) fun _ _ => rfl
  cases value <;> simp

theorem reads_listRule : listRule.Reads Set.univ listSpelling Set.univ := by
  have attributesRead := reads_spaced reads_rule (Bytes.cons_mem_startingOutside (by decide))
  have listReads : listRule.Reads (id '' Set.univ) listSpelling Set.univ :=
    attributesRead.enclosed (ascii "(") (ascii ")") id (fun _ _ => rfl) fun rest =>
      ⟨Bytes.cons_mem_startingOutside (by decide) rest,
        Bytes.cons_mem_startingOutside (by decide) rest⟩
  exact listReads.congr (by simp) fun _ _ => rfl

end Attribute

end Imap
