import Imap.Proofs.Grammar.Counting
import Imap.Proofs.Rule.Blindness

/-!
# Responses do not look into literals

Counts come from literals, and a literal takes its body as it comes. Here the rules around it are
followed up to the response: each has a slot for every string of its value, so the string that a
literal gives is in one place, and all that is read before and behind it is the same whatever the
literal holds. Only fetched messages have such strings.
-/

namespace Imap

open Rule

/-! ## Slots -/

/-- An address with one open string. -/
inductive Address.Slot : (Bytes → Address) → Prop
  | name (address : Address) : Address.Slot fun text => { address with name := some text }
  | sourceRoute (address : Address) :
      Address.Slot fun text => { address with sourceRoute := some text }
  | mailbox (address : Address) : Address.Slot fun text => { address with mailbox := some text }
  | host (address : Address) : Address.Slot fun text => { address with host := some text }

/-- A list of addresses with one open string in one of its members. -/
inductive AddressList.Slot : (Bytes → AddressList) → Prop
  | group {fill : Bytes → List Address} (isSlot : EntrySlot Address.Slot fill) :
      AddressList.Slot fun text => some (fill text)

/-- An envelope with one open string, among its own or in one of its lists. -/
inductive Envelope.Slot : (Bytes → Envelope) → Prop
  | date (envelope : Envelope) : Envelope.Slot fun text => { envelope with date := some text }
  | subject (envelope : Envelope) :
      Envelope.Slot fun text => { envelope with subject := some text }
  | sentFrom (envelope : Envelope) {fill : Bytes → AddressList} (isSlot : AddressList.Slot fill) :
      Envelope.Slot fun text => { envelope with sentFrom := fill text }
  | sender (envelope : Envelope) {fill : Bytes → AddressList} (isSlot : AddressList.Slot fill) :
      Envelope.Slot fun text => { envelope with sender := fill text }
  | replyTo (envelope : Envelope) {fill : Bytes → AddressList} (isSlot : AddressList.Slot fill) :
      Envelope.Slot fun text => { envelope with replyTo := fill text }
  | sentTo (envelope : Envelope) {fill : Bytes → AddressList} (isSlot : AddressList.Slot fill) :
      Envelope.Slot fun text => { envelope with sentTo := fill text }
  | carbonCopy (envelope : Envelope) {fill : Bytes → AddressList}
      (isSlot : AddressList.Slot fill) :
      Envelope.Slot fun text => { envelope with carbonCopy := fill text }
  | blindCopy (envelope : Envelope) {fill : Bytes → AddressList}
      (isSlot : AddressList.Slot fill) :
      Envelope.Slot fun text => { envelope with blindCopy := fill text }
  | inReplyTo (envelope : Envelope) :
      Envelope.Slot fun text => { envelope with inReplyTo := some text }
  | messageId (envelope : Envelope) :
      Envelope.Slot fun text => { envelope with messageId := some text }

/-- An attribute with one open string. Only three of the seven kinds hold strings. -/
inductive Attribute.Slot : (Bytes → Attribute) → Prop
  | envelope {fill : Bytes → Envelope} (isSlot : Envelope.Slot fill) :
      Attribute.Slot fun text => .envelope (fill text)
  | internalDate : Attribute.Slot fun text => .internalDate text
  | rfc822 : Attribute.Slot fun text => .rfc822 (some text)

/-- A fetch response with one open string in one of its attributes. -/
inductive Response.Slot : (Bytes → Response) → Prop
  | fetch (sequenceNumber : UInt32) {fill : Bytes → List Attribute}
      (isSlot : EntrySlot Attribute.Slot fill) :
      Response.Slot fun text => .fetch sequenceNumber (fill text)

/-! ## Strings -/

theorem Literal.blind_rule : Literal.rule.Blind (· = id) :=
  Blind.after_expect <| Blind.after Number.counts_rule.blind Number.stable_rule fun length =>
    Blind.after_expect (blind_exactly length.toNat)

theorem ByteString.blind_rule : ByteString.rule.Blind (· = id) := by
  refine blind_firstOf ByteString.exclusive_forms ByteString.stable_forms ?_
  simp only [forms, List.forall_mem_cons]
  exact ⟨Quoted.counts_rule.blind, Literal.blind_rule, by simp⟩

theorem NullableString.blind_rule : NullableString.rule.Blind (· = some) := by
  refine blind_firstOf NullableString.exclusive_forms NullableString.stable_forms ?_
  simp only [forms, List.forall_mem_cons]
  refine ⟨blind_keyword nil none, ?_, by simp⟩
  refine ByteString.blind_rule.map ByteString.stable_rule ?_
  rintro _ rfl
  rfl

/-- A literal is a string that is present. -/
theorem NullableString.blind_present : (NullableString.rule.accepting id).Blind (· = id) := by
  refine NullableString.blind_rule.bind NullableString.stable_rule ?_ fun value => ?_
  · rintro _ rfl
    exact fills_pure rfl
  · cases value with
    | none => exact fun _ _ waits => nomatch waits
    | some text => exact (counts_pure text).blind

/-! ## Fetched messages -/

theorem Address.blind_rule : Address.rule.Blind Address.Slot := by
  have stringBlind := NullableString.blind_rule
  have stringStable := NullableString.stable_rule
  refine Blind.after_expect ?_
  refine stringBlind.spaced_field stringStable ?_ fun name => ?_
  · rintro _ rfl
    refine fills_spaced_field fun sourceRoute => ?_
    refine fills_spaced_field fun mailbox => ?_
    exact fills_closed fun host => .name ⟨none, sourceRoute, mailbox, host⟩
  refine stringBlind.spaced_field stringStable ?_ fun sourceRoute => ?_
  · rintro _ rfl
    refine fills_spaced_field fun mailbox => ?_
    exact fills_closed fun host => .sourceRoute ⟨name, none, mailbox, host⟩
  refine stringBlind.spaced_field stringStable ?_ fun mailbox => ?_
  · rintro _ rfl
    exact fills_closed fun host => .mailbox ⟨name, sourceRoute, none, host⟩
  refine stringBlind.closed stringStable ?_
  rintro _ rfl
  exact .host ⟨name, sourceRoute, mailbox, none⟩

theorem AddressList.blind_rule : AddressList.rule.Blind AddressList.Slot := by
  have groupBlind : groupRule.Blind (EntrySlot Address.Slot) :=
    Blind.after_expect <| Address.blind_rule.many_closed Address.stable_rule Address.consuming_rule
      ((exclusive_expect (by decide) (by decide)).bind_left _)
  refine blind_firstOf AddressList.exclusive_forms AddressList.stable_forms ?_
  simp only [forms, List.forall_mem_cons]
  exact ⟨blind_keyword _ none, groupBlind.map stable_groupRule fun _ => .group, by simp⟩

theorem Envelope.blind_fields : Envelope.fields.Blind Envelope.Slot := by
  have stringBlind := NullableString.blind_rule
  have stringStable := NullableString.stable_rule
  have listBlind := AddressList.blind_rule
  have listStable := AddressList.stable_rule
  -- Each field in turn may hold the string; the fields behind it are then read as they are.
  refine stringBlind.spaced_field stringStable ?_ fun date => ?_
  · rintro _ rfl
    iterate 8 refine fills_spaced_field fun _ => ?_
    exact fills_closed fun _ => .date ⟨none, _, _, _, _, _, _, _, _, _⟩
  refine stringBlind.spaced_field stringStable ?_ fun subject => ?_
  · rintro _ rfl
    iterate 7 refine fills_spaced_field fun _ => ?_
    exact fills_closed fun _ => .subject ⟨_, none, _, _, _, _, _, _, _, _⟩
  refine listBlind.spaced_field listStable (fun fill isSlot => ?_) fun sentFrom => ?_
  · iterate 6 refine fills_spaced_field fun _ => ?_
    exact fills_closed fun _ => .sentFrom ⟨_, _, none, _, _, _, _, _, _, _⟩ isSlot
  refine listBlind.spaced_field listStable (fun fill isSlot => ?_) fun sender => ?_
  · iterate 5 refine fills_spaced_field fun _ => ?_
    exact fills_closed fun _ => .sender ⟨_, _, _, none, _, _, _, _, _, _⟩ isSlot
  refine listBlind.spaced_field listStable (fun fill isSlot => ?_) fun replyTo => ?_
  · iterate 4 refine fills_spaced_field fun _ => ?_
    exact fills_closed fun _ => .replyTo ⟨_, _, _, _, none, _, _, _, _, _⟩ isSlot
  refine listBlind.spaced_field listStable (fun fill isSlot => ?_) fun sentTo => ?_
  · iterate 3 refine fills_spaced_field fun _ => ?_
    exact fills_closed fun _ => .sentTo ⟨_, _, _, _, _, none, _, _, _, _⟩ isSlot
  refine listBlind.spaced_field listStable (fun fill isSlot => ?_) fun carbonCopy => ?_
  · iterate 2 refine fills_spaced_field fun _ => ?_
    exact fills_closed fun _ => .carbonCopy ⟨_, _, _, _, _, _, none, _, _, _⟩ isSlot
  refine listBlind.spaced_field listStable (fun fill isSlot => ?_) fun blindCopy => ?_
  · refine fills_spaced_field fun _ => ?_
    exact fills_closed fun _ => .blindCopy ⟨_, _, _, _, _, _, _, none, _, _⟩ isSlot
  refine stringBlind.spaced_field stringStable ?_ fun inReplyTo => ?_
  · rintro _ rfl
    exact fills_closed fun _ => .inReplyTo ⟨_, _, _, _, _, _, _, _, none, _⟩
  refine stringBlind.closed stringStable ?_
  rintro _ rfl
  exact .messageId ⟨_, _, _, _, _, _, _, _, _, none⟩

namespace Attribute

theorem blind_rule : rule.Blind Attribute.Slot := by
  refine blind_firstOf exclusive_forms stable_forms ?_
  simp only [forms, List.forall_mem_cons]
  refine ⟨?_, ?_, ?_, ?_, ?_, ?_, ?_, by simp⟩
  · exact Envelope.blind_fields.announced Envelope.stable_fields fun _ => .envelope
  · refine NullableString.blind_present.announced (NullableString.stable_rule.accepting id) ?_
    rintro _ rfl
    exact .internalDate
  · exact (Flag.counts_listRule.announced _ (by decide)).blind
  · exact (Counts.after_expect (by decide)
      (Number.counts_wideRule.closed Number.stable_wideRule (by decide) _)).blind
  · refine NullableString.blind_rule.announced NullableString.stable_rule ?_
    rintro _ rfl
    exact .rfc822
  · exact (Number.counts_rule.announced _ (by decide)).blind
  · exact (Number.counts_rule.announced _ (by decide)).blind

theorem blind_listRule : listRule.Blind (EntrySlot Attribute.Slot) := by
  have spaceRefused : ∀ rest, (expect (ascii ")")).run (Byte.space :: rest) = .failed .malformed :=
    fun rest => (beginsWith_expect 41 []).run_outside
      (Bytes.cons_mem_startingOutside (by decide) rest)
  exact Blind.after_expect (blind_rule.spaced_closed stable_rule spaceRefused)

end Attribute

/-! ## Responses -/

namespace Response

theorem blind_untaggedForms : (firstOf untaggedForms).Blind Response.Slot := by
  refine blind_firstOf exclusive_untaggedForms stable_untaggedForms ?_
  simp only [untaggedForms, List.forall_mem_cons]
  refine ⟨?_, ?_, ?_, ?_, ?_, by simp⟩
  · exact (Condition.counts_rule.map _).blind
  · exact (MailboxDatum.counts_rule.map _).blind
  · exact (Number.counts_rule.closed Number.stable_rule (by decide) _).blind
  · refine Blind.after Number.counts_rule.blind Number.stable_rule fun sequenceNumber => ?_
    exact Attribute.blind_listRule.announced Attribute.stable_listRule fun _ =>
      .fetch sequenceNumber
  · have nameCounts : capabilityNameRule.Counts .never :=
      Counts.after_expect (by decide) Atom.counts_rule
    exact ((nameCounts.many stable_capabilityNameRule).announced _ (by decide)).blind

/-- A response is the same for all bodies of the literal that its input ends in, but for the string
that the body completes. -/
theorem blind_rule : rule.Blind Response.Slot := by
  refine blind_firstOf exclusive_forms stable_forms ?_
  simp only [forms, List.forall_mem_cons]
  refine ⟨?_, ?_, by simp⟩
  · exact Blind.after_expect <| blind_untaggedForms.closed (stable_firstOf stable_untaggedForms)
      fun _ isSlot => isSlot
  · refine Counts.blind ?_
    refine (counts_bytesIn _).spaced_field (stable_bytesIn _) fun tag => ?_
    exact Condition.counts_rule.closed Condition.stable_rule (by decide) _

end Response

end Imap
