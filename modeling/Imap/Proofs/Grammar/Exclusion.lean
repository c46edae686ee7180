import Mathlib.Data.FinEnum
import Imap.Proofs.Rule.Exclusion
import Imap.Response.Grammar

/-!
# Each choice of the grammar is between rules that exclude each other

There are eleven choices. In most of them the alternatives start with different words or bytes. The
numbers of messages are followed by different words, and a backslash is followed by a star or by an
atom, which holds no star.
-/

namespace Imap

open Rule

/-! ## Tokens -/

theorem ByteString.exclusive_forms : ByteString.forms.Pairwise Exclusive := by
  have quotedLiteral : Quoted.rule.Exclusive Literal.rule :=
    exclusive_announced (by decide) (by decide) _ _
  simp [ByteString.forms, quotedLiteral]

theorem NullableString.exclusive_forms : NullableString.forms.Pairwise Exclusive := by
  have stringNil :
      ByteString.rule.Exclusive (keyword NullableString.nil (none : Option Bytes)) := by
    apply exclusive_firstOf
    simp only [ByteString.forms, List.forall_mem_cons]
    refine ⟨?_, ?_, by simp⟩
    · exact exclusive_announced (by decide) (by decide) _ _
    · exact exclusive_announced (by decide) (by decide) _ _
  have nilString := (stringNil.map_left some).symm
  simp [NullableString.forms, nilString]

theorem AddressList.exclusive_forms : AddressList.forms.Pairwise Exclusive := by
  have nilGroup : (keyword NullableString.nil (none : AddressList)).Exclusive
      AddressList.groupRule :=
    exclusive_announced (by decide) (by decide) _ _
  simp [AddressList.forms, nilGroup.map_right]

theorem Flag.exclusive_forms : Flag.forms.Pairwise Exclusive := by
  have backslashAtom : (expect [Byte.backslash]).Exclusive Atom.rule :=
    (beginsWith_expect Byte.backslash []).exclusive_letter (beginsWith_bytesIn _) (by decide)
  have extensionAtom : Flag.extensionRule.Exclusive Atom.rule := backslashAtom.bind_left _
  simp [Flag.forms, extensionAtom]

/-- The wildcard is no flag, since the star after its backslash belongs to no atom. -/
theorem Flag.exclusive_wildcard_extensionRule :
    (word (ascii "\\*")).Exclusive Flag.extensionRule := by
  intro input
  have wordBegins := beginsWith_word Byte.backslash (ascii "*")
  rcases input with _ | ⟨first, rest⟩
  · exact Or.inr (Or.inr ⟨none, wordBegins.run_nil, rfl⟩)
  · by_cases isBackslash : first = Byte.backslash
    · subst isBackslash
      have afterBackslash : extensionRule.run (Byte.backslash :: rest) =
          (Atom.rule >>= fun name => pure (Byte.backslash :: name)).run rest :=
        run_bind_expect_append [Byte.backslash] rest _
      rcases rest with _ | ⟨second, rest⟩
      · exact Or.inr (Or.inr ⟨none, rfl, afterBackslash⟩)
      · by_cases isStar : second = 42
        · have starFails : Atom.rule.run (second :: rest) = .failed .malformed := by
            rw [isStar]
            exact run_bytesIn_eq_malformed_iff.mpr
              (Bytes.cons_mem_startingOutside (by decide) rest)
          refine Or.inr (Or.inl ?_)
          rw [afterBackslash, run_bind_failed starFails]
        · refine Or.inl (run_word_eq_malformed_iff.mpr ?_)
          have wildcard : ascii "\\*" = [Byte.backslash, 42] := by decide
          simp [wildcard, isStar, Ne.symm isStar]
    · exact Or.inl (wordBegins.run_outside
        (Bytes.cons_mem_startingOutside (by simpa using isBackslash) rest))

theorem Flag.exclusive_permanentForms : Flag.permanentForms.Pairwise Exclusive := by
  have wildcardAtom : (word (ascii "\\*")).Exclusive Atom.rule :=
    (beginsWith_word Byte.backslash (ascii "*")).exclusive_letter (beginsWith_bytesIn _)
      (by decide)
  have flagWildcard : Flag.rule.Exclusive (word (ascii "\\*")) := by
    apply exclusive_firstOf
    simp only [Flag.forms, List.forall_mem_cons]
    exact ⟨Flag.exclusive_wildcard_extensionRule.symm, wildcardAtom.symm, by simp⟩
  simp [Flag.permanentForms, flagWildcard.symm]

/-! ## Conditions and attributes -/

theorem Status.exclusive_forms : Status.forms.Pairwise Exclusive := by
  have distinct : Status.all.Pairwise fun left right =>
      ¬ left.word.lower <+: right.word.lower ∧ ¬ right.word.lower <+: left.word.lower := by
    decide
  refine List.pairwise_map.mpr (distinct.imp fun notPrefix => ?_)
  have wordsExclusive := exclusive_wordAnyCase notPrefix.1 notPrefix.2
  exact (wordsExclusive.bind_left _).bind_right _

theorem ResponseCode.exclusive_forms : ResponseCode.forms.Pairwise Exclusive := by
  have announced : List.Forall₂ AnnouncedBy ResponseCode.forms
      [ascii "PERMANENTFLAGS ", ascii "UIDVALIDITY ", ascii "UIDNEXT ", ascii "READ-ONLY",
        ascii "READ-WRITE", ascii "TRYCREATE", ascii "HIGHESTMODSEQ "] :=
    .cons ⟨_, rfl⟩ <| .cons ⟨_, rfl⟩ <| .cons ⟨_, rfl⟩ <| .cons ⟨_, rfl⟩ <| .cons ⟨_, rfl⟩ <|
      .cons ⟨_, rfl⟩ <| .cons ⟨_, rfl⟩ .nil
  exact pairwise_exclusive_of_announced announced (by decide)

theorem Attribute.exclusive_forms : Attribute.forms.Pairwise Exclusive := by
  have announced : List.Forall₂ AnnouncedBy Attribute.forms
      [ascii "ENVELOPE (", ascii "INTERNALDATE ", ascii "FLAGS ", ascii "MODSEQ (",
        ascii "RFC822 ", ascii "RFC822.SIZE ", ascii "UID "] :=
    .cons ⟨_, rfl⟩ <| .cons ⟨_, rfl⟩ <| .cons ⟨_, rfl⟩ <| .cons ⟨_, rfl⟩ <| .cons ⟨_, rfl⟩ <|
      .cons ⟨_, rfl⟩ <| .cons ⟨_, rfl⟩ .nil
  exact pairwise_exclusive_of_announced announced (by decide)

/-! ## Responses -/

/-- The first bytes of the five status words. -/
def Status.isInitial (byte : UInt8) : Bool :=
  Status.all.any fun status => Byte.lower byte == Byte.lower (status.word.headD 0)

theorem Status.beginsWith_rule : Status.rule.BeginsWith Status.isInitial := by
  apply beginsWith_firstOf (by simp [Status.forms, Status.all])
  intro form member
  obtain ⟨status, statusMember, shape⟩ := List.mem_map.mp member
  subst shape
  have wordBegins : (wordAnyCase status.word).BeginsWith
      (Byte.lower · == Byte.lower (status.word.headD 0)) := by
    cases status <;> exact beginsWith_wordAnyCase _ _
  refine (wordBegins.bind _).mono fun byte same => ?_
  exact List.any_eq_true.mpr ⟨status, statusMember, same⟩

theorem Number.beginsWith_rule : Number.rule.BeginsWith Byte.isDigit :=
  (beginsWith_bytesIn Byte.isDigit).bind _

/-- Two rules that read a number and then different words exclude each other. -/
theorem exclusive_counted {α β : Type} {left right : Bytes} (leftNotPrefix : ¬ left <+: right)
    (rightNotPrefix : ¬ right <+: left) (afterLeft : UInt32 → Unit → Rule α)
    (afterRight : UInt32 → Unit → Rule β) :
    (Number.rule >>= fun count => expect left >>= afterLeft count).Exclusive
      (Number.rule >>= fun count => expect right >>= afterRight count) :=
  exclusive_bind_of_common fun count =>
    exclusive_announced leftNotPrefix rightNotPrefix (afterLeft count) (afterRight count)

theorem MailboxDatum.beginsWith_flagsRule : flagsRule.BeginsWith (· == 70) :=
  (beginsWith_expect 70 (ascii "LAGS ")).bind _

theorem MailboxDatum.exclusive_flagsRule_number : flagsRule.Exclusive Number.rule :=
  beginsWith_flagsRule.exclusive_letter Number.beginsWith_rule (by decide)

theorem MailboxDatum.exclusive_forms : MailboxDatum.forms.Pairwise Exclusive := by
  have existsRecent : existsRule.Exclusive recentRule :=
    exclusive_counted (by decide) (by decide) _ _
  have flagsExists : flagsRule.Exclusive existsRule :=
    exclusive_flagsRule_number.bind_right _
  have flagsRecent : flagsRule.Exclusive recentRule :=
    exclusive_flagsRule_number.bind_right _
  simp [forms, flagsExists, flagsRecent, existsRecent]

namespace Response

/-- The first bytes of mailbox news: the letter F and the digits. -/
private def isNewsInitial (byte : UInt8) : Bool :=
  byte == 70 || Byte.isDigit byte

private theorem isNewsInitial_of_isInitial :
    ∀ byte, Status.isInitial byte = true → isNewsInitial byte = false := by
  decide +kernel

private theorem beginsWith_mailboxRule : mailboxRule.BeginsWith isNewsInitial := by
  have numberBegins : Number.rule.BeginsWith isNewsInitial :=
    Number.beginsWith_rule.mono fun byte digit => by simp [isNewsInitial, digit]
  have flagsBegins : MailboxDatum.flagsRule.BeginsWith isNewsInitial :=
    MailboxDatum.beginsWith_flagsRule.mono fun byte letter => by simp [isNewsInitial, letter]
  apply BeginsWith.map
  apply beginsWith_firstOf (by simp [MailboxDatum.forms])
  simp only [MailboxDatum.forms, List.forall_mem_cons]
  exact ⟨flagsBegins, numberBegins.bind _, numberBegins.bind _, by simp⟩

/-- News about the mailbox excludes every rule that reads a number and then a further word. -/
private theorem exclusive_mailboxRule_counted {β : Type} {literal : Bytes}
    (distinct : ∀ news ∈ [ascii " EXISTS", ascii " RECENT"],
      ¬ news <+: literal ∧ ¬ literal <+: news) (next : UInt32 → Unit → Rule β) :
    mailboxRule.Exclusive (Number.rule >>= fun count => expect literal >>= next count) := by
  have existsDistinct := distinct _ (List.mem_cons_self)
  have recentDistinct := distinct (ascii " RECENT") (by simp)
  apply Exclusive.map_left
  apply exclusive_firstOf
  simp only [MailboxDatum.forms, List.forall_mem_cons]
  refine ⟨MailboxDatum.exclusive_flagsRule_number.bind_right _, ?_, ?_, by simp⟩
  · exact exclusive_counted existsDistinct.1 existsDistinct.2 _ _
  · exact exclusive_counted recentDistinct.1 recentDistinct.2 _ _

theorem exclusive_untaggedForms : untaggedForms.Pairwise Exclusive := by
  have dataBegins : dataRule.BeginsWith Status.isInitial :=
    (Status.beginsWith_rule.bind _).map _
  have capabilitiesBegins : capabilitiesRule.BeginsWith (· == 67) :=
    (beginsWith_expect 67 (ascii "APABILITY")).bind _
  have dataMailbox : dataRule.Exclusive mailboxRule :=
    dataBegins.exclusive beginsWith_mailboxRule isNewsInitial_of_isInitial
  have numberBegins : Number.rule.BeginsWith isNewsInitial :=
    Number.beginsWith_rule.mono fun byte digit => by simp [isNewsInitial, digit]
  have dataNumber : dataRule.Exclusive Number.rule :=
    dataBegins.exclusive numberBegins isNewsInitial_of_isInitial
  have dataCapabilities : dataRule.Exclusive capabilitiesRule :=
    (capabilitiesBegins.exclusive_letter dataBegins (by decide)).symm
  have numberCapabilities : Number.rule.Exclusive capabilitiesRule :=
    (capabilitiesBegins.exclusive_letter numberBegins (by decide)).symm
  have mailboxCapabilities : mailboxRule.Exclusive capabilitiesRule :=
    (capabilitiesBegins.exclusive_letter beginsWith_mailboxRule (by decide)).symm
  have mailboxExpunge : mailboxRule.Exclusive expungeRule :=
    exclusive_mailboxRule_counted (by decide) _
  have mailboxFetch : mailboxRule.Exclusive fetchRule :=
    exclusive_mailboxRule_counted (by decide) _
  have expungeFetch : expungeRule.Exclusive fetchRule :=
    exclusive_counted (by decide) (by decide) _ _
  have dataExpunge : dataRule.Exclusive expungeRule := dataNumber.bind_right _
  have dataFetch : dataRule.Exclusive fetchRule := dataNumber.bind_right _
  have expungeCapabilities : expungeRule.Exclusive capabilitiesRule :=
    numberCapabilities.bind_left _
  have fetchCapabilities : fetchRule.Exclusive capabilitiesRule :=
    numberCapabilities.bind_left _
  simp [untaggedForms, dataMailbox, dataExpunge, dataFetch, dataCapabilities, mailboxExpunge,
    mailboxFetch, mailboxCapabilities, expungeFetch, expungeCapabilities, fetchCapabilities]

end Response

theorem Response.exclusive_forms : Response.forms.Pairwise Exclusive := by
  have starTag : (expect Response.untaggedMark).Exclusive Response.tagRule :=
    (beginsWith_expect 42 (ascii " ")).exclusive_letter (beginsWith_bytesIn _) (by decide)
  have untaggedTagged : Response.untaggedRule.Exclusive Response.taggedRule :=
    (starTag.bind_left _).bind_right _
  simp [Response.forms, untaggedTagged]

end Imap
