import Imap.Proofs.Grammar.Exclusion
import Imap.Proofs.Rule.LineBound

/-!
# The grammar decides within a line

Every word of the grammar, every number, atom and flag consists of code bytes, and no line end is
one. So these tokens decide before the end of their line. Only strings hold other bytes: a quoted
string may run over line ends and a literal always does. On a line without a double quote and
without an opening brace no string can start, and every rule of the grammar decides there.
-/

namespace Imap

open Rule

/-! ## Code bytes -/

namespace ResponseCode

/-- The bytes of which spelled codes consist: atom bytes, the space, both parentheses, the closing
bracket, the backslash and the star. -/
def isCodeByte (byte : UInt8) : Bool :=
  Byte.isAtomChar byte || byte == Byte.space || byte == 40 || byte == 41 ||
    Byte.isResponseSpecial byte || byte == Byte.backslash || byte == 42

theorem isCodeByte_of_isAtomChar {byte : UInt8} (isAtom : Byte.isAtomChar byte = true) :
    isCodeByte byte = true := by
  simp [isCodeByte, isAtom]

/-- Digits, capitals and small letters. -/
theorem isCodeByte_of_alphanumeric {byte : UInt8}
    (isAlphanumeric : (48 ≤ byte ∧ byte ≤ 57) ∨ (65 ≤ byte ∧ byte ≤ 90) ∨
      (97 ≤ byte ∧ byte ≤ 122)) : isCodeByte byte = true := by
  have notSpecial : Byte.isAtomSpecial byte = false := by
    simp only [Byte.isAtomSpecial, Byte.isListWildcard, Byte.isQuotedSpecial,
      Byte.isResponseSpecial, Bool.or_eq_false_iff, beq_eq_false_iff_ne, decide_eq_false_iff_not]
    rcases isAlphanumeric with isDigit | isCapital | isSmall <;> grind
  exact isCodeByte_of_isAtomChar (by rw [Byte.isAtomChar, notSpecial]; rfl)

theorem isCodeByte_of_isDigit {byte : UInt8} (isDigit : Byte.isDigit byte = true) :
    isCodeByte byte = true := by
  simp only [Byte.isDigit, Bool.and_eq_true, decide_eq_true_eq] at isDigit
  exact isCodeByte_of_alphanumeric (Or.inl isDigit)

/-- A byte is a letter if its small form is a small letter. -/
theorem isCodeByte_of_lower {byte : UInt8} (isLetter : 97 ≤ Byte.lower byte)
    (notBeyond : Byte.lower byte ≤ 122) : isCodeByte byte = true := by
  by_cases isCapital : 65 ≤ byte ∧ byte ≤ 90
  · exact isCodeByte_of_alphanumeric (Or.inr (Or.inl isCapital))
  · rw [Byte.lower, if_neg isCapital] at isLetter notBeyond
    exact isCodeByte_of_alphanumeric (Or.inr (Or.inr ⟨isLetter, notBeyond⟩))

theorem isCodeByte_of_isTagChar {byte : UInt8} (isTag : Byte.isTagChar byte = true) :
    isCodeByte byte = true := by
  simp only [Byte.isTagChar, Byte.isAstringChar, Bool.and_eq_true, Bool.or_eq_true] at isTag
  rcases isTag.2 with isAtom | isSpecial
  · exact isCodeByte_of_isAtomChar isAtom
  · simp [isCodeByte, isSpecial]

theorem not_isLineEnd_of_isCodeByte (byte : UInt8) (isCode : isCodeByte byte = true) :
    (!Byte.isLineEnd byte) = true := by
  cases isEnd : Byte.isLineEnd byte with
  | false => rfl
  | true =>
    simp only [Byte.isLineEnd, Bool.or_eq_true, beq_iff_eq] at isEnd
    rcases isEnd with isReturn | isFeed
    · rw [isReturn] at isCode
      exact absurd isCode (by decide)
    · rw [isFeed] at isCode
      exact absurd isCode (by decide)

end ResponseCode

/-! ## Tokens of code bytes -/

section Tokens

variable {plain : UInt8 → Bool} {tails : Set Bytes}
  (codePlain : ∀ byte, ResponseCode.isCodeByte byte = true → plain byte = true)
  (ends : tails ⊆ Bytes.startingOutside plain)

include codePlain ends

theorem withinLine_word_of_code {literal : Bytes}
    (isCode : literal.all ResponseCode.isCodeByte = true) :
    (word literal).WithinLine plain tails :=
  withinLine_word ends fun byte member => codePlain byte (List.all_eq_true.mp isCode byte member)

theorem withinLine_expect_of_code {literal : Bytes}
    (isCode : literal.all ResponseCode.isCodeByte = true) :
    (expect literal).WithinLine plain tails :=
  (withinLine_word_of_code codePlain ends isCode).map _

theorem Number.withinLine_digitRun : digitRun.WithinLine plain tails :=
  withinLine_bytesIn ends fun byte isDigit =>
    codePlain byte (ResponseCode.isCodeByte_of_isDigit isDigit)

theorem Number.withinLine_rule : rule.WithinLine plain tails :=
  (withinLine_digitRun codePlain ends).accepting _

theorem Number.withinLine_wideRule : wideRule.WithinLine plain tails :=
  (withinLine_digitRun codePlain ends).accepting _

theorem Atom.withinLine_rule : rule.WithinLine plain tails :=
  withinLine_bytesIn ends fun byte isAtom =>
    codePlain byte (ResponseCode.isCodeByte_of_isAtomChar isAtom)

theorem Flag.withinLine_rule : rule.WithinLine plain tails := by
  have atomWithin : Atom.rule.WithinLine plain tails := Atom.withinLine_rule codePlain ends
  have extensionWithin : extensionRule.WithinLine plain tails :=
    atomWithin.announced (Byte.backslash :: ·)
      (withinLine_expect_of_code codePlain ends (by decide))
  exact withinLine_firstOf (by simp [forms, extensionWithin, atomWithin])

theorem Flag.withinLine_permanentRule : permanentRule.WithinLine plain tails := by
  have wildcardWithin : (word (ascii "\\*")).WithinLine plain tails :=
    withinLine_word_of_code codePlain ends (by decide)
  have flagWithin : rule.WithinLine plain tails := withinLine_rule codePlain ends
  exact withinLine_firstOf (by simp [permanentForms, wildcardWithin, flagWithin])

theorem withinLine_parenthesized_of_code {α : Type} {item : Rule α}
    (itemWithin : item.WithinLine plain tails) : (parenthesized item).WithinLine plain tails := by
  have marksAreCode : (ascii "( )").all ResponseCode.isCodeByte = true := by decide
  exact itemWithin.parenthesized ends fun byte isMark =>
    codePlain byte (List.all_eq_true.mp marksAreCode byte isMark)

/-- A code is decided before the first byte that cannot be part of one. -/
theorem ResponseCode.withinLine_rule : rule.WithinLine plain tails := by
  have expectWithin : ∀ {literal : Bytes}, literal.all isCodeByte = true →
      (expect literal).WithinLine plain tails := withinLine_expect_of_code codePlain ends
  have numberWithin : Number.rule.WithinLine plain tails := Number.withinLine_rule codePlain ends
  have wideNumberWithin : Number.wideRule.WithinLine plain tails :=
    Number.withinLine_wideRule codePlain ends
  have listWithin : (parenthesized Flag.permanentRule).WithinLine plain tails :=
    withinLine_parenthesized_of_code codePlain ends (Flag.withinLine_permanentRule codePlain ends)
  have formsWithin : (firstOf forms).WithinLine plain tails := by
    apply withinLine_firstOf
    simp only [forms, List.forall_mem_cons]
    refine ⟨?_, ?_, ?_, ?_, ?_, ?_, ?_, by simp⟩
    · exact listWithin.announced permanentFlags (expectWithin (by decide))
    · exact numberWithin.announced uidValidity (expectWithin (by decide))
    · exact numberWithin.announced uidNext (expectWithin (by decide))
    · exact withinLine_keyword readOnly (expectWithin (by decide))
    · exact withinLine_keyword readWrite (expectWithin (by decide))
    · exact withinLine_keyword tryCreate (expectWithin (by decide))
    · exact wideNumberWithin.announced highestModSeq (expectWithin (by decide))
  exact (expectWithin (by decide)).bind fun _ => formsWithin.bind fun _ =>
    (expectWithin (by decide)).bind fun _ => withinLine_pure _

end Tokens

/-! ## Remarks -/

namespace Remark

/-- The inputs that start with a line end. -/
abbrev lineEnds : Set Bytes :=
  Bytes.startingOutside fun byte => !Byte.isLineEnd byte

theorem crlf_append_mem_lineEnds (rest : Bytes) : Bytes.crlf ++ rest ∈ lineEnds :=
  Bytes.cons_mem_startingOutside (by decide) (Byte.lineFeed :: rest)

/-- A remark is decided before the line end, which it leaves unread. -/
theorem withinLine_rule {plain : UInt8 → Bool} {tails : Set Bytes}
    (codePlain : ∀ byte, ResponseCode.isCodeByte byte = true → plain byte = true)
    (plainOnLine : ∀ byte, plain byte = true → Byte.isLineEnd byte = false)
    (ends : tails ⊆ Bytes.startingOutside plain) (lineEnds : tails ⊆ lineEnds) :
    rule.WithinLine plain tails := by
  have spacePlain : plain Byte.space = true := codePlain Byte.space (by decide)
  have codeWithin : leadingCode.WithinLine plain tails := by
    refine WithinLine.orElse ?_ (withinLine_pure none)
    exact (ResponseCode.withinLine_rule codePlain ends).bind fun _ =>
      (withinLine_skipOptional ends spacePlain).bind fun _ => withinLine_pure _
  have textWithin : FreeText.rule.WithinLine plain tails :=
    withinLine_bytesBefore lineEnds ends plainOnLine
  exact codeWithin.bind fun _ => textWithin.bind fun _ => withinLine_pure _

end Remark

/-! ## Lines without strings -/

/-- The bytes of a line without strings: no line end, no double quote and no opening brace. -/
def Byte.isPlain (byte : UInt8) : Bool :=
  byte ∉ ascii "\r\n\"\x7b"

theorem Byte.isPlain_of_isCodeByte (byte : UInt8)
    (isCode : ResponseCode.isCodeByte byte = true) : isPlain byte = true := by
  have noneIsCode : (ascii "\r\n\"\x7b").all (!ResponseCode.isCodeByte ·) = true := by
    decide
  refine decide_eq_true fun isMark => ?_
  have notCode := List.all_eq_true.mp noneIsCode byte isMark
  rw [isCode] at notCode
  cases notCode

theorem Byte.not_isLineEnd_of_isPlain (byte : UInt8) (isPlain : isPlain byte = true) :
    isLineEnd byte = false := by
  refine Bool.eq_false_iff.mpr fun isEnd => of_decide_eq_true isPlain ?_
  simp only [isLineEnd, Bool.or_eq_true, beq_iff_eq] at isEnd
  rcases isEnd with isReturn | isFeed
  · rw [isReturn]
    decide
  · rw [isFeed]
    decide

/-- The rule decides on a plain line when the line has ended, and leaves the line end unread. -/
abbrev Rule.DecidesLine {α : Type} (rule : Rule α) : Prop :=
  rule.WithinLine Byte.isPlain Remark.lineEnds

theorem Remark.lineEnds_subset {member : UInt8 → Bool}
    (onLine : ∀ byte, member byte = true → Byte.isLineEnd byte = false) :
    lineEnds ⊆ Bytes.startingOutside member :=
  Bytes.startingOutside_subset fun byte isMember => by simp [onLine byte isMember]

private theorem plainEnds : Remark.lineEnds ⊆ Bytes.startingOutside Byte.isPlain :=
  Remark.lineEnds_subset Byte.not_isLineEnd_of_isPlain

theorem Rule.DecidesLine.closes {α β : Type} {first : Rule α} {next : α → Rule β}
    (decides : first.DecidesLine)
    (nextCloses : ∀ value, (next value).Closes Byte.isPlain Bytes.crlf) :
    (first >>= next).Closes Byte.isPlain Bytes.crlf := by
  have lineEnd : Set.range (Bytes.crlf ++ ·) ⊆ Remark.lineEnds :=
    Set.range_subset_iff.mpr Remark.crlf_append_mem_lineEnds
  exact Closes.after nextCloses (decides.subset lineEnd)

theorem decidesLine_expect {literal : Bytes}
    (isCode : literal.all ResponseCode.isCodeByte = true) : (expect literal).DecidesLine :=
  withinLine_expect_of_code Byte.isPlain_of_isCodeByte plainEnds isCode

theorem decidesLine_space : space.DecidesLine :=
  decidesLine_expect (by decide)

theorem Number.decidesLine_rule : Number.rule.DecidesLine :=
  Number.withinLine_rule Byte.isPlain_of_isCodeByte plainEnds

theorem Number.decidesLine_wideRule : Number.wideRule.DecidesLine :=
  Number.withinLine_wideRule Byte.isPlain_of_isCodeByte plainEnds

theorem Flag.decidesLine_listRule : Flag.listRule.DecidesLine :=
  withinLine_parenthesized_of_code Byte.isPlain_of_isCodeByte plainEnds
    (Flag.withinLine_rule Byte.isPlain_of_isCodeByte plainEnds)

/-- A rule whose first byte is a quote or a brace refuses every plain line. -/
private theorem decidesLine_of_mark {α : Type} {rule : Rule α} {mark : UInt8}
    (begins : rule.BeginsWith (· == mark)) (markOnLine : Byte.isLineEnd mark = false)
    (notPlain : Byte.isPlain mark = false) : rule.DecidesLine := by
  refine withinLine_of_beginsWith begins ?_ ?_
  · intro byte isPlain
    refine beq_eq_false_iff_ne.mpr fun isMark => ?_
    rw [isMark, notPlain] at isPlain
    cases isPlain
  · refine Remark.lineEnds_subset fun byte isMark => ?_
    rw [eq_of_beq isMark]
    exact markOnLine

theorem ByteString.decidesLine_rule : ByteString.rule.DecidesLine := by
  have quotedDecides : Quoted.rule.DecidesLine :=
    decidesLine_of_mark ((beginsWith_expect Byte.doubleQuote []).bind _) (by decide)
      (by decide)
  have literalDecides : Literal.rule.DecidesLine :=
    decidesLine_of_mark ((beginsWith_expect 123 []).bind _) (by decide)
      (by decide)
  exact withinLine_firstOf (by simp [forms, quotedDecides, literalDecides])

theorem NullableString.decidesLine_rule : NullableString.rule.DecidesLine := by
  have nilDecides : (keyword NullableString.nil (none : Option Bytes)).DecidesLine :=
    withinLine_keyword none (decidesLine_expect (by decide))
  exact withinLine_firstOf (by simp [forms, nilDecides, ByteString.decidesLine_rule.map])

/-! ## Conditions -/

/-- Status words consist of letters, in any spelling. -/
theorem Status.isCodeByte_of_mem_word (status : Status) {byte : UInt8}
    (isIn : Byte.lower byte ∈ status.word.lower) : ResponseCode.isCodeByte byte = true := by
  have areLetters :
      status.word.lower.all (fun letter => 97 ≤ letter && letter ≤ 122) = true := by
    cases status <;> decide
  have isLetter := List.all_eq_true.mp areLetters _ isIn
  simp only [Bool.and_eq_true, decide_eq_true_eq] at isLetter
  exact ResponseCode.isCodeByte_of_lower isLetter.1 isLetter.2

theorem Status.decidesLine_rule : Status.rule.DecidesLine := by
  apply withinLine_firstOf
  intro form member
  obtain ⟨status, -, shape⟩ := List.mem_map.mp member
  subst shape
  have wordDecides : (wordAnyCase status.word).DecidesLine :=
    withinLine_wordAnyCase plainEnds fun byte isIn =>
      Byte.isPlain_of_isCodeByte byte (status.isCodeByte_of_mem_word isIn)
  exact wordDecides.bind fun _ => withinLine_pure status

theorem Condition.decidesLine_rule : Condition.rule.DecidesLine := by
  have remarkDecides : Remark.rule.DecidesLine :=
    Remark.withinLine_rule Byte.isPlain_of_isCodeByte Byte.not_isLineEnd_of_isPlain plainEnds
      subset_rfl
  exact Status.decidesLine_rule.spaced_field decidesLine_space fun _ =>
    remarkDecides.bind fun _ => withinLine_pure _

/-! ## Fetched messages -/

theorem Address.decidesLine_rule : Address.rule.DecidesLine := by
  have stringDecides := NullableString.decidesLine_rule
  exact (decidesLine_expect (by decide)).bind fun _ =>
    stringDecides.spaced_field decidesLine_space fun _ =>
    stringDecides.spaced_field decidesLine_space fun _ =>
    stringDecides.spaced_field decidesLine_space fun _ =>
    stringDecides.closed _ (decidesLine_expect (by decide))

theorem AddressList.decidesLine_rule : AddressList.rule.DecidesLine := by
  have nilDecides : (keyword NullableString.nil (none : AddressList)).DecidesLine :=
    withinLine_keyword none (decidesLine_expect (by decide))
  have groupDecides : groupRule.DecidesLine :=
    (decidesLine_expect (by decide)).bind fun _ =>
      Address.decidesLine_rule.many.closed id (decidesLine_expect (by decide))
  exact withinLine_firstOf (by simp [forms, nilDecides, groupDecides.map])

theorem Envelope.decidesLine_fields : Envelope.fields.DecidesLine := by
  have stringDecides := NullableString.decidesLine_rule
  have listDecides := AddressList.decidesLine_rule
  exact stringDecides.spaced_field decidesLine_space fun _ =>
    stringDecides.spaced_field decidesLine_space fun _ =>
    listDecides.spaced_field decidesLine_space fun _ =>
    listDecides.spaced_field decidesLine_space fun _ =>
    listDecides.spaced_field decidesLine_space fun _ =>
    listDecides.spaced_field decidesLine_space fun _ =>
    listDecides.spaced_field decidesLine_space fun _ =>
    listDecides.spaced_field decidesLine_space fun _ =>
    stringDecides.spaced_field decidesLine_space fun _ =>
    stringDecides.closed _ (decidesLine_expect (by decide))

theorem Attribute.decidesLine_rule : Attribute.rule.DecidesLine := by
  apply withinLine_firstOf
  simp only [forms, List.forall_mem_cons]
  refine ⟨?_, ?_, ?_, ?_, ?_, ?_, ?_, by simp⟩
  · exact Envelope.decidesLine_fields.announced envelope (decidesLine_expect (by decide))
  · exact (NullableString.decidesLine_rule.accepting id).announced internalDate
      (decidesLine_expect (by decide))
  · exact Flag.decidesLine_listRule.announced flags (decidesLine_expect (by decide))
  · exact (decidesLine_expect (by decide)).bind fun _ =>
      Number.decidesLine_wideRule.closed modSeq (decidesLine_expect (by decide))
  · exact NullableString.decidesLine_rule.announced rfc822
      (decidesLine_expect (by decide))
  · exact Number.decidesLine_rule.announced rfc822Size (decidesLine_expect (by decide))
  · exact Number.decidesLine_rule.announced uid (decidesLine_expect (by decide))

theorem Attribute.decidesLine_listRule : Attribute.listRule.DecidesLine := by
  have attributesDecide := Attribute.decidesLine_rule.spaced plainEnds (by decide)
  exact (decidesLine_expect (by decide)).bind fun _ =>
    attributesDecide.closed id (decidesLine_expect (by decide))

/-! ## Responses -/

theorem MailboxDatum.decidesLine_rule : MailboxDatum.rule.DecidesLine := by
  apply withinLine_firstOf
  simp only [forms, List.forall_mem_cons]
  refine ⟨?_, ?_, ?_, by simp⟩
  · exact Flag.decidesLine_listRule.announced flags (decidesLine_expect (by decide))
  · exact Number.decidesLine_rule.closed MailboxDatum.exists
      (decidesLine_expect (by decide))
  · exact Number.decidesLine_rule.closed recent (decidesLine_expect (by decide))

namespace Response

theorem decidesLine_capabilityNameRule : capabilityNameRule.DecidesLine :=
  decidesLine_space.bind fun _ =>
    Atom.withinLine_rule Byte.isPlain_of_isCodeByte plainEnds

theorem decidesLine_untaggedForms : (firstOf untaggedForms).DecidesLine := by
  apply withinLine_firstOf
  simp only [untaggedForms, List.forall_mem_cons]
  refine ⟨?_, ?_, ?_, ?_, ?_, by simp⟩
  · exact Condition.decidesLine_rule.map data
  · exact MailboxDatum.decidesLine_rule.map mailbox
  · exact Number.decidesLine_rule.closed expunge (decidesLine_expect (by decide))
  · exact Number.decidesLine_rule.bind fun sequenceNumber =>
      Attribute.decidesLine_listRule.announced (fetch sequenceNumber)
        (decidesLine_expect (by decide))
  · exact decidesLine_capabilityNameRule.many.announced capabilities
      (decidesLine_expect (by decide))

/-- On a plain line a response is malformed, or it takes the line and its end. -/
theorem closes_rule : rule.Closes Byte.isPlain Bytes.crlf := by
  have markDecides : (expect untaggedMark).DecidesLine := decidesLine_expect (by decide)
  have tagDecides : tagRule.DecidesLine :=
    withinLine_bytesIn plainEnds fun byte isTag =>
      Byte.isPlain_of_isCodeByte byte (ResponseCode.isCodeByte_of_isTagChar isTag)
  have endCloses : ∀ response : Response,
      (keyword Bytes.crlf response).Closes Byte.isPlain Bytes.crlf :=
    closes_keyword (by decide) [Byte.lineFeed]
  apply closes_firstOf
  simp only [forms, List.forall_mem_cons]
  refine ⟨?_, ?_, by simp⟩
  · exact markDecides.closes fun _ => decidesLine_untaggedForms.closes fun response =>
      endCloses response
  · exact tagDecides.closes fun tag => decidesLine_space.closes fun _ =>
      Condition.decidesLine_rule.closes fun condition => endCloses (done tag condition)

end Response

end Imap
