import Imap.Proofs.Grammar.WellFormed

/-!
# Written forms are spellings

A value is written in one of its spellings. Numbers are written without leading zeros, strings in
quotes unless they need a literal, status words in capitals. A literal announces its length in 32
bits, so a string that needs one is written readably only up to that length; every other string is
written readably at any length.
-/

namespace Imap

open Spelling

/-! ## Numbers -/

namespace Decimal

theorem value_append_digit (digits : Bytes) (last : UInt8) :
    value (digits ++ [last]) = 10 * value digits + (last.toNat - 48) := by
  simp [value]

theorem toNat_digit {number : Nat} (isSmall : number < 10) :
    (digit number).toNat = 48 + number := by
  unfold digit
  rw [Nat.toUInt8, UInt8.toNat_ofNat']
  omega

theorem isDigit_digit {number : Nat} (isSmall : number < 10) :
    Byte.isDigit (digit number) = true := by
  have asNumber := toNat_digit isSmall
  simp only [Byte.isDigit, Bool.and_eq_true, decide_eq_true_eq, UInt8.le_iff_toNat_le]
  change 48 ≤ (digit number).toNat ∧ (digit number).toNat ≤ 57
  omega

theorem digits_mem_numeral (number : Nat) : digits number ∈ numeral number := by
  fun_induction digits number with
  | case1 number isSmall =>
    refine ⟨List.cons_ne_nil _ _, List.forall_mem_singleton.mpr (isDigit_digit isSmall), ?_⟩
    have oneDigit := value_append_digit [] (digit number)
    rw [List.nil_append, toNat_digit isSmall] at oneDigit
    rw [oneDigit, show value [] = 0 from rfl]
    omega
  | case2 number isLarge inductionHypothesis =>
    rcases inductionHypothesis with ⟨-, allDigits, hasValue⟩
    have lastSmall : number % 10 < 10 := Nat.mod_lt number (by decide)
    refine ⟨by simp, ?_, ?_⟩
    · intro byte member
      rcases List.mem_append.mp member with isEarlier | isLast
      · exact allDigits byte isEarlier
      · rw [List.mem_singleton.mp isLast]
        exact isDigit_digit lastSmall
    · rw [value_append_digit, hasValue, toNat_digit lastSmall]
      omega

end Decimal

/-! ## Strings -/

theorem Quoted.inner_escape (value : Bytes) :
    Quoted.Inner value (value.escape [Byte.doubleQuote, Byte.backslash]) := by
  induction value with
  | nil => exact Quoted.Inner.nil
  | cons byte value inductionHypothesis =>
    by_cases isSpecial : byte = Byte.doubleQuote ∨ byte = Byte.backslash
    · have escapeCons : Bytes.escape (byte :: value) [Byte.doubleQuote, Byte.backslash] =
          Byte.backslash :: byte :: Bytes.escape value [Byte.doubleQuote, Byte.backslash] := by
        simp [Bytes.escape, isSpecial]
      rw [escapeCons]
      exact Quoted.Inner.escaped isSpecial inductionHypothesis
    · obtain ⟨notQuote, notBackslash⟩ := not_or.mp isSpecial
      have escapeCons : Bytes.escape (byte :: value) [Byte.doubleQuote, Byte.backslash] =
          byte :: Bytes.escape value [Byte.doubleQuote, Byte.backslash] := by
        simp [Bytes.escape, isSpecial]
      rw [escapeCons]
      exact Quoted.Inner.plain notQuote notBackslash inductionHypothesis

theorem Quoted.wire_mem_spelling (value : Bytes) : Quoted.wire value ∈ Quoted.spelling value := by
  refine mem_prod_of_flatten [_, _, _] ?_ (.cons (ascii_mem_literally "\"") <|
    .cons (mem_wordsThat.mpr (Quoted.inner_escape value)) <|
    .cons (ascii_mem_literally "\"") .nil)
  simp [Quoted.wire]
  rfl

theorem Literal.wire_mem_spelling {value : Bytes} (isShort : value.length < UInt32.size) :
    Literal.wire value ∈ Literal.spelling value := by
  have isBody : value ∈ asIs (fun body => body.length < UInt32.size) value := ⟨rfl, isShort⟩
  refine mem_prod_of_flatten [_, _, _, _] ?_ (.cons (ascii_mem_literally "\x7b") <|
    .cons (Decimal.digits_mem_numeral value.length) <|
    .cons (ascii_mem_literally "\x7d\r\n") <| .cons isBody .nil)
  simp [Literal.wire]

namespace ByteString

/-- A string that needs a literal has a length that a literal can announce. -/
def Writable (value : Bytes) : Prop :=
  value.any needsLiteral = true → value.length ≤ 4294967295

theorem wire_mem_spelling {value : Bytes} (isWritable : Writable value) :
    wire value ∈ spelling value := by
  unfold wire
  by_cases needs : value.any needsLiteral = true
  · have isShort : value.length < UInt32.size := Nat.lt_succ_of_le (isWritable needs)
    rw [if_pos needs]
    exact Or.inr (Literal.wire_mem_spelling isShort)
  · rw [if_neg needs]
    exact Or.inl (Quoted.wire_mem_spelling value)

end ByteString

theorem NullableString.wire_mem_spelling {value : Option Bytes}
    (areWritable : ∀ text ∈ value, ByteString.Writable text) :
    NullableString.wire value ∈ NullableString.spelling value := by
  cases value with
  | none => rfl
  | some text => exact ByteString.wire_mem_spelling (areWritable text rfl)

theorem Flag.listWire_mem_parenthesized {accept : Bytes → Prop} {flags : List Bytes}
    (areAccepted : ∀ flag ∈ flags, accept flag) :
    Flag.listWire flags ∈ parenthesized (asIs accept) flags := by
  have areWords : ∀ flag ∈ flags, id flag ∈ asIs accept flag :=
    fun flag member => ⟨rfl, areAccepted flag member⟩
  simpa [Flag.listWire] using joined_mem_parenthesized areWords

/-! ## Fetched messages -/

/-- The strings of an address that are not missing. -/
def Address.strings (address : Address) : List Bytes :=
  [address.name, address.sourceRoute, address.mailbox, address.host].filterMap id

def AddressList.strings (addresses : AddressList) : List Bytes :=
  (addresses.getD []).flatMap Address.strings

def Envelope.strings (envelope : Envelope) : List Bytes :=
  [envelope.date, envelope.subject, envelope.inReplyTo, envelope.messageId].filterMap id ++
    envelope.addressLists.flatMap AddressList.strings

def Attribute.strings : Attribute → List Bytes
  | .envelope value => value.strings
  | .internalDate value => [value]
  | .rfc822 value => value.toList
  | .flags _ | .rfc822Size _ | .modSeq _ | .uid _ => []

theorem Address.wire_mem_spelling {address : Address}
    (areWritable : ∀ text ∈ address.strings, ByteString.Writable text) :
    address.wire ∈ address.spelling := by
  have fieldMem : ∀ field ∈ [address.name, address.sourceRoute, address.mailbox, address.host],
      NullableString.wire field ∈ NullableString.spelling field := by
    intro field member
    refine NullableString.wire_mem_spelling fun text isText => areWritable text ?_
    exact List.mem_filterMap.mpr ⟨field, member, isText⟩
  simp only [List.forall_mem_cons] at fieldMem
  rcases fieldMem with ⟨nameMem, sourceRouteMem, mailboxMem, hostMem, -⟩
  refine mem_prod_of_flatten [_, _, _, _, _, _, _, _, _] ?_
    (.cons (ascii_mem_literally "(") <| .cons nameMem <| .cons (ascii_mem_literally " ") <|
      .cons sourceRouteMem <| .cons (ascii_mem_literally " ") <| .cons mailboxMem <|
      .cons (ascii_mem_literally " ") <| .cons hostMem <| .cons (ascii_mem_literally ")") .nil)
  simp [Address.wire, joined_cons]
  rfl

theorem AddressList.wire_mem_spelling {addresses : AddressList}
    (isWellFormed : AddressList.WellFormed addresses)
    (areWritable : ∀ text ∈ AddressList.strings addresses, ByteString.Writable text) :
    AddressList.wire addresses ∈ AddressList.spelling addresses := by
  cases addresses with
  | none => rfl
  | some members =>
    have nonempty : members ≠ [] := fun isEmpty => isWellFormed (by rw [isEmpty])
    have memberMem : ∀ address ∈ members, address.wire ∈ address.spelling := by
      intro address member
      refine Address.wire_mem_spelling fun text isText => areWritable text ?_
      exact List.mem_flatMap.mpr ⟨address, member, isText⟩
    refine mem_prod_of_flatten [_, _, _] ?_ (.cons (ascii_mem_literally "(") <|
      .cons (flatMap_mem_many nonempty memberMem) <| .cons (ascii_mem_literally ")") .nil)
    simp [AddressList.wire]

theorem Envelope.wire_mem_spelling {envelope : Envelope} (isWellFormed : envelope.WellFormed)
    (areWritable : ∀ text ∈ envelope.strings, ByteString.Writable text) :
    envelope.wire ∈ literally "(" * envelope.spelling := by
  have fieldMem : ∀ field ∈ [envelope.date, envelope.subject, envelope.inReplyTo,
      envelope.messageId], NullableString.wire field ∈ NullableString.spelling field := by
    intro field member
    refine NullableString.wire_mem_spelling fun text isText => areWritable text ?_
    exact List.mem_append_left _ (List.mem_filterMap.mpr ⟨field, member, isText⟩)
  have listMem : ∀ addresses ∈ envelope.addressLists,
      AddressList.wire addresses ∈ AddressList.spelling addresses := by
    intro addresses member
    refine AddressList.wire_mem_spelling (isWellFormed addresses member) fun text isText =>
      areWritable text ?_
    exact List.mem_append_right _ (List.mem_flatMap.mpr ⟨addresses, member, isText⟩)
  simp only [addressLists, List.forall_mem_cons] at fieldMem listMem
  rcases fieldMem with ⟨dateMem, subjectMem, inReplyToMem, messageIdMem, -⟩
  rcases listMem with
    ⟨sentFromMem, senderMem, replyToMem, sentToMem, carbonCopyMem, blindCopyMem, -⟩
  have spaceMem := ascii_mem_literally " "
  rw [spelling, ← List.prod_cons]
  refine mem_prod_of_flatten [_, _, _, _, _, _, _, _, _, _, _, _, _, _, _, _, _, _, _, _, _] ?_
    (.cons (ascii_mem_literally "(") <| .cons dateMem <| .cons spaceMem <|
      .cons subjectMem <| .cons spaceMem <| .cons sentFromMem <| .cons spaceMem <|
      .cons senderMem <| .cons spaceMem <| .cons replyToMem <| .cons spaceMem <|
      .cons sentToMem <| .cons spaceMem <| .cons carbonCopyMem <| .cons spaceMem <|
      .cons blindCopyMem <| .cons spaceMem <| .cons inReplyToMem <| .cons spaceMem <|
      .cons messageIdMem <| .cons (ascii_mem_literally ")") .nil)
  simp [Envelope.wire, joined_cons]
  rfl

namespace Attribute

theorem wire_mem_spelling {entry : Attribute} (isWellFormed : entry.WellFormed)
    (areWritable : ∀ text ∈ entry.strings, ByteString.Writable text) :
    entry.wire ∈ entry.spelling := by
  cases entry with
  | envelope value =>
    have valueMem := Envelope.wire_mem_spelling isWellFormed areWritable
    obtain ⟨fields, areFields, same⟩ := mem_singleton_mul.mp valueMem
    refine mem_singleton_mul.mpr ⟨fields, areFields, ?_⟩
    rw [wire, ← same]
    rfl
  | internalDate value =>
    have valueMem := ByteString.wire_mem_spelling (areWritable value (by simp [strings]))
    exact Language.append_mem_mul (ascii_mem_literally "INTERNALDATE ") valueMem
  | flags value =>
    exact Language.append_mem_mul (ascii_mem_literally "FLAGS ")
      (Flag.listWire_mem_parenthesized isWellFormed)
  | rfc822 value =>
    have valueMem : NullableString.wire value ∈ NullableString.spelling value :=
      NullableString.wire_mem_spelling fun text isText =>
        areWritable text (Option.mem_toList.mpr isText)
    exact Language.append_mem_mul (ascii_mem_literally "RFC822 ") valueMem
  | rfc822Size value =>
    exact Language.append_mem_mul (ascii_mem_literally "RFC822.SIZE ")
      (Decimal.digits_mem_numeral value.toNat)
  | modSeq value =>
    refine mem_prod_of_flatten [_, _, _] ?_ (.cons (ascii_mem_literally "MODSEQ (") <|
      .cons (Decimal.digits_mem_numeral value.toNat) <| .cons (ascii_mem_literally ")") .nil)
    simp [wire]
  | uid value =>
    exact Language.append_mem_mul (ascii_mem_literally "UID ")
      (Decimal.digits_mem_numeral value.toNat)

theorem listWire_mem_listSpelling {attributes : List Attribute} (nonempty : attributes ≠ [])
    (areWellFormed : ∀ entry ∈ attributes, entry.WellFormed)
    (areWritable : ∀ text ∈ attributes.flatMap strings, ByteString.Writable text) :
    listWire attributes ∈ listSpelling attributes := by
  have entryMem : ∀ entry ∈ attributes, entry.wire ∈ entry.spelling := by
    intro entry member
    refine wire_mem_spelling (areWellFormed entry member) fun text isText => areWritable text ?_
    exact List.mem_flatMap.mpr ⟨entry, member, isText⟩
  refine mem_prod_of_flatten [_, _, _] ?_ (.cons (ascii_mem_literally "(") <|
    .cons (joined_mem_spaced nonempty entryMem) <| .cons (ascii_mem_literally ")") .nil)
  simp [listWire]

end Attribute

/-! ## Conditions -/

theorem ResponseCode.wire_mem_spelling {code : ResponseCode} (isWellFormed : code.WellFormed) :
    code.wire ∈ code.spelling := by
  have wordsMem : code.words ∈ code.wordsSpelling := by
    cases code with
    | permanentFlags flags =>
      exact Language.append_mem_mul (ascii_mem_literally "PERMANENTFLAGS ")
        (Flag.listWire_mem_parenthesized isWellFormed)
    | uidValidity value =>
      exact Language.append_mem_mul (ascii_mem_literally "UIDVALIDITY ")
        (Decimal.digits_mem_numeral value.toNat)
    | uidNext value =>
      exact Language.append_mem_mul (ascii_mem_literally "UIDNEXT ")
        (Decimal.digits_mem_numeral value.toNat)
    | highestModSeq value =>
      exact Language.append_mem_mul (ascii_mem_literally "HIGHESTMODSEQ ")
        (Decimal.digits_mem_numeral value.toNat)
    | readOnly => exact ascii_mem_literally "READ-ONLY"
    | readWrite => exact ascii_mem_literally "READ-WRITE"
    | tryCreate => exact ascii_mem_literally "TRYCREATE"
  refine mem_prod_of_flatten [_, _, _] ?_ (.cons (ascii_mem_literally "[") <|
    .cons wordsMem <| .cons (ascii_mem_literally "]") .nil)
  simp [wire]

theorem FreeText.getD_mem_spelling {text : Option Bytes} (isWellFormed : FreeText.WellFormed text) :
    text.getD [] ∈ FreeText.spelling text := by
  cases text with
  | none => exact Language.nil_mem_one
  | some present => exact ⟨rfl, isWellFormed present rfl⟩

/-- A space is written after a code exactly if a text follows, and it is dropped when read. -/
theorem Remark.wire_mem_spelling {remark : Remark} (isWellFormed : remark.WellFormed) :
    remark.wire ∈ remark.spelling := by
  have textMem := FreeText.getD_mem_spelling isWellFormed.text
  rcases remark with ⟨code, text⟩
  cases code with
  | none =>
    have noCode := isWellFormed.noCode rfl
    cases text with
    | none => exact ⟨textMem, noCode⟩
    | some present => exact ⟨textMem, noCode⟩
  | some code =>
    have codeMem := ResponseCode.wire_mem_spelling (isWellFormed.code code rfl)
    cases text with
    | none =>
      have nothingMem : [] ∈ Remark.afterCodeSpelling none := Or.inr ⟨textMem, by simp⟩
      have codeOnly := Language.append_mem_mul codeMem nothingMem
      rw [List.append_nil] at codeOnly
      exact codeOnly
    | some present =>
      have spacedMem : ascii " " ++ present ∈ Remark.afterCodeSpelling (some present) :=
        Or.inl (Language.append_mem_mul (ascii_mem_literally " ") textMem)
      have codeAndText := Language.append_mem_mul codeMem spacedMem
      rw [← List.append_assoc] at codeAndText
      exact codeAndText

theorem Condition.wire_mem_spelling {condition : Condition}
    (isWellFormed : condition.remark.WellFormed) : condition.wire ∈ condition.spelling := by
  have statusMem : condition.status.word ∈ condition.status.spelling := mem_wordsThat.mpr rfl
  refine mem_prod_of_flatten [_, _, _] ?_ (.cons statusMem <| .cons (ascii_mem_literally " ") <|
    .cons (Remark.wire_mem_spelling isWellFormed) .nil)
  simp [Condition.wire]
  rfl

/-! ## Responses -/

theorem MailboxDatum.wire_mem_spelling {datum : MailboxDatum} (isWellFormed : datum.WellFormed) :
    datum.wire ∈ datum.spelling := by
  cases datum with
  | flags value =>
    exact Language.append_mem_mul (ascii_mem_literally "FLAGS ")
      (Flag.listWire_mem_parenthesized isWellFormed)
  | «exists» count =>
    exact Language.append_mem_mul (Decimal.digits_mem_numeral count.toNat)
      (ascii_mem_literally " EXISTS")
  | recent count =>
    exact Language.append_mem_mul (Decimal.digits_mem_numeral count.toNat)
      (ascii_mem_literally " RECENT")

namespace Response

/-- The strings of a response that are written in quotes or as literals. -/
def strings : Response → List Bytes
  | fetch _ attributes => attributes.flatMap Attribute.strings
  | done _ _ | data _ | capabilities _ | mailbox _ | expunge _ => []

theorem wire_mem_spelling {response : Response} (isWellFormed : response.WellFormed)
    (areWritable : ∀ text ∈ response.strings, ByteString.Writable text) :
    response.wire ∈ response.spelling := by
  cases response with
  | done tag condition =>
    rcases isWellFormed with ⟨isTag, remarkWellFormed⟩
    have tagMem : tag ∈ asIs IsTag tag := ⟨rfl, isTag⟩
    refine mem_prod_of_flatten [_, _, _, _] ?_ (.cons tagMem <| .cons (ascii_mem_literally " ") <|
      .cons (Condition.wire_mem_spelling remarkWellFormed) <|
      .cons (ascii_mem_literally "\r\n") .nil)
    simp [wire, line]
    rfl
  | data condition =>
    refine mem_prod_of_flatten [_, _, _] ?_ (.cons (ascii_mem_literally "* ") <|
      .cons (Condition.wire_mem_spelling isWellFormed) <|
      .cons (ascii_mem_literally "\r\n") .nil)
    simp [wire, line]
    rfl
  | capabilities names =>
    rcases isWellFormed with ⟨nonempty, areAtoms⟩
    have nameMem : ∀ name ∈ names, Byte.space :: name ∈ space * asIs Atom.IsAtom name :=
      fun name member => Language.append_mem_mul (ascii_mem_literally " ")
        (⟨rfl, areAtoms name member⟩ : name ∈ asIs Atom.IsAtom name)
    have namesMem := Language.append_mem_mul (ascii_mem_literally "CAPABILITY")
      (flatMap_mem_many nonempty nameMem)
    refine mem_prod_of_flatten [_, _, _] ?_ (.cons (ascii_mem_literally "* ") <|
      .cons namesMem <| .cons (ascii_mem_literally "\r\n") .nil)
    simp [wire, line]
    rfl
  | mailbox datum =>
    refine mem_prod_of_flatten [_, _, _] ?_ (.cons (ascii_mem_literally "* ") <|
      .cons (MailboxDatum.wire_mem_spelling isWellFormed) <|
      .cons (ascii_mem_literally "\r\n") .nil)
    simp [wire, line]
    rfl
  | fetch sequenceNumber attributes =>
    rcases isWellFormed with ⟨nonempty, areWellFormed⟩
    have listMem := Attribute.listWire_mem_listSpelling nonempty areWellFormed areWritable
    have fetchMem : Decimal.digits sequenceNumber.toNat ++ (ascii " FETCH " ++
        Attribute.listWire attributes) ∈ (fetch sequenceNumber attributes).untaggedSpelling := by
      refine mem_prod_of_flatten [_, _, _] ?_
        (.cons (Decimal.digits_mem_numeral sequenceNumber.toNat) <|
          .cons (ascii_mem_literally " FETCH ") <| .cons listMem .nil)
      simp
    refine mem_prod_of_flatten [_, _, _] ?_ (.cons (ascii_mem_literally "* ") <|
      .cons fetchMem <| .cons (ascii_mem_literally "\r\n") .nil)
    simp [wire, line]
    rfl
  | expunge sequenceNumber =>
    have expungeMem := Language.append_mem_mul (Decimal.digits_mem_numeral sequenceNumber.toNat)
      (ascii_mem_literally " EXPUNGE")
    refine mem_prod_of_flatten [_, _, _] ?_ (.cons (ascii_mem_literally "* ") <|
      .cons expungeMem <| .cons (ascii_mem_literally "\r\n") .nil)
    simp [wire, line]
    rfl

end Response

end Imap
