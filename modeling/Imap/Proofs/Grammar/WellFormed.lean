import Imap.Proofs.Grammar.Spelling

/-!
# Well-formed values

Not every value of the types of this library can be read off a buffer. A flag has to be an atom, a
list of addresses has to have a member, a text has to stay on its line. A value is well-formed if it
meets these conditions, and every value that has a spelling does.
-/

namespace Imap

open Spelling

/-- No list of addresses is empty; it may be missing. -/
def AddressList.WellFormed (addresses : AddressList) : Prop :=
  addresses ≠ some []

/-- The six lists of addresses of an envelope. -/
def Envelope.addressLists (envelope : Envelope) : List AddressList :=
  [envelope.sentFrom, envelope.sender, envelope.replyTo, envelope.sentTo, envelope.carbonCopy,
    envelope.blindCopy]

def Envelope.WellFormed (envelope : Envelope) : Prop :=
  ∀ addresses ∈ envelope.addressLists, AddressList.WellFormed addresses

def Attribute.WellFormed : Attribute → Prop
  | .envelope value => value.WellFormed
  | .flags value => ∀ flag ∈ value, Flag.IsFlag flag
  | .internalDate _ | .rfc822 _ | .rfc822Size _ | .modSeq _ | .uid _ => True

def ResponseCode.WellFormed : ResponseCode → Prop
  | .permanentFlags flags => ∀ flag ∈ flags, Flag.IsPermanent flag
  | .uidValidity _ | .uidNext _ | .highestModSeq _ | .readOnly | .readWrite | .tryCreate => True

/-- A text that is present has bytes, and no line end is among them. -/
def FreeText.WellFormed (text : Option Bytes) : Prop :=
  ∀ present ∈ text, present ≠ [] ∧ ∀ byte ∈ present, Byte.isLineEnd byte = false

/-- A text without a code in front of it must not look like a code itself. -/
structure Remark.WellFormed (remark : Remark) : Prop where
  code : ∀ code ∈ remark.code, code.WellFormed
  text : FreeText.WellFormed remark.text
  noCode : remark.code = none → ¬ ResponseCode.Starts (remark.text.getD [])

def MailboxDatum.WellFormed : MailboxDatum → Prop
  | .flags value => ∀ flag ∈ value, Flag.IsFlag flag
  | .exists _ | .recent _ => True

def Response.WellFormed : Response → Prop
  | .done tag condition => Response.IsTag tag ∧ condition.remark.WellFormed
  | .data condition => condition.remark.WellFormed
  | .capabilities names => names ≠ [] ∧ ∀ name ∈ names, Atom.IsAtom name
  | .mailbox datum => datum.WellFormed
  | .fetch _ attributes => attributes ≠ [] ∧ ∀ entry ∈ attributes, entry.WellFormed
  | .expunge _ => True

/-! ## Spelled values are well-formed -/

theorem accepted_of_mem_parenthesized {accept : Bytes → Prop} {values : List Bytes} {word : Bytes}
    (areWords : word ∈ parenthesized (asIs accept) values) : ∀ value ∈ values, accept value := by
  intro value member
  obtain ⟨part, isPart⟩ := parts_of_mem_parenthesized areWords value member
  exact (mem_asIs.mp isPart).2

theorem AddressList.wellFormed_of_mem_spelling {addresses : AddressList} {word : Bytes}
    (isWord : word ∈ AddressList.spelling addresses) : AddressList.WellFormed addresses := by
  intro isEmpty
  subst isEmpty
  obtain ⟨membersWord, areMembers⟩ :=
    nonempty_of_mem_prod isWord (many Address.spelling []) (by simp)
  exact (parts_of_mem_many areMembers).1 rfl

theorem Envelope.wellFormed_of_mem_spelling {envelope : Envelope} {word : Bytes}
    (isWord : word ∈ envelope.spelling) : envelope.WellFormed := by
  intro addresses member
  have isSpelled : ∃ part, part ∈ AddressList.spelling addresses := by
    apply nonempty_of_mem_prod isWord
    simp only [addressLists, List.mem_cons, List.not_mem_nil, or_false] at member
    rcases member with rfl | rfl | rfl | rfl | rfl | rfl <;> simp
  rcases isSpelled with ⟨part, isPart⟩
  exact AddressList.wellFormed_of_mem_spelling isPart

theorem Attribute.wellFormed_of_mem_spelling {entry : Attribute} {word : Bytes}
    (isWord : word ∈ entry.spelling) : entry.WellFormed := by
  cases entry with
  | envelope value =>
    obtain ⟨tail, isTail, -⟩ := mem_singleton_mul.mp isWord
    exact Envelope.wellFormed_of_mem_spelling isTail
  | flags value =>
    obtain ⟨tail, isTail, -⟩ := mem_singleton_mul.mp isWord
    exact accepted_of_mem_parenthesized isTail
  | internalDate | rfc822 | rfc822Size | modSeq | uid => trivial

theorem ResponseCode.wellFormed_of_mem_spelling {code : ResponseCode} {word : Bytes}
    (isWord : word ∈ code.spelling) : code.WellFormed := by
  cases code with
  | permanentFlags flags =>
    obtain ⟨words, areWords⟩ :=
      nonempty_of_mem_prod isWord (permanentFlags flags).wordsSpelling (by simp)
    obtain ⟨tail, isTail, -⟩ := mem_singleton_mul.mp areWords
    exact accepted_of_mem_parenthesized isTail
  | uidValidity | uidNext | highestModSeq | readOnly | readWrite | tryCreate => trivial

theorem FreeText.wellFormed_of_mem_spelling {text : Option Bytes} {word : Bytes}
    (isWord : word ∈ FreeText.spelling text) : FreeText.WellFormed text ∧ word = text.getD [] := by
  cases text with
  | none => exact ⟨by simp [FreeText.WellFormed], (Language.mem_one word).mp isWord⟩
  | some present =>
    rcases isWord with ⟨isSame, isText⟩
    exact ⟨by simpa [FreeText.WellFormed] using isText, isSame⟩

theorem Remark.wellFormed_of_mem_spelling {remark : Remark} {word : Bytes}
    (isWord : word ∈ remark.spelling) : remark.WellFormed := by
  rcases remark with ⟨code, text⟩
  cases code with
  | none =>
    rcases isWord with ⟨isText, noCode⟩
    obtain ⟨textWellFormed, isSame⟩ := FreeText.wellFormed_of_mem_spelling isText
    subst isSame
    exact ⟨by simp, textWellFormed, fun _ => noCode⟩
  | some code =>
    obtain ⟨codeWord, isCode, tail, isTail, -⟩ := Language.mem_mul.mp isWord
    have codeWellFormed := ResponseCode.wellFormed_of_mem_spelling isCode
    have textWellFormed : FreeText.WellFormed text := by
      rcases (Language.mem_add _ _ tail).mp isTail with isSpaced | isText
      · obtain ⟨textWord, isText, -⟩ := mem_singleton_mul.mp isSpaced
        exact (FreeText.wellFormed_of_mem_spelling isText).1
      · exact (FreeText.wellFormed_of_mem_spelling isText.1).1
    exact ⟨by simpa using codeWellFormed, textWellFormed, by simp⟩

theorem Condition.wellFormed_of_mem_spelling {condition : Condition} {word : Bytes}
    (isWord : word ∈ condition.spelling) : condition.remark.WellFormed := by
  obtain ⟨remarkWord, isRemark⟩ := nonempty_of_mem_prod isWord condition.remark.spelling (by simp)
  exact Remark.wellFormed_of_mem_spelling isRemark

theorem Response.wellFormed_of_mem_spelling {response : Response} {word : Bytes}
    (isWord : word ∈ response.spelling) : response.WellFormed := by
  have untagged : ∀ {language : Language UInt8},
      word ∈ [literally "* ", language, literally "\r\n"].prod → ∃ part, part ∈ language :=
    fun isProduct => nonempty_of_mem_prod isProduct _ (by simp)
  cases response with
  | done tag condition =>
    obtain ⟨tagWord, isTag⟩ := nonempty_of_mem_prod isWord (asIs IsTag tag) (by simp)
    obtain ⟨conditionWord, isCondition⟩ := nonempty_of_mem_prod isWord condition.spelling (by simp)
    exact ⟨isTag.2, Condition.wellFormed_of_mem_spelling isCondition⟩
  | data condition =>
    obtain ⟨conditionWord, isCondition⟩ := untagged isWord
    exact Condition.wellFormed_of_mem_spelling isCondition
  | capabilities names =>
    obtain ⟨namesWord, areNames⟩ := untagged isWord
    obtain ⟨tail, isTail, -⟩ := mem_singleton_mul.mp areNames
    obtain ⟨nonempty, nameParts⟩ := parts_of_mem_many isTail
    refine ⟨nonempty, fun name member => ?_⟩
    obtain ⟨part, isPart⟩ := nameParts name member
    obtain ⟨nameWord, isName, -⟩ := mem_singleton_mul.mp isPart
    exact isName.2
  | mailbox datum =>
    obtain ⟨datumWord, isDatum⟩ := untagged isWord
    cases datum with
    | flags value =>
      obtain ⟨tail, isTail, -⟩ := mem_singleton_mul.mp isDatum
      exact accepted_of_mem_parenthesized isTail
    | «exists» | recent => trivial
  | fetch sequenceNumber attributes =>
    obtain ⟨fetchWord, isFetch⟩ := untagged isWord
    obtain ⟨listWord, isList⟩ :=
      nonempty_of_mem_prod isFetch (Attribute.listSpelling attributes) (by simp)
    obtain ⟨spacedWord, areSpaced⟩ :=
      nonempty_of_mem_prod isList (spaced Attribute.spelling attributes) (by simp)
    obtain ⟨nonempty, attributeParts⟩ := parts_of_mem_spaced areSpaced
    refine ⟨nonempty, fun entry member => ?_⟩
    obtain ⟨part, isPart⟩ := attributeParts entry member
    exact Attribute.wellFormed_of_mem_spelling isPart
  | expunge sequenceNumber => trivial

end Imap
