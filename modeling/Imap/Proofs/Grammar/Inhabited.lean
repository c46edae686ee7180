import Imap.Proofs.Grammar.Wire

/-!
# Well-formed values have spellings

Every well-formed value can be spelled. Its written form need not do: a string that a quoted string
must not carry is written as a literal, and a literal cannot announce every length. But the grammar
reads any bytes between two quotes, so in quotes every string has a spelling.
-/

namespace Imap

open Spelling

theorem exists_mem_numeral (number : Nat) : ∃ word, word ∈ numeral number :=
  ⟨Decimal.digits number, Decimal.digits_mem_numeral number⟩

theorem ByteString.exists_mem_spelling (value : Bytes) : ∃ word, word ∈ spelling value :=
  ⟨Quoted.wire value, Or.inl (Quoted.wire_mem_spelling value)⟩

theorem NullableString.exists_mem_spelling (value : Option Bytes) :
    ∃ word, word ∈ spelling value := by
  cases value with
  | none => exact ⟨ascii "NIL", ascii_mem_literally "NIL"⟩
  | some text => exact ByteString.exists_mem_spelling text

/-! ## Fetched messages -/

theorem Address.exists_mem_spelling (address : Address) : ∃ word, word ∈ address.spelling := by
  apply exists_mem_prod
  simp only [List.forall_mem_cons, exists_mem_literally, NullableString.exists_mem_spelling]
  simp

theorem AddressList.exists_mem_spelling {addresses : AddressList}
    (isWellFormed : AddressList.WellFormed addresses) : ∃ word, word ∈ spelling addresses := by
  cases addresses with
  | none => exact exists_mem_literally "NIL"
  | some members =>
    have nonempty : members ≠ [] := fun isEmpty => isWellFormed (by rw [isEmpty])
    have membersSpelled := exists_mem_many nonempty fun address _ => address.exists_mem_spelling
    apply exists_mem_prod
    simp only [List.forall_mem_cons, exists_mem_literally, membersSpelled]
    simp

theorem Envelope.exists_mem_spelling {envelope : Envelope} (isWellFormed : envelope.WellFormed) :
    ∃ word, word ∈ envelope.spelling := by
  have listSpelled : ∀ addresses ∈ envelope.addressLists,
      ∃ word, word ∈ AddressList.spelling addresses :=
    fun addresses member => AddressList.exists_mem_spelling (isWellFormed addresses member)
  simp only [addressLists, List.forall_mem_cons] at listSpelled
  apply exists_mem_prod
  simp only [List.forall_mem_cons, exists_mem_literally, NullableString.exists_mem_spelling,
    listSpelled]
  simp

namespace Attribute

theorem exists_mem_spelling {entry : Attribute} (isWellFormed : entry.WellFormed) :
    ∃ word, word ∈ entry.spelling := by
  cases entry with
  | envelope value => exact exists_mem_literally_mul _ (Envelope.exists_mem_spelling isWellFormed)
  | internalDate value => exact exists_mem_literally_mul _ (ByteString.exists_mem_spelling value)
  | rfc822 value => exact exists_mem_literally_mul _ (NullableString.exists_mem_spelling value)
  | flags | rfc822Size | modSeq | uid =>
    exact ⟨_, wire_mem_spelling isWellFormed (by simp [strings])⟩

theorem exists_mem_listSpelling {attributes : List Attribute} (nonempty : attributes ≠ [])
    (areWellFormed : ∀ entry ∈ attributes, entry.WellFormed) :
    ∃ word, word ∈ listSpelling attributes := by
  have entriesSpelled := exists_mem_spaced nonempty fun entry member =>
    exists_mem_spelling (areWellFormed entry member)
  apply exists_mem_prod
  simp only [List.forall_mem_cons, exists_mem_literally, entriesSpelled]
  simp

end Attribute

/-! ## Responses -/

theorem Response.exists_mem_spelling {response : Response} (isWellFormed : response.WellFormed) :
    ∃ word, word ∈ response.spelling := by
  cases response with
  | fetch sequenceNumber attributes =>
    obtain ⟨nonempty, areWellFormed⟩ := isWellFormed
    have listSpelled := Attribute.exists_mem_listSpelling nonempty areWellFormed
    have fetchSpelled : ∃ word, word ∈ (fetch sequenceNumber attributes).untaggedSpelling := by
      apply exists_mem_prod
      simp only [List.forall_mem_cons, exists_mem_numeral, exists_mem_literally, listSpelled]
      simp
    apply exists_mem_prod
    simp only [List.forall_mem_cons, exists_mem_literally, fetchSpelled]
    simp
  | done | data | capabilities | mailbox | expunge =>
    exact ⟨_, wire_mem_spelling isWellFormed (by simp [strings])⟩

theorem Response.exists_mem_spelling_iff {response : Response} :
    (∃ word, word ∈ response.spelling) ↔ response.WellFormed := by
  constructor
  · rintro ⟨word, isWord⟩
    exact wellFormed_of_mem_spelling isWord
  · exact exists_mem_spelling

end Imap
