import Imap.Proofs.Grammar.Exclusion
import Imap.Proofs.Grammar.Quoted
import Imap.Proofs.Grammar.Spelling
import Imap.Proofs.Rule.Reading

/-!
# The tokens read their spellings

Numbers, strings and flags. A number and a flag end before a byte outside their class, so they say
what may follow them; a string carries its own end.
-/

namespace Imap

open Rule Spelling

/-! ## Numbers -/

namespace Number

theorem fitting32_eq_some_iff {number : Nat} {value : UInt32} :
    fitting32 number = some value ↔ number = value.toNat := by
  unfold fitting32
  split
  · rename_i fits
    rw [Option.some.injEq, ← UInt32.toNat_inj, UInt32.toNat_ofNatLT]
  · rename_i tooLarge
    have bounded := value.toNat_lt
    have different : number ≠ value.toNat := by
      intro same
      rw [← same] at bounded
      exact tooLarge bounded
    simp [different]

theorem fitting64_eq_some_iff {number : Nat} {value : UInt64} :
    fitting64 number = some value ↔ number = value.toNat := by
  unfold fitting64
  split
  · rename_i fits
    rw [Option.some.injEq, ← UInt64.toNat_inj, UInt64.toNat_ofNatLT]
  · rename_i tooLarge
    have bounded := value.toNat_lt
    have different : number ≠ value.toNat := by
      intro same
      rw [← same] at bounded
      exact tooLarge bounded
    simp [different]

theorem fitting32_eq_none_iff {number : Nat} :
    fitting32 number = none ↔ UInt32.size ≤ number := by
  simp [fitting32]

theorem fitting64_eq_none_iff {number : Nat} :
    fitting64 number = none ↔ UInt64.size ≤ number := by
  simp [fitting64]

private theorem mem_numeral_iff {number : Nat} {word : Bytes} :
    word ∈ numeral number ↔ ∃ digits, Decimal.value digits = number ∧
      word ∈ asIs (fun run => run ≠ [] ∧ ∀ byte ∈ run, Byte.isDigit byte = true) digits := by
  constructor
  · intro isNumeral
    rcases isNumeral with ⟨nonempty, allDigits, hasValue⟩
    exact ⟨word, hasValue, rfl, nonempty, allDigits⟩
  · intro isRun
    rcases isRun with ⟨digits, hasValue, isSame, nonempty, allDigits⟩
    subst isSame
    exact ⟨nonempty, allDigits, hasValue⟩

theorem reads_rule : rule.Reads Set.univ (fun value => numeral value.toNat)
    (Bytes.startingOutside Byte.isDigit) := by
  refine (reads_bytesIn Byte.isDigit).accepting fun value word => ?_
  simp only [mem_numeral_iff, fitting32_eq_some_iff]

theorem reads_wideRule : wideRule.Reads Set.univ (fun value => numeral value.toNat)
    (Bytes.startingOutside Byte.isDigit) := by
  refine (reads_bytesIn Byte.isDigit).accepting fun value word => ?_
  simp only [mem_numeral_iff, fitting64_eq_some_iff]

end Number

/-! ## Strings -/

namespace Quoted

theorem close?_of_inner {value word : Bytes} (inner : Inner value word) (rest : Bytes) :
    close? (word ++ Byte.doubleQuote :: rest) = some (value, rest) := by
  induction inner with
  | nil => exact close?_quote rest
  | plain notQuote notBackslash _ inductionHypothesis =>
    rw [List.cons_append, close?_plain notQuote notBackslash, inductionHypothesis]
    rfl
  | escaped isSpecial _ inductionHypothesis =>
    rw [List.cons_append, List.cons_append, close?_escape, inductionHypothesis]
    simp [unescapePair, Byte.isQuotedSpecial, isSpecial]
  | kept notQuote notBackslash _ inductionHypothesis =>
    rw [List.cons_append, List.cons_append, close?_escape, inductionHypothesis]
    simp [unescapePair, Byte.isQuotedSpecial, notQuote, notBackslash]

/-- A backslash and the byte after it stand for one byte or for both. -/
theorem Inner.pair {value word : Bytes} (inner : Inner value word) (escaped : UInt8) :
    Inner (unescapePair escaped ++ value) (Byte.backslash :: escaped :: word) := by
  by_cases isSpecial : escaped = Byte.doubleQuote ∨ escaped = Byte.backslash
  · have pair : unescapePair escaped = [escaped] := by
      simp [unescapePair, Byte.isQuotedSpecial, isSpecial]
    rw [pair]
    exact Inner.escaped isSpecial inner
  · obtain ⟨notQuote, notBackslash⟩ := not_or.mp isSpecial
    have pair : unescapePair escaped = [Byte.backslash, escaped] := by
      simp [unescapePair, Byte.isQuotedSpecial, notQuote, notBackslash]
    rw [pair]
    exact Inner.kept notQuote notBackslash inner

theorem inner_of_close? {input value rest : Bytes} (closed : close? input = some (value, rest)) :
    ∃ word, Inner value word ∧ word ++ Byte.doubleQuote :: rest = input := by
  fun_induction close? input generalizing value with
  | case1 => cases closed
  | case2 =>
    cases closed
    exact ⟨[], Inner.nil, rfl⟩
  | case3 => cases closed
  | case4 escaped later _ inductionHypothesis =>
    obtain ⟨⟨innerValue, after⟩, innerClosed, equality⟩ := Option.map_eq_some_iff.mp closed
    cases equality
    obtain ⟨word, inner, shape⟩ := inductionHypothesis innerClosed
    subst shape
    exact ⟨Byte.backslash :: escaped :: word, inner.pair escaped, rfl⟩
  | case5 byte later notQuote notBackslash inductionHypothesis =>
    obtain ⟨⟨innerValue, after⟩, innerClosed, equality⟩ := Option.map_eq_some_iff.mp closed
    cases equality
    obtain ⟨word, inner, shape⟩ := inductionHypothesis innerClosed
    subst shape
    exact ⟨byte :: word, Inner.plain notQuote notBackslash inner, rfl⟩

theorem reads_body :
    body.Reads Set.univ (fun value => wordsThat (Inner value) * literally "\"") Set.univ where
  sound := by
    intro input rest value bodyMatch
    obtain ⟨word, inner, shape⟩ := inner_of_close? (run_body_eq_matched_iff.mp bodyMatch)
    subst shape
    refine ⟨Set.mem_univ value, word ++ ascii "\"", Language.append_mem_mul inner rfl, ?_⟩
    exact List.append_assoc word (ascii "\"") rest
  complete := by
    intro word rest value _ isWord _
    obtain ⟨innerWord, inner, _, rfl, rfl⟩ := Language.mem_mul.mp isWord
    rw [List.append_assoc]
    exact run_body_eq_matched_iff.mpr (close?_of_inner inner rest)

theorem reads_rule : rule.Reads Set.univ spelling Set.univ := by
  refine (reads_body.after_expect [Byte.doubleQuote]).congr rfl fun value _ => ?_
  simp only [spelling, List.prod_cons, List.prod_nil, mul_one]
  rfl

end Quoted

namespace Literal

/-- What stands after the number of a literal. -/
private def bodySpelling (value : Bytes) : Language UInt8 :=
  literally "\x7d\r\n" * asIs (fun body => body.length < UInt32.size) value

private theorem spelling_eq (value : Bytes) :
    spelling value = literally "\x7b" * (numeral value.length * bodySpelling value) := by
  simp only [spelling, bodySpelling, List.prod_cons, List.prod_nil, mul_one]

/-- The body has the length that the number announces. -/
private theorem reads_bodySpelling (length : UInt32) :
    (expect (ascii "\x7d\r\n") >>= fun _ => exactly length.toNat).Reads
      {value | value.length = length.toNat} bodySpelling Set.univ := by
  refine ((reads_exactly length.toNat).after_expect _).congr rfl fun value isLong => ?_
  have isShort : value.length < UInt32.size := isLong ▸ length.toNat_lt
  have sameWords : ({value} : Language UInt8) =
      asIs (fun body => body.length < UInt32.size) value := by
    ext word
    exact ⟨fun isSame => ⟨isSame, isShort⟩, fun isBody => isBody.1⟩
  rw [sameWords]
  rfl

private theorem spelling_eq_zero {value : Bytes} (isLong : UInt32.size ≤ value.length) :
    spelling value = 0 := by
  have noBody : asIs (fun body => body.length < UInt32.size) value = 0 := by
    ext word
    refine ⟨fun isBody => absurd isBody.2 (Nat.not_lt.mpr isLong), fun isNothing => ?_⟩
    exact absurd isNothing (Language.notMem_zero word)
  rw [spelling_eq, bodySpelling, noBody, mul_zero, mul_zero, mul_zero]

theorem reads_rule : rule.Reads Set.univ spelling Set.univ := by
  have closeEnds : ∀ value, ∀ word ∈ bodySpelling value, ∀ rest,
      word ++ rest ∈ Bytes.startingOutside Byte.isDigit := by
    intro value word isWord rest
    obtain ⟨tail, -, shape⟩ := mem_singleton_mul.mp isWord
    subst shape
    exact Bytes.cons_mem_startingOutside (by decide) _
  have numberReads : (Number.rule >>= fun length =>
      expect (ascii "\x7d\r\n") >>= fun _ => exactly length.toNat).Reads
      (⋃ length : UInt32, {value | value.length = length.toNat})
      (fun value => numeral value.length * bodySpelling value) Set.univ := by
    refine Number.reads_rule.bind reads_bodySpelling (fun length value isLong => ?_) ?_
    · rw [isLong]
    · exact fun _ value _ word isWord rest _ => closeEnds value word isWord rest
  have literalReads : rule.Reads (⋃ length : UInt32, {value | value.length = length.toNat})
      (fun value => literally "\x7b" * (numeral value.length * bodySpelling value)) Set.univ :=
    numberReads.after_expect (ascii "\x7b")
  have spelledReads := literalReads.congr rfl fun value _ => (spelling_eq value).symm
  refine spelledReads.univ_of_unspelled fun value notAnnounced => spelling_eq_zero ?_
  by_contra isShort
  have fits := Nat.not_le.mp isShort
  refine notAnnounced (Set.mem_iUnion.mpr ⟨UInt32.ofNatLT value.length fits, ?_⟩)
  exact UInt32.toNat_ofNatLT.symm

end Literal

namespace ByteString

theorem reads_rule : rule.Reads Set.univ spelling Set.univ := by
  have eitherReads := reads_firstOf_sum exclusive_forms
    (.cons Quoted.reads_rule (.cons Literal.reads_rule .nil))
  refine eitherReads.congr rfl fun value _ => ?_
  simp [spelling]

end ByteString

namespace NullableString

theorem reads_rule : rule.Reads Set.univ spelling Set.univ := by
  have nilReads : (keyword nil none).Reads {none} spelling Set.univ := reads_keyword nil none rfl
  have stringReads : (some <$> ByteString.rule).Reads (Set.range some) spelling Set.univ :=
    ByteString.reads_rule.map some fun _ => rfl
  have eitherReads := reads_firstOf exclusive_forms (.cons nilReads (.cons stringReads .nil))
  refine eitherReads.congr (Set.eq_univ_of_forall fun value => ?_) fun _ _ => rfl
  cases value with
  | none => simp
  | some text => simp

end NullableString

/-! ## Flags -/

theorem Atom.reads_rule :
    Atom.rule.Reads Set.univ (asIs Atom.IsAtom) (Bytes.startingOutside Byte.isAtomChar) :=
  reads_bytesIn Byte.isAtomChar

namespace Flag

/-- A backslash and an atom. -/
private def IsExtension (flag : Bytes) : Prop :=
  ∃ name, Atom.IsAtom name ∧ flag = Byte.backslash :: name

private theorem reads_extensionRule :
    extensionRule.Reads Set.univ (asIs IsExtension) (Bytes.startingOutside Byte.isAtomChar) := by
  have spells : ∀ name, asIs IsExtension (Byte.backslash :: name) =
      ({[Byte.backslash]} : Language UInt8) * asIs Atom.IsAtom name := by
    intro name
    ext word
    rw [mem_singleton_mul, mem_asIs]
    constructor
    · intro isWord
      rcases isWord with ⟨isSame, other, isAtom, sameFlag⟩
      cases sameFlag
      exact ⟨name, ⟨rfl, isAtom⟩, isSame.symm⟩
    · intro isProduct
      rcases isProduct with ⟨_, ⟨rfl, isAtom⟩, isSame⟩
      exact ⟨isSame.symm, _, isAtom, rfl⟩
  have extensionReads := Atom.reads_rule.announced [Byte.backslash] (Byte.backslash :: ·) spells
  refine extensionReads.univ_of_unspelled fun value notExtension => ?_
  ext word
  refine ⟨fun isWord => ?_, fun isNothing => absurd isNothing (Language.notMem_zero word)⟩
  rcases isWord with ⟨-, name, -, isExtension⟩
  exact absurd ⟨name, isExtension.symm⟩ notExtension

theorem reads_rule :
    rule.Reads Set.univ (asIs IsFlag) (Bytes.startingOutside Byte.isAtomChar) := by
  have eitherReads := reads_firstOf_sum exclusive_forms
    (.cons reads_extensionRule (.cons Atom.reads_rule .nil))
  refine eitherReads.congr rfl fun flag _ => ?_
  ext word
  simp [Language.mem_add, mem_asIs, IsFlag, IsExtension, ← and_or_left, or_comm]

theorem reads_permanentRule :
    permanentRule.Reads Set.univ (asIs IsPermanent) (Bytes.startingOutside Byte.isAtomChar) := by
  have wildcardReads := (reads_word (ascii "\\*")).follow_mono
    (Set.subset_univ (Bytes.startingOutside Byte.isAtomChar))
  have eitherReads := reads_firstOf_sum exclusive_permanentForms
    (.cons wildcardReads (.cons reads_rule .nil))
  refine eitherReads.congr rfl fun flag _ => ?_
  ext word
  simp [Language.mem_add, mem_asIs, IsPermanent, ← and_or_left]

theorem run_rule_close (rest : Bytes) :
    rule.run (ascii ")" ++ rest) = .failed .malformed := by
  have notAtom : Atom.rule.run (ascii ")" ++ rest) = .failed .malformed :=
    run_bytesIn_eq_malformed_iff.mpr (Bytes.cons_mem_startingOutside (by decide) rest)
  have notExtension : extensionRule.run (ascii ")" ++ rest) = .failed .malformed :=
    ((beginsWith_expect Byte.backslash []).bind _).run_outside
      (Bytes.cons_mem_startingOutside (by decide) rest)
  exact run_firstOf_eq_malformed_iff.mpr (by simp [forms, notAtom, notExtension])

theorem run_permanentRule_close (rest : Bytes) :
    permanentRule.run (ascii ")" ++ rest) = .failed .malformed := by
  have notWildcard : (word (ascii "\\*")).run (ascii ")" ++ rest) = .failed .malformed :=
    (beginsWith_word Byte.backslash (ascii "*")).run_outside
      (Bytes.cons_mem_startingOutside (by decide) rest)
  exact run_firstOf_eq_malformed_iff.mpr
    (by simp [permanentForms, notWildcard, run_rule_close rest])

private theorem startingOutside_isAtomChar {next : UInt8}
    (isSpecial : Byte.isAtomSpecial next = true) (rest : Bytes) :
    next :: rest ∈ Bytes.startingOutside Byte.isAtomChar :=
  Bytes.cons_mem_startingOutside (by simp [Byte.isAtomChar, isSpecial]) rest

theorem reads_listRule : listRule.Reads Set.univ listSpelling Set.univ :=
  reads_parenthesized reads_rule (startingOutside_isAtomChar (by decide))
    (startingOutside_isAtomChar (by decide)) run_rule_close

theorem reads_permanentListRule : (Rule.parenthesized permanentRule).Reads Set.univ
    (Spelling.parenthesized (asIs IsPermanent)) Set.univ :=
  reads_parenthesized reads_permanentRule (startingOutside_isAtomChar (by decide))
    (startingOutside_isAtomChar (by decide)) run_permanentRule_close

end Flag

end Imap
