import Imap.Proofs.Grammar.LineBound
import Imap.Proofs.Grammar.TokenReading

/-!
# Conditions read their spellings

The point of interest is the remark. Its rule tries a code first and falls back to text when the
bracket is malformed, so text is read only where no code starts it. That the fallback is reached on
every other line needs the code to decide within the line: it must not wait for bytes that would
follow the line end.
-/

namespace Imap

open Rule Spelling

/-! ## Status words -/

theorem Status.reads_rule : Status.rule.Reads Set.univ Status.spelling Set.univ := by
  have wordReads : ∀ status : Status, status.wordRule.Reads {status} Status.spelling Set.univ := by
    intro status
    constructor
    · intro input rest value equality
      obtain ⟨word, _, wordMatch, equality⟩ := run_bind_eq_matched_iff.mp equality
      cases equality
      obtain ⟨sameLower, same⟩ := run_wordAnyCase_eq_matched_iff.mp wordMatch
      exact ⟨rfl, word, sameLower, same⟩
    · intro word rest value isValue isWord _
      obtain rfl := Set.mem_singleton_iff.mp isValue
      have wordMatch : (wordAnyCase value.word).run (word ++ rest) = .matched word rest :=
        run_wordAnyCase_eq_matched_iff.mpr ⟨isWord, rfl⟩
      exact run_bind_matched wordMatch _
  have choiceReads := reads_firstOf Status.exclusive_forms
    (.cons (wordReads .ok) <| .cons (wordReads .no) <| .cons (wordReads .bad) <|
      .cons (wordReads .preauth) <| .cons (wordReads .bye) .nil)
  refine choiceReads.congr (Set.eq_univ_of_forall fun status => ?_) fun _ _ => rfl
  cases status <;> simp

/-! ## Response codes -/

namespace ResponseCode

theorem reads_words :
    (firstOf forms).Reads Set.univ wordsSpelling (Bytes.startingOutside Byte.isDigit) := by
  have flagsReads : permanentFlagsRule.Reads (Set.range permanentFlags) wordsSpelling Set.univ :=
    Flag.reads_permanentListRule.announced _ permanentFlags fun _ => rfl
  have validityReads : uidValidityRule.Reads (Set.range uidValidity) wordsSpelling
      (Bytes.startingOutside Byte.isDigit) :=
    Number.reads_rule.announced _ uidValidity fun _ => rfl
  have nextReads : uidNextRule.Reads (Set.range uidNext) wordsSpelling
      (Bytes.startingOutside Byte.isDigit) :=
    Number.reads_rule.announced _ uidNext fun _ => rfl
  have highestReads : highestModSeqRule.Reads (Set.range highestModSeq) wordsSpelling
      (Bytes.startingOutside Byte.isDigit) :=
    Number.reads_wideRule.announced _ highestModSeq fun _ => rfl
  have keywordReads : ∀ literal code, wordsSpelling code = {literal} →
      (keyword literal code).Reads {code} wordsSpelling (Bytes.startingOutside Byte.isDigit) :=
    fun literal code spells => (reads_keyword literal code spells).follow_mono (Set.subset_univ _)
  have choiceReads := reads_firstOf exclusive_forms
    (.cons (flagsReads.follow_mono (Set.subset_univ _)) <| .cons validityReads <|
      .cons nextReads <| .cons (keywordReads _ readOnly rfl) <|
      .cons (keywordReads _ readWrite rfl) <| .cons (keywordReads _ tryCreate rfl) <|
      .cons highestReads .nil)
  refine choiceReads.congr (Set.eq_univ_of_forall fun code => ?_) fun _ _ => rfl
  cases code <;> simp

theorem reads_rule : rule.Reads Set.univ spelling Set.univ := by
  have enclosedReads : rule.Reads (id '' Set.univ) spelling Set.univ :=
    reads_words.enclosed (ascii "[") (ascii "]") id (fun _ _ => rfl)
      (Bytes.cons_mem_startingOutside (by decide))
  exact enclosedReads.congr (by simp) fun _ _ => rfl

end ResponseCode

/-! ## Remarks -/

theorem FreeText.mem_spelling_iff {word : Bytes} {text : Option Bytes} :
    word ∈ FreeText.spelling text ↔
      Remark.presentText word = text ∧ ∀ byte ∈ word, Byte.isLineEnd byte = false := by
  cases text with
  | none =>
    rw [spelling, Language.mem_one]
    constructor
    · intro isEmpty
      subst isEmpty
      exact ⟨rfl, by simp⟩
    · intro absent
      by_contra nonempty
      simp [Remark.presentText, nonempty] at absent
  | some text =>
    rw [spelling, mem_asIs]
    constructor
    · intro isText
      rcases isText with ⟨isSame, nonempty, onLine⟩
      subst isSame
      exact ⟨if_neg nonempty, onLine⟩
    · intro present
      rcases present with ⟨present, onLine⟩
      by_cases isEmpty : word = []
      · simp [Remark.presentText, isEmpty] at present
      · rw [Remark.presentText, if_neg isEmpty] at present
        cases present
        exact ⟨rfl, isEmpty, onLine⟩

namespace Remark

theorem run_leadingCode_eq_matched_iff {input rest : Bytes} {code : Option ResponseCode} :
    leadingCode.run input = .matched code rest ↔
      (∃ found left, code = some found ∧ ResponseCode.rule.run input = .matched found left ∧
        (skipOptional Byte.space).run left = .matched () rest) ∨
      code = none ∧ rest = input ∧ ResponseCode.rule.run input = .failed .malformed := by
  rw [leadingCode, run_orElse_eq_matched_iff]
  constructor
  · intro steps
    rcases steps with bracketMatch | ⟨noCode, absent⟩
    · obtain ⟨found, left, codeMatch, equality⟩ := run_bind_eq_matched_iff.mp bracketMatch
      obtain ⟨_, _, spaceMatch, equality⟩ := run_bind_eq_matched_iff.mp equality
      cases equality
      exact Or.inl ⟨found, left, rfl, codeMatch, spaceMatch⟩
    · cases absent
      refine Or.inr ⟨rfl, rfl, ?_⟩
      rcases run_bind_eq_failed_iff.mp noCode with codeFails | ⟨_, left, _, spaceFails⟩
      · exact codeFails
      · rcases run_bind_eq_failed_iff.mp spaceFails with spaceFails | ⟨_, _, _, pureFails⟩
        · cases (run_skipOptional_eq_failed_iff.mp spaceFails).1
        · cases pureFails
  · intro steps
    rcases steps with ⟨found, left, isFound, codeMatch, spaceMatch⟩ | ⟨isAbsent, isInput, noCode⟩
    · refine Or.inl ?_
      rw [isFound, run_bind_matched codeMatch, run_bind_matched spaceMatch]
      rfl
    · rw [isAbsent, isInput]
      exact Or.inr ⟨run_bind_failed noCode _, rfl⟩

/-- Whether a line starts with a code is decided when the line has ended. -/
theorem run_code_eq_malformed_iff {line rest : Bytes}
    (onLine : ∀ byte ∈ line, Byte.isLineEnd byte = false) (ends : rest ∈ lineEnds) :
    ResponseCode.rule.run (line ++ rest) = .failed .malformed ↔ ¬ ResponseCode.Starts line := by
  constructor
  · intro noCode starts
    rcases starts with ⟨code, codeWord, isCode, after, shape⟩
    subst shape
    have codeMatch := ResponseCode.reads_rule.complete (Set.mem_univ code) isCode
      (Set.mem_univ (after ++ rest))
    rw [List.append_assoc, codeMatch] at noCode
    cases noCode
  · intro noCode
    have onLinePlain : ∀ byte ∈ line, (!Byte.isLineEnd byte) = true := by simpa using onLine
    have codeWithin := ResponseCode.withinLine_rule ResponseCode.not_isLineEnd_of_isCodeByte
      (subset_refl lineEnds)
    have spares := codeWithin line onLinePlain rest ends
    cases answer : ResponseCode.rule.run (line ++ rest) with
    | matched code left =>
      rw [answer] at spares
      rcases spares with ⟨kept, -, shape⟩
      subst shape
      obtain ⟨-, codeWord, isCode, same⟩ := ResponseCode.reads_rule.sound answer
      rw [← List.append_assoc] at same
      refine absurd ⟨code, codeWord, isCode, ?_⟩ noCode
      exact ⟨kept, List.append_cancel_right same⟩
    | failed failure =>
      cases failure with
      | malformed => rfl
      | incomplete needed =>
        rw [answer] at spares
        exact spares.elim

/-- A text that starts with no space is seen as such with the line end behind it. -/
private theorem append_outside_space {text rest : Bytes} (noSpace : ¬ [Byte.space] <+: text)
    (ends : rest ∈ lineEnds) : text ++ rest ∈ Bytes.startingOutside (· == Byte.space) := by
  cases text with
  | nil =>
    rcases ends with ⟨next, others, rfl, isEnd⟩
    refine ⟨next, others, rfl, beq_eq_false_iff_ne.mpr fun isSpace => ?_⟩
    rw [isSpace] at isEnd
    cases isEnd
  | cons first text =>
    refine ⟨first, text ++ rest, rfl, beq_eq_false_iff_ne.mpr fun isSpace => ?_⟩
    exact noSpace ⟨text, by rw [isSpace]; rfl⟩

theorem reads_rule : rule.Reads Set.univ spelling lineEnds where
  sound := by
    intro input rest remark equality
    refine ⟨Set.mem_univ remark, ?_⟩
    obtain ⟨code, afterCode, codeMatch, equality⟩ := run_bind_eq_matched_iff.mp equality
    obtain ⟨text, _, textMatch, equality⟩ := run_bind_eq_matched_iff.mp equality
    cases equality
    obtain ⟨onLine, ends, shape⟩ := run_bytesBefore_eq_matched_iff.mp textMatch
    subst shape
    have isText : text ∈ FreeText.spelling (presentText text) :=
      FreeText.mem_spelling_iff.mpr ⟨rfl, onLine⟩
    rcases run_leadingCode_eq_matched_iff.mp codeMatch with
      ⟨found, left, rfl, foundMatch, spaceMatch⟩ | ⟨rfl, rfl, noCode⟩
    · obtain ⟨-, codeWord, isCode, shape⟩ := ResponseCode.reads_rule.sound foundMatch
      subst shape
      rcases run_skipOptional_eq_matched_iff.mp spaceMatch with rfl | ⟨rfl, noSpace⟩
      · have spacedText : ascii " " ++ text ∈ afterCodeSpelling (presentText text) :=
          Or.inl (Language.append_mem_mul (ascii_mem_literally " ") isText)
        refine ⟨codeWord ++ (ascii " " ++ text), ?_, by simp; rfl⟩
        exact Language.append_mem_mul isCode spacedText
      · have gluedText : text ∈ afterCodeSpelling (presentText text) := by
          refine Or.inr ⟨isText, fun spaceFirst => ?_⟩
          rcases spaceFirst with ⟨more, shape⟩
          subst shape
          rcases noSpace with ⟨next, others, same, notSpace⟩
          cases same
          cases notSpace
        refine ⟨codeWord ++ text, ?_, List.append_assoc codeWord text rest⟩
        exact Language.append_mem_mul isCode gluedText
    · exact ⟨text, ⟨isText, (run_code_eq_malformed_iff onLine ends).mp noCode⟩, rfl⟩
  complete := by
    intro word rest remark _ isWord ends
    rcases remark with ⟨code, text⟩
    have textMatch : ∀ {line : Bytes}, line ∈ FreeText.spelling text →
        (FreeText.rule.run (line ++ rest) = .matched line rest ∧ presentText line = text) := by
      intro line isText
      obtain ⟨isPresent, onLine⟩ := FreeText.mem_spelling_iff.mp isText
      exact ⟨run_bytesBefore_eq_matched_iff.mpr ⟨onLine, ends, rfl⟩, isPresent⟩
    cases code with
    | none =>
      rcases isWord with ⟨isText, noCode⟩
      have onLine := (FreeText.mem_spelling_iff.mp isText).2
      have codeMatch : leadingCode.run (word ++ rest) = .matched none (word ++ rest) :=
        run_leadingCode_eq_matched_iff.mpr
          (Or.inr ⟨rfl, rfl, (run_code_eq_malformed_iff onLine ends).mpr noCode⟩)
      obtain ⟨textMatch, isPresent⟩ := textMatch isText
      rw [rule, run_bind_matched codeMatch, run_bind_matched textMatch, isPresent]
      rfl
    | some code =>
      obtain ⟨codeWord, isCode, tail, isTail, shape⟩ := Language.mem_mul.mp isWord
      subst shape
      have foundMatch := ResponseCode.reads_rule.complete (Set.mem_univ code) isCode
        (Set.mem_univ (tail ++ rest))
      have spaceMatch : ∃ line ∈ FreeText.spelling text,
          (skipOptional Byte.space).run (tail ++ rest) = .matched () (line ++ rest) := by
        rcases (Language.mem_add _ _ tail).mp isTail with isSpaced | ⟨isText, noSpace⟩
        · obtain ⟨line, isText, shape⟩ := mem_singleton_mul.mp isSpaced
          subst shape
          exact ⟨line, isText, run_skipOptional_cons_self Byte.space (line ++ rest)⟩
        · refine ⟨tail, isText, run_skipOptional_of_outside ?_⟩
          exact append_outside_space noSpace ends
      rcases spaceMatch with ⟨line, isText, spaceMatch⟩
      have codeMatch : leadingCode.run (codeWord ++ (tail ++ rest)) =
          .matched (some code) (line ++ rest) :=
        run_leadingCode_eq_matched_iff.mpr (Or.inl ⟨code, _, rfl, foundMatch, spaceMatch⟩)
      obtain ⟨textMatch, isPresent⟩ := textMatch isText
      rw [List.append_assoc, rule, run_bind_matched codeMatch, run_bind_matched textMatch,
        isPresent]
      rfl

end Remark

theorem Condition.reads_rule :
    Condition.rule.Reads Set.univ Condition.spelling Remark.lineEnds := by
  refine Reads.spaced_field Condition.status Status.reads_rule fun status => ?_
  refine Reads.field Condition.remark Remark.reads_rule (fun remark => ?_) ?_
  · have endReads := (reads_pure (Condition.mk status remark)).follow_mono
      (Set.subset_univ Remark.lineEnds)
    refine endReads.congr ?_ fun _ _ => rfl
    ext ⟨_, _⟩
    simp
  · intro condition _ word isNothing rest ends
    rw [(Language.mem_one word).mp isNothing]
    exact ends

end Imap
