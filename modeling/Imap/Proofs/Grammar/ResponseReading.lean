import Imap.Proofs.Grammar.ConditionReading
import Imap.Proofs.Grammar.FetchReading
import Imap.Response.Decode

/-!
# Responses read their spellings

Every untagged form is read up to the line end, and every form delimits the one before it, so the
rule for a whole response reads its spellings wherever it stands.
-/

namespace Imap

open Rule Spelling

namespace MailboxDatum

theorem reads_rule : rule.Reads Set.univ spelling Set.univ := by
  have spaceEnds : ∀ {literal : Bytes}, literal.head? = some Byte.space → ∀ rest ∈ Set.univ,
      literal ++ rest ∈ Bytes.startingOutside Byte.isDigit := by
    intro literal startsWithSpace rest _
    obtain ⟨others, shape⟩ := List.head?_eq_some_iff.mp startsWithSpace
    subst shape
    exact Bytes.cons_mem_startingOutside (by decide) (others ++ rest)
  have flagsReads : flagsRule.Reads (Set.range flags) spelling Set.univ :=
    Flag.reads_listRule.announced _ flags fun _ => rfl
  have existsReads : existsRule.Reads (MailboxDatum.exists '' Set.univ) spelling Set.univ :=
    Number.reads_rule.closed (ascii " EXISTS") MailboxDatum.exists (fun _ _ => rfl)
      (spaceEnds rfl)
  have recentReads : recentRule.Reads (recent '' Set.univ) spelling Set.univ :=
    Number.reads_rule.closed (ascii " RECENT") recent (fun _ _ => rfl) (spaceEnds rfl)
  have choiceReads := reads_firstOf exclusive_forms
    (.cons flagsReads <| .cons existsReads <| .cons recentReads .nil)
  refine choiceReads.congr (Set.eq_univ_of_forall fun value => ?_) fun _ _ => rfl
  cases value <;> simp

end MailboxDatum

namespace Response

/-! ## Untagged responses -/

/-- The inputs that start with both bytes of a line end. -/
def lineBreaks : Set Bytes :=
  {input | Bytes.crlf <+: input}

theorem lineBreaks_subset {member : UInt8 → Bool} (isOutside : member Byte.carriageReturn = false) :
    lineBreaks ⊆ Bytes.startingOutside member := by
  intro input isBreak
  rcases isBreak with ⟨rest, shape⟩
  subst shape
  exact Bytes.cons_mem_startingOutside isOutside (Byte.lineFeed :: rest)

theorem consuming_capabilityNameRule : capabilityNameRule.Consuming :=
  (consuming_expect (by decide)).bind _

theorem run_capabilityNameRule_of_mem_lineBreaks {input : Bytes} (isBreak : input ∈ lineBreaks) :
    capabilityNameRule.run input = .failed .malformed :=
  ((beginsWith_expect Byte.space []).bind _).run_outside (lineBreaks_subset (by decide) isBreak)

theorem reads_capabilitiesRule :
    capabilitiesRule.Reads (Set.range capabilities) untaggedSpelling lineBreaks := by
  have nameReads : capabilityNameRule.Reads Set.univ
      (fun name => Spelling.space * asIs Atom.IsAtom name)
      (Bytes.startingOutside Byte.isAtomChar) :=
    Atom.reads_rule.after_expect [Byte.space]
  have spaceStarts : ∀ name, ∀ word ∈ Spelling.space * asIs Atom.IsAtom name, ∀ rest,
      word ++ rest ∈ Bytes.startingOutside Byte.isAtomChar := by
    intro name word isWord rest
    obtain ⟨tail, -, shape⟩ := mem_singleton_mul.mp isWord
    subst shape
    exact Bytes.cons_mem_startingOutside (by decide) (tail ++ rest)
  have namesRead := reads_many nameReads consuming_capabilityNameRule spaceStarts
  have listReads := namesRead.follow_mono fun input isBreak =>
    ⟨lineBreaks_subset (by decide) isBreak, run_capabilityNameRule_of_mem_lineBreaks isBreak⟩
  exact listReads.announced (ascii "CAPABILITY") capabilities fun _ => rfl

/-- What a fetch response has after its number. -/
private def afterFetchNumber : Response → Language UInt8
  | fetch _ attributes => literally " FETCH " * Attribute.listSpelling attributes
  | _ => 0

theorem reads_fetchRule : fetchRule.Reads (⋃ sequenceNumber, Set.range (fetch sequenceNumber))
    untaggedSpelling Set.univ := by
  have attributesRead : ∀ sequenceNumber, (do
      expect (ascii " FETCH ")
      let attributes ← Attribute.listRule
      pure (fetch sequenceNumber attributes)).Reads (Set.range (fetch sequenceNumber))
      afterFetchNumber Set.univ :=
    fun sequenceNumber =>
      Attribute.reads_listRule.announced _ (fetch sequenceNumber) fun _ => rfl
  refine Number.reads_rule.bind attributesRead ?_ ?_
  · intro sequenceNumber response isFetch
    rcases isFetch with ⟨attributes, shape⟩
    subst shape
    simp only [untaggedSpelling, afterFetchNumber, List.prod_cons, List.prod_nil, mul_one]
  · intro sequenceNumber response isFetch word isWord rest _
    rcases isFetch with ⟨attributes, shape⟩
    subst shape
    obtain ⟨tail, -, shape⟩ := mem_singleton_mul.mp isWord
    subst shape
    exact Bytes.cons_mem_startingOutside (by decide) _

theorem reads_untaggedForms : (firstOf untaggedForms).Reads
    {response | ∀ tag condition, response ≠ done tag condition} untaggedSpelling lineBreaks := by
  have dataReads : dataRule.Reads (Set.range data) untaggedSpelling Remark.lineEnds :=
    Condition.reads_rule.map data fun _ => rfl
  have mailboxReads : mailboxRule.Reads (Set.range mailbox) untaggedSpelling Set.univ :=
    MailboxDatum.reads_rule.map mailbox fun _ => rfl
  have expungeReads : expungeRule.Reads (expunge '' Set.univ) untaggedSpelling Set.univ :=
    Number.reads_rule.closed (ascii " EXPUNGE") expunge (fun _ _ => rfl)
      fun rest _ => Bytes.cons_mem_startingOutside (by decide) _
  have choiceReads := reads_firstOf exclusive_untaggedForms
    (.cons (dataReads.follow_mono (lineBreaks_subset (by decide))) <|
      .cons (mailboxReads.follow_mono (Set.subset_univ _)) <|
      .cons (expungeReads.follow_mono (Set.subset_univ _)) <|
      .cons (reads_fetchRule.follow_mono (Set.subset_univ _)) <|
      .cons reads_capabilitiesRule .nil)
  refine choiceReads.congr ?_ fun _ _ => rfl
  ext response
  cases response <;> simp

theorem reads_untaggedRule : untaggedRule.Reads
    {response | ∀ tag condition, response ≠ done tag condition} spelling Set.univ := by
  have enclosedReads : untaggedRule.Reads
      (id '' {response | ∀ tag condition, response ≠ done tag condition}) spelling Set.univ := by
    refine reads_untaggedForms.enclosed untaggedMark Bytes.crlf id (fun response notDone => ?_)
      (List.prefix_append Bytes.crlf)
    cases response with
    | done tag condition => exact absurd rfl (notDone tag condition)
    | data | capabilities | mailbox | fetch | expunge => rfl
  exact enclosedReads.congr (Set.image_id _) fun _ _ => rfl

/-! ## Tagged responses -/

/-- What a tagged response has after its tag. -/
private def afterTag : Response → Language UInt8
  | done _ condition => [Spelling.space, condition.spelling, literally "\r\n"].prod
  | _ => 0

theorem reads_taggedRule :
    taggedRule.Reads (⋃ tag, Set.range (done tag)) spelling Set.univ := by
  have tagReads : tagRule.Reads Set.univ (asIs IsTag) (Bytes.startingOutside Byte.isTagChar) :=
    reads_bytesIn Byte.isTagChar
  have conditionReads : ∀ tag, (do
      Rule.space
      let condition ← Condition.rule
      expect Bytes.crlf
      pure (done tag condition)).Reads (done tag '' Set.univ) afterTag Set.univ :=
    fun tag => Condition.reads_rule.enclosed [Byte.space] Bytes.crlf (done tag) (fun _ _ => rfl)
      Remark.crlf_append_mem_lineEnds
  have taggedReads : taggedRule.Reads (⋃ tag, done tag '' Set.univ) spelling Set.univ := by
    refine tagReads.bind conditionReads ?_ ?_
    · intro tag response isDone
      rcases isDone with ⟨condition, -, shape⟩
      subst shape
      rfl
    · intro tag response isDone word isWord rest _
      rcases isDone with ⟨condition, -, shape⟩
      subst shape
      obtain ⟨tail, -, shape⟩ := mem_singleton_mul.mp isWord
      subst shape
      exact Bytes.cons_mem_startingOutside (by decide) (tail ++ rest)
  exact taggedReads.congr (by simp) fun _ _ => rfl

/-- A response is read where it is spelled, and whatever comes after it is left alone. -/
theorem reads_rule : rule.Reads Set.univ spelling Set.univ := by
  have choiceReads := reads_firstOf exclusive_forms
    (.cons reads_untaggedRule (.cons reads_taggedRule .nil))
  refine choiceReads.congr (Set.eq_univ_of_forall fun response => ?_) fun _ _ => rfl
  cases response <;> simp

end Response

end Imap
