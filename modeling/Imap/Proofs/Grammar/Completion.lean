import Imap.Proofs.Grammar.ResponseReading
import Imap.Proofs.Grammar.Stability
import Imap.Proofs.Rule.Completion

/-!
# Where the grammar waits in vain

Almost every wait of the decoder can be ended by the right bytes. Two cannot, since a rule looks at
its input as a whole only when that input has ended. A run of digits may already be too large while
it can still grow, and a date that starts like the word for a missing string is refused only when
that word is complete. A number stands behind a space or a brace, so the digits of a dead end are a
maximal run; the number of 64 bits has a word of its own in front.
-/

namespace Imap

open Rule

/-- An input that ends in a number too large for its place, or in a date that is about to be
missing. -/
inductive DeadEnd : Bytes → Prop
  | narrow (start : Bytes) {mark : UInt8} {run : Bytes} :
      mark = Byte.space ∨ mark = 123 → (∀ byte ∈ run, Byte.isDigit byte = true) →
      UInt32.size ≤ Decimal.value run → DeadEnd (start ++ mark :: run)
  | wide (start : Bytes) {run : Bytes} :
      (∀ byte ∈ run, Byte.isDigit byte = true) → UInt64.size ≤ Decimal.value run →
      DeadEnd (start ++ (ascii "MODSEQ (" ++ run))
  | date (start : Bytes) {letters : Bytes} : letters = ascii "N" ∨ letters = ascii "NI" →
      DeadEnd (start ++ (ascii "INTERNALDATE " ++ letters))

def deadEnds : Set Bytes :=
  {input | DeadEnd input}

theorem leftAbsorbing_deadEnds : LeftAbsorbing deadEnds := by
  intro front input isDead
  cases isDead with
  | narrow start isMark allDigits tooLarge =>
    rw [← List.append_assoc]
    exact DeadEnd.narrow (front ++ start) isMark allDigits tooLarge
  | wide start allDigits tooLarge =>
    rw [← List.append_assoc]
    exact DeadEnd.wide (front ++ start) allDigits tooLarge
  | date start isBeginning =>
    rw [← List.append_assoc]
    exact DeadEnd.date (front ++ start) isBeginning

theorem leftAbsorbing_empty : LeftAbsorbing ∅ :=
  fun _ _ isDead => absurd isDead (Set.notMem_empty _)

/-! ## Numbers -/

namespace Number

/-- The runs of digits with a value that a limit excludes. -/
def overflows (limit : Nat) : Set Bytes :=
  {run | (∀ byte ∈ run, Byte.isDigit byte = true) ∧ limit ≤ Decimal.value run}

private theorem completable_accepting {α : Type} {accept : Nat → Option α} {limit : Nat}
    (positive : 0 < limit) (accepts : ∀ number < limit, ∃ value, accept number = some value) :
    (digitRun.accepting fun digits => accept (Decimal.value digits)).Completable
      (Bytes.startingOutside Byte.isDigit) (overflows limit) := by
  have runGives : ∀ run : Bytes, run ≠ [] → (∀ byte ∈ run, Byte.isDigit byte = true) →
      Decimal.value run < limit → ∃ value,
        (digitRun.accepting fun digits => accept (Decimal.value digits)).Gives
          (Bytes.startingOutside Byte.isDigit) run value := by
    intro run nonempty allDigits fits
    obtain ⟨value, accepted⟩ := accepts (Decimal.value run) fits
    refine ⟨value, fun rest follows => run_accepting_eq_matched_iff.mpr ⟨run, ?_, accepted⟩⟩
    exact run_bytesIn_eq_matched_iff.mpr ⟨nonempty, allDigits, follows, rfl⟩
  have zeroDigit : ∀ byte ∈ ([48] : Bytes), Byte.isDigit byte = true :=
    List.forall_mem_singleton.mpr rfl
  obtain ⟨zero, zeroGives⟩ := runGives [48] (List.cons_ne_nil _ _) zeroDigit positive
  refine ⟨⟨[48], zero, zeroGives⟩, fun {input needed} waits => ?_⟩
  have digitsWait := run_accepting_eq_incomplete_iff.mp waits
  obtain ⟨-, allDigits⟩ := run_bytesIn_eq_incomplete_iff.mp digitsWait
  by_cases fits : Decimal.value input < limit
  · by_cases isEmpty : input = []
    · rw [isEmpty]
      exact Or.inr ⟨[48], zero, zeroGives⟩
    · obtain ⟨value, gives⟩ := runGives input isEmpty allDigits fits
      rw [← List.append_nil input] at gives
      exact Or.inr ⟨[], value, gives⟩
  · exact Or.inl ⟨allDigits, Nat.not_lt.mp fits⟩

theorem completable_rule :
    rule.Completable (Bytes.startingOutside Byte.isDigit) (overflows UInt32.size) :=
  completable_accepting (by decide) fun number fits =>
    ⟨UInt32.ofNatLT number fits, dif_pos fits⟩

theorem completable_wideRule :
    wideRule.Completable (Bytes.startingOutside Byte.isDigit) (overflows UInt64.size) :=
  completable_accepting (by decide) fun number fits =>
    ⟨UInt64.ofNatLT number fits, dif_pos fits⟩

/-- Behind a space or a brace a number that overflows is a dead end. -/
theorem append_mem_deadEnds (start : Bytes) {literal : Bytes} {mark : UInt8}
    (isMark : mark = Byte.space ∨ mark = 123) (isLiteral : literal = start ++ [mark]) :
    ∀ run ∈ overflows UInt32.size, literal ++ run ∈ deadEnds := by
  intro run isTooLarge
  rcases isTooLarge with ⟨allDigits, tooLarge⟩
  rw [isLiteral, List.append_assoc]
  exact DeadEnd.narrow start isMark allDigits tooLarge

end Number

/-! ## Strings -/

namespace Quoted

/-- A string that has not been closed can be closed, after the byte that a backslash waits for. -/
theorem exists_inner_of_open {input : Bytes} (isOpen : close? input = none) :
    ∃ later value, Inner value (input ++ later) := by
  fun_induction close? input with
  | case1 => exact ⟨[], [], Inner.nil⟩
  | case2 => cases isOpen
  | case3 => exact ⟨[Byte.doubleQuote], [Byte.doubleQuote], Inner.escaped (Or.inl rfl) Inner.nil⟩
  | case4 escaped unread _ inductionHypothesis =>
    obtain ⟨later, value, inner⟩ := inductionHypothesis (Option.map_eq_none_iff.mp isOpen)
    exact ⟨later, unescapePair escaped ++ value, inner.pair escaped⟩
  | case5 byte unread notQuote notBackslash inductionHypothesis =>
    obtain ⟨later, value, inner⟩ := inductionHypothesis (Option.map_eq_none_iff.mp isOpen)
    exact ⟨later, byte :: value, Inner.plain notQuote notBackslash inner⟩

theorem completable_body {dead : Set Bytes} : body.Completable Set.univ dead := by
  have innerGives : ∀ {value word : Bytes}, Inner value word →
      body.Gives Set.univ (word ++ [Byte.doubleQuote]) value := by
    intro value word inner rest _
    rw [List.append_assoc]
    exact run_body_eq_matched_iff.mpr (close?_of_inner inner rest)
  refine ⟨⟨_, [], innerGives Inner.nil⟩, fun {input needed} waits => ?_⟩
  obtain ⟨-, isOpen⟩ := run_body_eq_incomplete_iff.mp waits
  obtain ⟨later, value, inner⟩ := exists_inner_of_open isOpen
  have gives := innerGives inner
  rw [List.append_assoc] at gives
  exact Or.inr ⟨later ++ [Byte.doubleQuote], value, gives⟩

theorem completable_rule : rule.Completable Set.univ deadEnds :=
  completable_body.after_expect fun rest isDead => leftAbsorbing_deadEnds _ rest isDead

end Quoted

theorem completable_exactly {count : Nat} {dead : Set Bytes} :
    (exactly count).Completable Set.univ dead := by
  have wordGives : ∀ word : Bytes, word.length = count → (exactly count).Gives Set.univ word word :=
    fun word isLong rest _ => run_exactly_eq_matched_iff.mpr ⟨isLong, rfl⟩
  refine ⟨⟨_, _, wordGives (List.replicate count 0) List.length_replicate⟩, ?_⟩
  intro input needed waits
  obtain ⟨-, isShort⟩ := run_exactly_eq_incomplete_iff.mp waits
  refine Or.inr ⟨List.replicate (count - input.length) 0, _, wordGives _ ?_⟩
  rw [List.length_append, List.length_replicate]
  omega

theorem Literal.completable_rule : Literal.rule.Completable Set.univ deadEnds := by
  have closeEnds : ∀ rest, ascii "\x7d\r\n" ++ rest ∈ Bytes.startingOutside Byte.isDigit :=
    fun rest => Bytes.cons_mem_startingOutside (by decide) (Bytes.crlf ++ rest)
  have numberCompletable : (do
      let length ← Number.rule
      expect (ascii "\x7d\r\n")
      exactly length.toNat).Completable Set.univ (Number.overflows UInt32.size) :=
    Number.completable_rule.before_expect Number.stable_rule (fun _ => completable_exactly)
      closeEnds leftAbsorbing_empty (Set.empty_subset _)
  exact numberCompletable.after_expect (Number.append_mem_deadEnds [] (Or.inr rfl) rfl)

namespace ByteString

theorem completable_rule : rule.Completable Set.univ deadEnds := by
  have formsCompletable : ∀ form ∈ forms, form.Completable Set.univ deadEnds := by
    simp only [forms, List.forall_mem_cons]
    exact ⟨Quoted.completable_rule, Literal.completable_rule, by simp⟩
  exact completable_firstOf (by simp [forms]) formsCompletable stable_forms

end ByteString

namespace NullableString

theorem completable_rule : rule.Completable Set.univ deadEnds := by
  have formsCompletable : ∀ form ∈ forms, form.Completable Set.univ deadEnds := by
    simp only [forms, List.forall_mem_cons]
    exact ⟨completable_keyword _ _, ByteString.completable_rule.map some, by simp⟩
  exact completable_firstOf (by simp [forms]) formsCompletable stable_forms

/-- The first letters of the word for a missing string. -/
def beginnings : Set Bytes :=
  {ascii "N", ascii "NI"}

private theorem eq_nil_or_mem_beginnings {input missing : Bytes} (nonempty : missing ≠ [])
    (same : input ++ missing = nil) : input = [] ∨ input ∈ beginnings := by
  have isBeginning : input ∈ [[], ascii "N", ascii "NI", nil] := by
    have isInit : input ∈ nil.inits := (List.mem_inits input nil).mpr ⟨missing, same⟩
    have allInits : nil.inits = [[], ascii "N", ascii "NI", nil] := rfl
    exact allInits ▸ isInit
  simp only [List.mem_cons, List.not_mem_nil, or_false] at isBeginning
  rcases isBeginning with isEmpty | isLetter | areLetters | isWhole
  · exact Or.inl isEmpty
  · exact Or.inr (Or.inl isLetter)
  · exact Or.inr (Or.inr areLetters)
  · rw [isWhole] at same
    exact absurd (List.append_right_eq_self.mp same) nonempty

/-- Where a string must be present, a wait on the word for a missing one is in vain. -/
theorem completable_present :
    (rule.accepting id).Completable Set.univ (beginnings ∪ deadEnds) := by
  have textGives : ∀ {word text : Bytes}, ByteString.rule.Gives Set.univ word text →
      (rule.accepting id).Gives Set.univ word text := by
    intro word text gives rest follows
    obtain ⟨-, spelled, isWord, same⟩ := ByteString.reads_rule.sound (gives rest follows)
    rw [List.append_cancel_right same] at isWord
    have ruleMatch : rule.run (word ++ rest) = .matched (some text) rest :=
      reads_rule.complete (Set.mem_univ (some text)) isWord follows
    exact run_accepting_eq_matched_iff.mpr ⟨some text, ruleMatch, rfl⟩
  obtain ⟨anyWord, anyText, anyGives⟩ := ByteString.completable_rule.inhabited
  refine ⟨⟨anyWord, anyText, textGives anyGives⟩, fun {input needed} waits => ?_⟩
  have ruleWaits := run_accepting_eq_incomplete_iff.mp waits
  rcases run_orElse_eq_incomplete_iff.mp ruleWaits with nilWaits | ⟨-, textWaits⟩
  · rcases run_bind_eq_failed_iff.mp nilWaits with wordWaits | ⟨_, _, _, pureWaits⟩
    · obtain ⟨-, missing, nonempty, same⟩ :=
        run_word_eq_incomplete_iff.mp (run_expect_eq_failed_iff.mp wordWaits)
      rcases eq_nil_or_mem_beginnings nonempty same with isEmpty | isBeginning
      · rw [isEmpty]
        exact Or.inr ⟨anyWord, anyText, textGives anyGives⟩
      · exact Or.inl (Or.inl isBeginning)
    · cases pureWaits
  · rcases run_orElse_eq_incomplete_iff.mp textWaits with someWaits | ⟨-, rejectWaits⟩
    · have stringWaits := run_map_eq_failed_iff.mp someWaits
      rcases ByteString.completable_rule.completes stringWaits with isDead | ⟨later, text, gives⟩
      · exact Or.inl (Or.inr isDead)
      · exact Or.inr ⟨later, text, textGives gives⟩
    · cases rejectWaits

end NullableString

/-! ## Flags -/

section Flags

variable {dead : Set Bytes}

theorem Atom.completable_rule :
    Atom.rule.Completable (Bytes.startingOutside Byte.isAtomChar) dead :=
  completable_bytesIn 65 rfl

theorem Flag.completable_rule :
    Flag.rule.Completable (Bytes.startingOutside Byte.isAtomChar) dead := by
  have extensionCompletable :
      Flag.extensionRule.Completable (Bytes.startingOutside Byte.isAtomChar) dead := by
    have nameCompletable : Atom.rule.Completable (Bytes.startingOutside Byte.isAtomChar) ∅ :=
      Atom.completable_rule
    exact nameCompletable.announced (Byte.backslash :: ·) (by simp)
  have formsCompletable : ∀ form ∈ Flag.forms,
      form.Completable (Bytes.startingOutside Byte.isAtomChar) dead := by
    simp only [Flag.forms, List.forall_mem_cons]
    exact ⟨extensionCompletable, Atom.completable_rule, by simp⟩
  exact completable_firstOf (by simp [Flag.forms]) formsCompletable Flag.stable_forms

theorem Flag.completable_listRule (absorbing : LeftAbsorbing dead) :
    Flag.listRule.Completable Set.univ dead :=
  completable_parenthesized Flag.completable_rule Flag.stable_rule absorbing fun rest =>
    Bytes.cons_mem_startingOutside (by decide) rest

end Flags

/-! ## Fetched messages -/

theorem Address.completable_rule : Address.rule.Completable Set.univ deadEnds := by
  refine Completable.after_expect ?_ (leftAbsorbing_deadEnds (ascii "("))
  refine NullableString.completable_rule.spaced_field NullableString.stable_rule
    leftAbsorbing_deadEnds fun name => ?_
  refine NullableString.completable_rule.spaced_field NullableString.stable_rule
    leftAbsorbing_deadEnds fun sourceRoute => ?_
  refine NullableString.completable_rule.spaced_field NullableString.stable_rule
    leftAbsorbing_deadEnds fun mailbox => ?_
  exact NullableString.completable_rule.before_expect NullableString.stable_rule
    (fun host => completable_pure (Address.mk name sourceRoute mailbox host))
    (fun _ => Set.mem_univ _) leftAbsorbing_deadEnds subset_rfl

namespace AddressList

theorem completable_groupRule : groupRule.Completable Set.univ deadEnds := by
  have closeFollows : ∀ rest, ascii ")" ++ rest ∈
      {rest | rest ∈ Set.univ ∧ Address.rule.run rest = .failed .malformed} :=
    fun rest => ⟨Set.mem_univ _, Address.run_rule_close rest⟩
  have addressesCompletable := completable_many Address.completable_rule Address.stable_rule
    Address.consuming_rule leftAbsorbing_deadEnds
  refine Completable.after_expect ?_ (leftAbsorbing_deadEnds (ascii "("))
  exact addressesCompletable.before_expect (stable_many Address.stable_rule)
    (fun addresses => completable_pure addresses) closeFollows leftAbsorbing_deadEnds subset_rfl

theorem completable_rule : rule.Completable Set.univ deadEnds := by
  have formsCompletable : ∀ form ∈ forms, form.Completable Set.univ deadEnds := by
    simp only [forms, List.forall_mem_cons]
    exact ⟨completable_keyword _ _, completable_groupRule.map some, by simp⟩
  exact completable_firstOf (by simp [forms]) formsCompletable stable_forms

end AddressList

theorem Envelope.completable_fields : Envelope.fields.Completable Set.univ deadEnds := by
  have absorbing := leftAbsorbing_deadEnds
  have stringCompletable := NullableString.completable_rule
  have stringStable := NullableString.stable_rule
  have listCompletable := AddressList.completable_rule
  have listStable := AddressList.stable_rule
  refine stringCompletable.spaced_field stringStable absorbing fun date => ?_
  refine stringCompletable.spaced_field stringStable absorbing fun subject => ?_
  refine listCompletable.spaced_field listStable absorbing fun sentFrom => ?_
  refine listCompletable.spaced_field listStable absorbing fun sender => ?_
  refine listCompletable.spaced_field listStable absorbing fun replyTo => ?_
  refine listCompletable.spaced_field listStable absorbing fun sentTo => ?_
  refine listCompletable.spaced_field listStable absorbing fun carbonCopy => ?_
  refine listCompletable.spaced_field listStable absorbing fun blindCopy => ?_
  refine stringCompletable.spaced_field stringStable absorbing fun inReplyTo => ?_
  exact stringCompletable.before_expect stringStable
    (fun messageId => completable_pure (Envelope.mk date subject sentFrom sender replyTo sentTo
      carbonCopy blindCopy inReplyTo messageId))
    (fun _ => Set.mem_univ _) absorbing subset_rfl

namespace Attribute

theorem completable_internalDateRule : internalDateRule.Completable Set.univ deadEnds := by
  refine NullableString.completable_present.announced internalDate fun rest isDead => ?_
  rcases isDead with isBeginning | isDead
  · exact DeadEnd.date [] isBeginning
  · exact leftAbsorbing_deadEnds (ascii "INTERNALDATE ") rest isDead

theorem completable_modSeqRule : modSeqRule.Completable Set.univ deadEnds := by
  have closedCompletable : (do
      let value ← Number.wideRule
      expect (ascii ")")
      pure (modSeq value)).Completable Set.univ (Number.overflows UInt64.size) :=
    Number.completable_wideRule.before_expect Number.stable_wideRule
      (fun value => completable_pure (modSeq value)) (Bytes.cons_mem_startingOutside (by decide))
      leftAbsorbing_empty (Set.empty_subset _)
  refine closedCompletable.after_expect fun run isTooLarge => ?_
  exact DeadEnd.wide [] isTooLarge.1 isTooLarge.2

theorem completable_rule : rule.Completable (Bytes.startingOutside Byte.isDigit) deadEnds := by
  have anywhere := Set.subset_univ (Bytes.startingOutside Byte.isDigit)
  have absorbing := leftAbsorbing_deadEnds
  have formsCompletable : ∀ form ∈ forms,
      form.Completable (Bytes.startingOutside Byte.isDigit) deadEnds := by
    simp only [forms, List.forall_mem_cons]
    refine ⟨?_, completable_internalDateRule.follow_mono anywhere, ?_,
      completable_modSeqRule.follow_mono anywhere, ?_, ?_, ?_, by simp⟩
    · exact (Envelope.completable_fields.announced envelope (absorbing _)).follow_mono anywhere
    · have flagsCompletable := (Flag.completable_listRule absorbing).announced flags
        (absorbing (ascii "FLAGS "))
      exact flagsCompletable.follow_mono anywhere
    · exact (NullableString.completable_rule.announced rfc822 (absorbing _)).follow_mono anywhere
    · exact Number.completable_rule.announced rfc822Size
        (Number.append_mem_deadEnds (ascii "RFC822.SIZE") (Or.inl rfl) rfl)
    · exact Number.completable_rule.announced uid
        (Number.append_mem_deadEnds (ascii "UID") (Or.inl rfl) rfl)
  exact completable_firstOf (by simp [forms]) formsCompletable stable_forms

theorem completable_listRule : listRule.Completable Set.univ deadEnds := by
  have attributesCompletable := completable_spaced completable_rule stable_rule
    leftAbsorbing_deadEnds
  have closeFollows : ∀ rest, ascii ")" ++ rest ∈
      Bytes.startingOutside Byte.isDigit ∩ Bytes.startingOutside (· == Byte.space) := fun rest =>
    ⟨Bytes.cons_mem_startingOutside (by decide) rest,
      Bytes.cons_mem_startingOutside (by decide) rest⟩
  refine Completable.after_expect ?_ (leftAbsorbing_deadEnds (ascii "("))
  exact attributesCompletable.before_expect (stable_spaced stable_rule)
    (fun attributes => completable_pure attributes) closeFollows leftAbsorbing_deadEnds subset_rfl

end Attribute

/-! ## Conditions -/

theorem Status.completable_rule {dead : Set Bytes} : Status.rule.Completable Set.univ dead := by
  have formsCompletable : ∀ form ∈ Status.forms, form.Completable Set.univ dead := by
    intro form member
    obtain ⟨status, -, shape⟩ := List.mem_map.mp member
    subst shape
    exact (completable_wordAnyCase status.word).map fun _ => status
  exact completable_firstOf (by simp [Status.forms, Status.all]) formsCompletable
    Status.stable_forms

namespace Remark

theorem run_rule_ne_malformed (input : Bytes) : rule.run input ≠ .failed .malformed := by
  intro fails
  rcases run_bind_eq_failed_iff.mp fails with codeFails | ⟨_, left, _, textFails⟩
  · have absent := (run_orElse_eq_malformed_iff.mp codeFails).2
    cases absent
  · rcases run_bind_eq_failed_iff.mp textFails with textFails | ⟨_, _, _, pureFails⟩
    · exact run_bytesBefore_ne_malformed textFails
    · cases pureFails

theorem rest_mem_lineEnds {input rest : Bytes} {remark : Remark}
    (ruleMatch : rule.run input = .matched remark rest) : rest ∈ lineEnds := by
  obtain ⟨_, left, -, equality⟩ := run_bind_eq_matched_iff.mp ruleMatch
  obtain ⟨_, _, textMatch, equality⟩ := run_bind_eq_matched_iff.mp equality
  cases equality
  exact (run_bytesBefore_eq_matched_iff.mp textMatch).2.1

theorem exists_gives {line : Bytes} (onLine : ∀ byte ∈ line, (!Byte.isLineEnd byte) = true) :
    ∃ remark, rule.Gives lineEnds line remark := by
  have crlfEnds : Bytes.crlf ∈ lineEnds := Bytes.cons_mem_startingOutside (by decide) _
  have spares := withinLine_rule ResponseCode.not_isLineEnd_of_isCodeByte (by simp) subset_rfl
    subset_rfl line onLine Bytes.crlf crlfEnds
  cases answer : rule.run (line ++ Bytes.crlf) with
  | matched remark rest =>
    rw [answer] at spares
    rcases spares with ⟨kept, keptOnLine, shape⟩
    subst shape
    have nothingKept : kept = [] := by
      obtain ⟨next, others, startsWith, isEnd⟩ := rest_mem_lineEnds answer
      rcases kept with _ | ⟨first, kept⟩
      · rfl
      · obtain ⟨rfl, -⟩ := List.cons_eq_cons.mp startsWith
        have firstOnLine := keptOnLine first List.mem_cons_self
        rw [isEnd] at firstOnLine
        cases firstOnLine
    subst nothingKept
    obtain ⟨-, word, isWord, same⟩ := reads_rule.sound answer
    rw [List.nil_append] at same
    rw [List.append_cancel_right same] at isWord
    exact ⟨remark, fun rest ends => reads_rule.complete (Set.mem_univ remark) isWord ends⟩
  | failed failure =>
    cases failure with
    | malformed => exact absurd answer (run_rule_ne_malformed _)
    | incomplete needed =>
      rw [answer] at spares
      exact spares.elim

theorem completable_rule {dead : Set Bytes} : rule.Completable lineEnds dead where
  inhabited := by
    obtain ⟨remark, gives⟩ := exists_gives (List.forall_mem_nil _)
    exact ⟨[], remark, gives⟩
  completes := by
    intro input needed waits
    rcases Bytes.all_member_or_split (fun byte => !Byte.isLineEnd byte) input with
      onLine | ⟨line, rest, rfl, onLine, ends⟩
    · obtain ⟨remark, gives⟩ := exists_gives onLine
      rw [← List.append_nil input] at gives
      exact Or.inr ⟨[], remark, gives⟩
    · have within : rule.WithinLine (fun byte => !Byte.isLineEnd byte) lineEnds :=
        withinLine_rule ResponseCode.not_isLineEnd_of_isCodeByte (by simp) subset_rfl subset_rfl
      exact absurd waits (within.not_incomplete onLine ends needed)

end Remark

theorem Condition.completable_rule {dead : Set Bytes} (absorbing : LeftAbsorbing dead) :
    Condition.rule.Completable Remark.lineEnds dead :=
  Status.completable_rule.spaced_field Status.stable_rule absorbing fun status =>
    Remark.completable_rule.map (Condition.mk status)

/-! ## Responses -/

/-- The dead ends behind the mark of untagged responses, where a number may come first. -/
def untaggedDeadEnds : Set Bytes :=
  Number.overflows UInt32.size ∪ deadEnds

private theorem completable_counted {α : Type} {literal others : Bytes}
    (startsWithSpace : literal = Byte.space :: others) (wrap : UInt32 → α) :
    (do
      let count ← Number.rule
      expect literal
      pure (wrap count)).Completable Set.univ untaggedDeadEnds := by
  have spaceEnds : ∀ rest, literal ++ rest ∈ Bytes.startingOutside Byte.isDigit := by
    intro rest
    rw [startsWithSpace]
    exact Bytes.cons_mem_startingOutside (by decide) (others ++ rest)
  have numberCompletable := Number.completable_rule.dead_mono
    (Set.subset_union_left : _ ⊆ untaggedDeadEnds)
  exact numberCompletable.before_expect Number.stable_rule
    (fun count => completable_pure (wrap count)) spaceEnds leftAbsorbing_empty (Set.empty_subset _)

theorem MailboxDatum.completable_rule :
    MailboxDatum.rule.Completable Set.univ untaggedDeadEnds := by
  have flagsCompletable : MailboxDatum.flagsRule.Completable Set.univ untaggedDeadEnds :=
    (Flag.completable_listRule leftAbsorbing_empty).announced MailboxDatum.flags (by simp)
  have formsCompletable : ∀ form ∈ MailboxDatum.forms,
      form.Completable Set.univ untaggedDeadEnds := by
    simp only [MailboxDatum.forms, List.forall_mem_cons]
    exact ⟨flagsCompletable, completable_counted rfl MailboxDatum.exists,
      completable_counted rfl MailboxDatum.recent, by simp⟩
  exact completable_firstOf (by simp [MailboxDatum.forms]) formsCompletable
    MailboxDatum.stable_forms

namespace Response

theorem completable_fetchRule : fetchRule.Completable Set.univ untaggedDeadEnds := by
  have numberCompletable := Number.completable_rule.dead_mono
    (Set.subset_union_left : _ ⊆ untaggedDeadEnds)
  have spaceEnds : ∀ rest, ascii " FETCH " ++ rest ∈ Bytes.startingOutside Byte.isDigit :=
    fun rest => Bytes.cons_mem_startingOutside (by decide) (ascii "FETCH " ++ rest)
  exact numberCompletable.before_expect Number.stable_rule
    (fun sequenceNumber => Attribute.completable_listRule.map (fetch sequenceNumber)) spaceEnds
    leftAbsorbing_deadEnds Set.subset_union_right

theorem completable_capabilitiesRule {dead : Set Bytes} :
    capabilitiesRule.Completable lineBreaks dead := by
  have nameCompletable : capabilityNameRule.Completable (Bytes.startingOutside Byte.isAtomChar) ∅ :=
    Completable.after_expect Atom.completable_rule (leftAbsorbing_empty [Byte.space])
  have namesCompletable := completable_many nameCompletable stable_capabilityNameRule
    consuming_capabilityNameRule leftAbsorbing_empty
  have listCompletable := namesCompletable.follow_mono fun input isBreak =>
    ⟨lineBreaks_subset (by decide) isBreak, run_capabilityNameRule_of_mem_lineBreaks isBreak⟩
  exact listCompletable.announced capabilities (by simp)

theorem completable_untaggedForms :
    (firstOf untaggedForms).Completable lineBreaks untaggedDeadEnds := by
  have anywhere := Set.subset_univ lineBreaks
  have dataCompletable : dataRule.Completable Remark.lineEnds ∅ :=
    (Condition.completable_rule leftAbsorbing_empty).map data
  have formsCompletable : ∀ form ∈ untaggedForms,
      form.Completable lineBreaks untaggedDeadEnds := by
    simp only [untaggedForms, List.forall_mem_cons]
    refine ⟨?_, (MailboxDatum.completable_rule.map mailbox).follow_mono anywhere,
      (completable_counted rfl expunge).follow_mono anywhere,
      completable_fetchRule.follow_mono anywhere, completable_capabilitiesRule, by simp⟩
    exact (dataCompletable.dead_mono (Set.empty_subset _)).follow_mono
      (lineBreaks_subset (by decide))
  exact completable_firstOf (by simp [untaggedForms]) formsCompletable stable_untaggedForms

theorem completable_untaggedRule : untaggedRule.Completable Set.univ deadEnds := by
  have closedCompletable : (do
      let response ← firstOf untaggedForms
      expect Bytes.crlf
      pure response).Completable Set.univ untaggedDeadEnds :=
    completable_untaggedForms.before_expect (stable_firstOf stable_untaggedForms)
      (fun response => completable_pure response) (List.prefix_append Bytes.crlf)
      leftAbsorbing_empty (Set.empty_subset _)
  refine closedCompletable.after_expect fun rest isDead => ?_
  rcases isDead with isTooLarge | isDead
  · exact Number.append_mem_deadEnds (ascii "*") (Or.inl rfl) rfl rest isTooLarge
  · exact leftAbsorbing_deadEnds untaggedMark rest isDead

theorem completable_taggedRule : taggedRule.Completable Set.univ deadEnds := by
  have absorbing := leftAbsorbing_deadEnds
  have tagCompletable : tagRule.Completable (Bytes.startingOutside Byte.isTagChar) deadEnds :=
    completable_bytesIn 65 rfl
  have spaceEnds : ∀ rest, [Byte.space] ++ rest ∈ Bytes.startingOutside Byte.isTagChar :=
    Bytes.cons_mem_startingOutside (by decide)
  refine tagCompletable.before_expect (stable_bytesIn _) (fun tag => ?_) spaceEnds absorbing
    subset_rfl
  exact (Condition.completable_rule absorbing).before_expect Condition.stable_rule
    (fun condition => completable_pure (done tag condition)) Remark.crlf_append_mem_lineEnds
    absorbing subset_rfl

/-- Outside the dead ends, a response that has begun can be completed. -/
theorem completable_rule : rule.Completable Set.univ deadEnds := by
  have formsCompletable : ∀ form ∈ forms, form.Completable Set.univ deadEnds := by
    simp only [forms, List.forall_mem_cons]
    exact ⟨completable_untaggedRule, completable_taggedRule, by simp⟩
  exact completable_firstOf (by simp [forms]) formsCompletable stable_forms

end Response

end Imap
