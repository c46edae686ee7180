import Mathlib.Data.Set.Lattice
import Imap.Proofs.Rule.Stability
import Imap.Rule.Consuming

/-!
# Rules that wait only for what can still come

A rule that answers incomplete says that more bytes may help. Here is what it takes for that to be
true: every input on which the rule waits can be continued to one that it matches, save for the
inputs of a set of dead ends. A continuation must work wherever an input of a given set follows,
since a rule for a run of bytes ends only before a byte outside its class.

In a sequence the wait can be in any part. The parts before it have matched and are stable, so they
match the continued input as well; the parts after it need a word of their own. In a choice the wait
is in the first alternative that is not malformed, and stability keeps the earlier ones malformed.
-/

namespace Imap.Rule

variable {α β : Type}

/-- The rule reads the value from the word, wherever an input of `follow` comes next. -/
def Gives (rule : Rule α) (follow : Set Bytes) (word : Bytes) (value : α) : Prop :=
  ∀ rest ∈ follow, rule.run (word ++ rest) = .matched value rest

/-- Bytes in front of a member change nothing, so membership is a matter of how an input ends. -/
def LeftAbsorbing (inputs : Set Bytes) : Prop :=
  ∀ start, ∀ rest ∈ inputs, start ++ rest ∈ inputs

/-- There is a word for the rule, and every wait outside the dead ends can be ended by a match. -/
structure Completable (rule : Rule α) (follow dead : Set Bytes) : Prop where
  inhabited : ∃ word value, rule.Gives follow word value
  completes : ∀ {input : Bytes} {needed : Option Nat},
    rule.run input = .failed (.incomplete needed) →
      input ∈ dead ∨ ∃ later value, rule.Gives follow (input ++ later) value

/-! ## Words -/

section Words

variable {follow firstFollow : Set Bytes} {word nextWord : Bytes} {value : α} {nextValue : β}

theorem Gives.follow_mono {rule : Rule α} (gives : rule.Gives follow word value)
    {narrower : Set Bytes} (contained : narrower ⊆ follow) : rule.Gives narrower word value :=
  fun rest follows => gives rest (contained follows)

theorem Gives.bind {first : Rule α} {next : α → Rule β}
    (firstGives : first.Gives firstFollow word value)
    (nextGives : (next value).Gives follow nextWord nextValue)
    (delimited : ∀ rest ∈ follow, nextWord ++ rest ∈ firstFollow) :
    (first >>= next).Gives follow (word ++ nextWord) nextValue := by
  intro rest follows
  have firstMatch := firstGives (nextWord ++ rest) (delimited rest follows)
  rw [List.append_assoc, run_bind_matched firstMatch]
  exact nextGives rest follows

/-- A part that has matched matches the continued input too, and the next part goes on there. -/
theorem Gives.bind_of_matched {first : Rule α} {next : α → Rule β} (stable : first.Stable)
    {input left later : Bytes} (firstMatch : first.run input = .matched value left)
    (nextGives : (next value).Gives follow (left ++ later) nextValue) :
    (first >>= next).Gives follow (input ++ later) nextValue := by
  intro rest follows
  have continuedMatch := stable.matched_append firstMatch (later ++ rest)
  rw [List.append_assoc, run_bind_matched continuedMatch, ← List.append_assoc]
  exact nextGives rest follows

theorem Gives.after_expect {next : Unit → Rule β}
    (nextGives : (next ()).Gives follow nextWord nextValue) (literal : Bytes) :
    (expect literal >>= next).Gives follow (literal ++ nextWord) nextValue := by
  intro rest follows
  rw [List.append_assoc, run_bind_expect_append]
  exact nextGives rest follows

theorem gives_pure (value : α) : (pure value : Rule α).Gives follow [] value :=
  fun _ _ => rfl

theorem Gives.orElse_left {first : Rule α} (second : Rule α)
    (firstGives : first.Gives follow word value) :
    (first.orElse second).Gives follow word value :=
  fun rest follows => run_orElse_eq_matched_iff.mpr (Or.inl (firstGives rest follows))

end Words

/-! ## Sequences -/

section Sequences

variable {follow firstFollow dead laterDead : Set Bytes}

theorem Completable.follow_mono {rule : Rule α} (completable : rule.Completable follow dead)
    {narrower : Set Bytes} (contained : narrower ⊆ follow) : rule.Completable narrower dead where
  inhabited := by
    obtain ⟨word, value, gives⟩ := completable.inhabited
    exact ⟨word, value, gives.follow_mono contained⟩
  completes := by
    intro input needed waits
    rcases completable.completes waits with isDead | ⟨later, value, gives⟩
    · exact Or.inl isDead
    · exact Or.inr ⟨later, value, gives.follow_mono contained⟩

theorem Completable.dead_mono {rule : Rule α} (completable : rule.Completable follow dead)
    {wider : Set Bytes} (contained : dead ⊆ wider) : rule.Completable follow wider where
  inhabited := completable.inhabited
  completes waits := (completable.completes waits).imp_left fun isDead => contained isDead

theorem completable_pure (value : α) : (pure value : Rule α).Completable follow dead where
  inhabited := ⟨[], value, gives_pure value⟩
  completes := nofun

/-- The general sequence. The second part must have a word that may follow the first. -/
theorem Completable.bind_delimited {first : Rule α} {next : α → Rule β}
    (firstCompletable : first.Completable firstFollow dead) (stable : first.Stable)
    (nextCompletable : ∀ value, (next value).Completable follow laterDead)
    (delimited : ∀ value, ∃ word found, (next value).Gives follow word found ∧
      ∀ rest ∈ follow, word ++ rest ∈ firstFollow)
    (absorbing : LeftAbsorbing laterDead) (contained : laterDead ⊆ dead) :
    (first >>= next).Completable follow dead where
  inhabited := by
    obtain ⟨word, value, firstGives⟩ := firstCompletable.inhabited
    obtain ⟨nextWord, found, nextGives, nextFollows⟩ := delimited value
    exact ⟨word ++ nextWord, found, firstGives.bind nextGives nextFollows⟩
  completes := by
    intro input needed waits
    rcases run_bind_eq_failed_iff.mp waits with firstWaits | ⟨value, left, firstMatch, nextWaits⟩
    · rcases firstCompletable.completes firstWaits with isDead | ⟨later, value, firstGives⟩
      · exact Or.inl isDead
      · obtain ⟨nextWord, found, nextGives, nextFollows⟩ := delimited value
        have gives := firstGives.bind nextGives nextFollows
        rw [List.append_assoc] at gives
        exact Or.inr ⟨later ++ nextWord, found, gives⟩
    · rcases (nextCompletable value).completes nextWaits with isDead | ⟨later, found, nextGives⟩
      · obtain ⟨start, shape⟩ := first.rest_suffix firstMatch
        subst shape
        exact Or.inl (contained (absorbing start left isDead))
      · exact Or.inr ⟨later, found, nextGives.bind_of_matched stable firstMatch⟩

theorem completable_wordAnyCase (literal : Bytes) :
    (wordAnyCase literal).Completable Set.univ dead := by
  have spellingGives : ∀ spelling : Bytes, spelling.lower = literal.lower →
      (wordAnyCase literal).Gives Set.univ spelling spelling :=
    fun spelling sameLower rest _ => run_wordAnyCase_eq_matched_iff.mpr ⟨sameLower, rfl⟩
  refine ⟨⟨literal, literal, spellingGives literal rfl⟩, fun {input needed} waits => ?_⟩
  obtain ⟨-, -, isBeginning⟩ := run_wordAnyCase_eq_incomplete_iff.mp waits
  rcases isBeginning with ⟨missing, same⟩
  refine Or.inr ⟨literal.drop input.length, _, spellingGives _ ?_⟩
  have dropped : Bytes.lower (literal.drop input.length) = missing := by
    have dropLower : Bytes.lower (literal.drop input.length) = literal.lower.drop input.length :=
      List.map_drop
    rw [dropLower, ← same, ← Bytes.length_lower input, List.drop_left]
  have lowerAppend : Bytes.lower (input ++ literal.drop input.length) =
      input.lower ++ Bytes.lower (literal.drop input.length) := List.map_append
  rw [lowerAppend, dropped, same]

theorem Completable.after_expect {next : Unit → Rule β} {literal : Bytes}
    (nextCompletable : (next ()).Completable follow laterDead)
    (passes : ∀ rest ∈ laterDead, literal ++ rest ∈ dead) :
    (expect literal >>= next).Completable follow dead where
  inhabited := by
    obtain ⟨word, value, gives⟩ := nextCompletable.inhabited
    exact ⟨literal ++ word, value, gives.after_expect literal⟩
  completes := by
    intro input needed waits
    rcases run_bind_eq_failed_iff.mp waits with wordWaits | ⟨_, left, wordMatch, nextWaits⟩
    · obtain ⟨-, missing, -, rfl⟩ :=
        run_word_eq_incomplete_iff.mp (run_expect_eq_failed_iff.mp wordWaits)
      obtain ⟨word, value, gives⟩ := nextCompletable.inhabited
      have wholeGives := gives.after_expect (input ++ missing)
      rw [List.append_assoc] at wholeGives
      exact Or.inr ⟨missing ++ word, value, wholeGives⟩
    · obtain rfl := run_expect_eq_matched_iff.mp wordMatch
      rcases nextCompletable.completes nextWaits with isDead | ⟨later, value, gives⟩
      · exact Or.inl (passes left isDead)
      · have wholeGives := gives.after_expect literal
        rw [← List.append_assoc] at wholeGives
        exact Or.inr ⟨later, value, wholeGives⟩

theorem Completable.before_expect {first : Rule α} {next : α → Unit → Rule β} {literal : Bytes}
    (firstCompletable : first.Completable firstFollow dead) (stable : first.Stable)
    (nextCompletable : ∀ value, (next value ()).Completable follow laterDead)
    (delimited : ∀ rest, literal ++ rest ∈ firstFollow)
    (absorbing : LeftAbsorbing laterDead) (contained : laterDead ⊆ dead) :
    (first >>= fun value => expect literal >>= next value).Completable follow dead := by
  have laterCompletable : ∀ value, (expect literal >>= next value).Completable follow laterDead :=
    fun value => (nextCompletable value).after_expect (absorbing literal)
  refine firstCompletable.bind_delimited stable laterCompletable (fun value => ?_) absorbing
    contained
  obtain ⟨word, found, gives⟩ := (nextCompletable value).inhabited
  refine ⟨literal ++ word, found, gives.after_expect literal, fun rest _ => ?_⟩
  rw [List.append_assoc]
  exact delimited (word ++ rest)

theorem Completable.spaced_field {first : Rule α} {next : α → Rule β}
    (firstCompletable : first.Completable Set.univ dead) (stable : first.Stable)
    (absorbing : LeftAbsorbing dead)
    (nextCompletable : ∀ value, (next value).Completable follow dead) :
    (do
      let value ← first
      space
      next value).Completable follow dead :=
  firstCompletable.before_expect stable nextCompletable (fun _ => Set.mem_univ _) absorbing
    subset_rfl

theorem Completable.map {rule : Rule α} (completable : rule.Completable follow dead)
    (change : α → β) : (change <$> rule).Completable follow dead := by
  have changeGives : ∀ {word : Bytes} {value : α}, rule.Gives follow word value →
      (change <$> rule).Gives follow word (change value) := by
    intro word value gives rest follows
    rw [run_map, gives rest follows]
    rfl
  refine ⟨?_, fun waits => ?_⟩
  · obtain ⟨word, value, gives⟩ := completable.inhabited
    exact ⟨word, change value, changeGives gives⟩
  · have ruleWaits := run_map_eq_failed_iff.mp waits
    rcases completable.completes ruleWaits with isDead | ⟨later, value, gives⟩
    · exact Or.inl isDead
    · exact Or.inr ⟨later, change value, changeGives gives⟩

theorem Completable.announced {rule : Rule α} (completable : rule.Completable follow laterDead)
    (wrap : α → β) {literal : Bytes} (passes : ∀ rest ∈ laterDead, literal ++ rest ∈ dead) :
    (do
      expect literal
      let value ← rule
      pure (wrap value)).Completable follow dead :=
  Completable.after_expect (completable.map wrap) passes

theorem completable_keyword (literal : Bytes) (value : α) :
    (keyword literal value).Completable Set.univ dead := by
  have valueCompletable : (pure value : Rule α).Completable Set.univ ∅ := completable_pure value
  exact valueCompletable.after_expect (by simp)

end Sequences

/-! ## Choices -/

section Choices

variable {follow dead : Set Bytes}

theorem Completable.orElse {first second : Rule α}
    (firstCompletable : first.Completable follow dead)
    (stable : first.Stable) (secondCompletes : ∀ {input : Bytes} {needed : Option Nat},
      second.run input = .failed (.incomplete needed) →
        input ∈ dead ∨ ∃ later value, second.Gives follow (input ++ later) value) :
    (first.orElse second).Completable follow dead where
  inhabited := by
    obtain ⟨word, value, gives⟩ := firstCompletable.inhabited
    exact ⟨word, value, gives.orElse_left second⟩
  completes := by
    intro input needed waits
    rcases run_orElse_eq_incomplete_iff.mp waits with firstWaits | ⟨firstFails, secondWaits⟩
    · rcases firstCompletable.completes firstWaits with isDead | ⟨later, value, gives⟩
      · exact Or.inl isDead
      · exact Or.inr ⟨later, value, gives.orElse_left second⟩
    · rcases secondCompletes secondWaits with isDead | ⟨later, value, gives⟩
      · exact Or.inl isDead
      · refine Or.inr ⟨later, value, fun rest follows => ?_⟩
        have stillFails := stable.malformed_append firstFails (later ++ rest)
        rw [← List.append_assoc] at stillFails
        exact run_orElse_eq_matched_iff.mpr (Or.inr ⟨stillFails, gives rest follows⟩)

theorem completable_firstOf {rules : List (Rule α)} (nonempty : rules ≠ [])
    (allCompletable : ∀ rule ∈ rules, rule.Completable follow dead)
    (allStable : ∀ rule ∈ rules, rule.Stable) : (firstOf rules).Completable follow dead := by
  induction rules with
  | nil => exact absurd rfl nonempty
  | cons rule others inductionHypothesis =>
    obtain ⟨headCompletable, othersCompletable⟩ := List.forall_mem_cons.mp allCompletable
    obtain ⟨headStable, othersStable⟩ := List.forall_mem_cons.mp allStable
    refine headCompletable.orElse headStable fun {input needed} waits => ?_
    by_cases isLast : others = []
    · subst isLast
      cases waits
    · exact (inductionHypothesis isLast othersCompletable othersStable).completes waits

end Choices

/-! ## Runs and lists -/

section Lists

variable {follow itemFollow dead : Set Bytes} {item : Rule α}

theorem completable_bytesIn {member : UInt8 → Bool} (byte : UInt8) (isMember : member byte = true) :
    (bytesIn member).Completable (Bytes.startingOutside member) dead := by
  have runGives : ∀ run : Bytes, run ≠ [] → (∀ other ∈ run, member other = true) →
      (bytesIn member).Gives (Bytes.startingOutside member) run run :=
    fun run nonempty allMember rest follows =>
      run_bytesIn_eq_matched_iff.mpr ⟨nonempty, allMember, follows, rfl⟩
  refine ⟨⟨[byte], [byte], runGives [byte] (by simp) (by simpa using isMember)⟩, ?_⟩
  intro input needed waits
  obtain ⟨-, allMember⟩ := run_bytesIn_eq_incomplete_iff.mp waits
  refine Or.inr ⟨[byte], input ++ [byte], runGives _ (by simp) fun other isIn => ?_⟩
  rcases List.mem_append.mp isIn with isEarlier | isLast
  · exact allMember other isEarlier
  · rw [List.mem_singleton.mp isLast]
    exact isMember

/-- What follows a list of items ends the last item and starts no other. -/
theorem completable_items (completable : item.Completable itemFollow dead) (stable : item.Stable)
    (consumes : item.Consuming) (absorbing : LeftAbsorbing dead) :
    (items item).Completable {rest | rest ∈ itemFollow ∧ item.run rest = .failed .malformed}
      dead where
  inhabited := ⟨[], [], fun rest follows => run_items_of_malformed follows.2⟩
  completes := by
    intro input needed waits
    induction input using items_induction item with
    | malformed input answer =>
      rw [run_items_of_malformed answer] at waits
      cases waits
    | incomplete input itemNeeded answer =>
      rcases completable.completes answer with isDead | ⟨later, value, gives⟩
      · exact Or.inl isDead
      · refine Or.inr ⟨later, [value], fun rest follows => ?_⟩
        have itemMatch := gives rest follows.1
        rw [run_items_of_matched itemMatch (consumes itemMatch), run_items_of_malformed follows.2]
        rfl
    | standstill input value middle answer notShorter => exact absurd (consumes answer) notShorter
    | matched input value middle answer shorter inductionHypothesis =>
      rw [run_items_of_matched answer shorter, Outcome.map_eq_failed_iff] at waits
      obtain ⟨start, shape⟩ := item.rest_suffix answer
      subst shape
      rcases inductionHypothesis waits with isDead | ⟨later, values, gives⟩
      · exact Or.inl (absorbing start middle isDead)
      · refine Or.inr ⟨later, value :: values, fun rest follows => ?_⟩
        have itemMatch := stable.matched_append answer (later ++ rest)
        rw [List.append_assoc (start ++ middle), run_items_of_matched itemMatch
          (consumes itemMatch), ← List.append_assoc, gives rest follows]
        rfl

theorem completable_spacedItems (completable : item.Completable itemFollow dead)
    (stable : item.Stable) (absorbing : LeftAbsorbing dead) :
    (spacedItems item).Completable (itemFollow ∩ Bytes.startingOutside (· == Byte.space))
      dead where
  inhabited := ⟨[], [], fun rest follows => run_spacedItems_of_outside follows.2⟩
  completes := by
    intro input needed waits
    induction input using spacedItems_induction item with
    | empty => exact Or.inr ⟨[], [], fun rest follows => run_spacedItems_of_outside follows.2⟩
    | outside input inputOutside =>
      rw [run_spacedItems_of_outside inputOutside] at waits
      cases waits
    | malformed afterSpace answer =>
      rw [run_spacedItems_of_malformed answer] at waits
      cases waits
    | incomplete afterSpace itemNeeded answer =>
      rcases completable.completes answer with isDead | ⟨later, value, gives⟩
      · exact Or.inl (absorbing [Byte.space] afterSpace isDead)
      · refine Or.inr ⟨later, [value], fun rest follows => ?_⟩
        have itemMatch := gives rest follows.1
        rw [List.append_assoc] at itemMatch
        rw [List.append_assoc, List.cons_append, run_spacedItems_of_matched itemMatch,
          run_spacedItems_of_outside follows.2]
        rfl
    | matched afterSpace value middle answer inductionHypothesis =>
      rw [run_spacedItems_of_matched answer, Outcome.map_eq_failed_iff] at waits
      obtain ⟨start, shape⟩ := item.rest_suffix answer
      subst shape
      rcases inductionHypothesis waits with isDead | ⟨later, values, gives⟩
      · exact Or.inl (absorbing (Byte.space :: start) middle isDead)
      · refine Or.inr ⟨later, value :: values, fun rest follows => ?_⟩
        have itemMatch := stable.matched_append answer (later ++ rest)
        rw [List.append_assoc, List.cons_append, run_spacedItems_of_matched itemMatch,
          ← List.append_assoc, gives rest follows]
        rfl

private theorem completable_cons {others : Rule (List α)}
    (completable : item.Completable itemFollow dead) (stable : item.Stable)
    (othersCompletable : others.Completable follow dead) (mayEnd : others.Gives follow [] [])
    (contained : follow ⊆ itemFollow) (absorbing : LeftAbsorbing dead) :
    (do
      let first ← item
      let later ← others
      pure (first :: later)).Completable follow dead := by
  have laterCompletable : ∀ first, ((first :: ·) <$> others).Completable follow dead :=
    fun first => othersCompletable.map (first :: ·)
  refine completable.bind_delimited stable laterCompletable (fun first => ?_) absorbing subset_rfl
  refine ⟨[], [first], fun rest follows => ?_, fun rest follows => contained follows⟩
  exact run_bind_matched (mayEnd rest follows) _

theorem completable_many (completable : item.Completable itemFollow dead) (stable : item.Stable)
    (consumes : item.Consuming) (absorbing : LeftAbsorbing dead) :
    (many item).Completable {rest | rest ∈ itemFollow ∧ item.run rest = .failed .malformed}
      dead := by
  have othersCompletable := completable_items completable stable consumes absorbing
  exact completable_cons completable stable othersCompletable
    (fun rest follows => run_items_of_malformed follows.2) (fun rest follows => follows.1) absorbing

theorem completable_spaced (completable : item.Completable itemFollow dead) (stable : item.Stable)
    (absorbing : LeftAbsorbing dead) :
    (spaced item).Completable (itemFollow ∩ Bytes.startingOutside (· == Byte.space)) dead := by
  have othersCompletable := completable_spacedItems completable stable absorbing
  exact completable_cons completable stable othersCompletable
    (fun rest follows => run_spacedItems_of_outside follows.2) (fun rest follows => follows.1)
    absorbing

theorem completable_parenthesized (completable : item.Completable itemFollow dead)
    (stable : item.Stable) (absorbing : LeftAbsorbing dead)
    (closeFollows : ∀ rest, ascii ")" ++ rest ∈ itemFollow) :
    (parenthesized item).Completable Set.univ dead := by
  have closeOutside : ∀ rest, ascii ")" ++ rest ∈ Bytes.startingOutside (· == Byte.space) :=
    Bytes.cons_mem_startingOutside (by decide)
  have someCompletable := completable_spaced completable stable absorbing
  have valuesCompletable := someCompletable.orElse (stable_spaced stable)
    fun {input needed} (waits : (pure [] : Rule (List α)).run input = _) => nomatch waits
  have valuesStable := (stable_spaced stable).orElse (stable_pure [])
  have closedCompletable : (do
      let values ← orElse (spaced item) (pure [])
      expect (ascii ")")
      pure values).Completable Set.univ dead :=
    valuesCompletable.before_expect valuesStable (fun values => completable_pure values)
      (fun rest => ⟨closeFollows rest, closeOutside rest⟩) absorbing subset_rfl
  exact Completable.after_expect closedCompletable (absorbing (ascii "("))

end Lists

end Imap.Rule
