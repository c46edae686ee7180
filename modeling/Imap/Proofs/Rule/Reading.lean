import Mathlib.Data.Set.Lattice
import Imap.Proofs.Rule.Exclusion
import Imap.Proofs.Rule.Language
import Imap.Rule.Consuming

/-!
# Rules that read exactly a language

A rule reads a spelling when its matches are the spellings of its values, and every spelling is
matched whatever follows it. What follows matters only for rules that end on a byte they leave
unread: such a rule names the set of inputs that may follow. A rule that gives only some of the
values of its type names these as well, so that an ordered choice can be split by its values.

Spellings are languages. The rule for a sequence reads the product, and it is complete because the
words of the second part, with whatever follows them, may follow the first part.
-/

namespace Imap.Rule

variable {α β : Type}

/-- The rule gives exactly the values of `values`, each for exactly its spellings, wherever an input
of `follow` comes next. -/
structure Reads (rule : Rule α) (values : Set α) (spelling : α → Language UInt8)
    (follow : Set Bytes) : Prop where
  sound : ∀ {input rest : Bytes} {value : α}, rule.run input = .matched value rest →
    value ∈ values ∧ ∃ word ∈ spelling value, word ++ rest = input
  complete : ∀ {word rest : Bytes} {value : α}, value ∈ values → word ∈ spelling value →
    rest ∈ follow → rule.run (word ++ rest) = .matched value rest

section Change

variable {rule : Rule α} {values : Set α} {spelling : α → Language UInt8} {follow : Set Bytes}

theorem Reads.follow_mono (reads : rule.Reads values spelling follow) {narrower : Set Bytes}
    (contained : narrower ⊆ follow) : rule.Reads values spelling narrower where
  sound := reads.sound
  complete isValue isWord follows := reads.complete isValue isWord (contained follows)

theorem Reads.congr (reads : rule.Reads values spelling follow) {sameValues : Set α}
    {sameSpelling : α → Language UInt8} (valuesEq : values = sameValues)
    (spellingEq : ∀ value ∈ values, spelling value = sameSpelling value) :
    rule.Reads sameValues sameSpelling follow where
  sound := by
    intro input rest value ruleMatch
    have found := reads.sound ruleMatch
    rw [← valuesEq, ← spellingEq value found.1]
    exact found
  complete := by
    intro word rest value isValue isWord follows
    rw [← valuesEq] at isValue
    rw [← spellingEq value isValue] at isWord
    exact reads.complete isValue isWord follows

/-- Values without spellings may be added. -/
theorem Reads.univ_of_unspelled (reads : rule.Reads values spelling follow)
    (unspelled : ∀ value, value ∉ values → spelling value = 0) :
    rule.Reads Set.univ spelling follow where
  sound ruleMatch := ⟨Set.mem_univ _, (reads.sound ruleMatch).2⟩
  complete := by
    intro word rest value _ isWord follows
    by_cases isValue : value ∈ values
    · exact reads.complete isValue isWord follows
    · rw [unspelled value isValue] at isWord
      exact absurd isWord (Language.notMem_zero word)

end Change

/-! ## Sequences -/

theorem reads_pure (value : α) :
    (pure value : Rule α).Reads {value} (fun _ => 1) Set.univ where
  sound := by
    intro input rest found equality
    cases equality
    exact ⟨rfl, [], Language.nil_mem_one, rfl⟩
  complete := by
    intro word rest found isValue isWord _
    rw [Set.mem_singleton_iff.mp isValue, (Language.mem_one word).mp isWord]
    rfl

/-- The second part may depend on the value of the first, and has its own set of values for each.
The spellings of a sequence are the products of the spellings of its parts. -/
theorem Reads.bind {first : Rule α} {next : α → Rule β} {values : α → Set β}
    {firstSpelling : α → Language UInt8} {nextSpelling : α → β → Language UInt8}
    {spelling : β → Language UInt8} {firstFollow follow : Set Bytes}
    (firstReads : first.Reads Set.univ firstSpelling firstFollow)
    (nextReads : ∀ middle, (next middle).Reads (values middle) (nextSpelling middle) follow)
    (spells : ∀ middle, ∀ value ∈ values middle,
      spelling value = firstSpelling middle * nextSpelling middle value)
    (delimited : ∀ middle, ∀ value ∈ values middle, ∀ word ∈ nextSpelling middle value,
      ∀ rest ∈ follow, word ++ rest ∈ firstFollow) :
    (first >>= next).Reads (⋃ middle, values middle) spelling follow where
  sound := by
    intro input rest value equality
    obtain ⟨middle, firstRest, firstMatch, nextMatch⟩ := run_bind_eq_matched_iff.mp equality
    obtain ⟨-, firstWord, firstIsWord, shape⟩ := firstReads.sound firstMatch
    subst shape
    obtain ⟨isValue, nextWord, nextIsWord, shape⟩ := (nextReads middle).sound nextMatch
    subst shape
    refine ⟨Set.mem_iUnion.mpr ⟨middle, isValue⟩, firstWord ++ nextWord, ?_, ?_⟩
    · rw [spells middle value isValue]
      exact Language.append_mem_mul firstIsWord nextIsWord
    · exact List.append_assoc firstWord nextWord rest
  complete := by
    intro word rest value isValue isWord follows
    obtain ⟨middle, isValue⟩ := Set.mem_iUnion.mp isValue
    rw [spells middle value isValue] at isWord
    obtain ⟨firstWord, firstIsWord, nextWord, nextIsWord, shape⟩ := Language.mem_mul.mp isWord
    subst shape
    have firstFollows := delimited middle value isValue nextWord nextIsWord rest follows
    have firstMatch := firstReads.complete (Set.mem_univ middle) firstIsWord firstFollows
    rw [List.append_assoc, run_bind_matched firstMatch]
    exact (nextReads middle).complete isValue nextIsWord follows

/-- A first part that gives one field of the value of the whole. -/
theorem Reads.field {first : Rule α} {next : α → Rule β} {values : Set β}
    {firstSpelling : α → Language UInt8} {nextSpelling : β → Language UInt8}
    {firstFollow follow : Set Bytes} (get : β → α)
    (firstReads : first.Reads Set.univ firstSpelling firstFollow)
    (nextReads : ∀ middle,
      (next middle).Reads {value | value ∈ values ∧ get value = middle} nextSpelling follow)
    (delimited : ∀ value ∈ values, ∀ word ∈ nextSpelling value, ∀ rest ∈ follow,
      word ++ rest ∈ firstFollow) :
    (first >>= next).Reads values (fun value => firstSpelling (get value) * nextSpelling value)
      follow := by
  have reads : (first >>= next).Reads (⋃ middle, {value | value ∈ values ∧ get value = middle})
      (fun value => firstSpelling (get value) * nextSpelling value) follow := by
    refine firstReads.bind nextReads (fun middle value isValue => ?_) fun middle value isValue => ?_
    · rw [isValue.2]
    · exact delimited value isValue.1
  refine reads.congr ?_ fun _ _ => rfl
  ext value
  simp

theorem Reads.after_expect {next : Unit → Rule β} {values : Set β} {spelling : β → Language UInt8}
    {follow : Set Bytes} (nextReads : (next ()).Reads values spelling follow) (literal : Bytes) :
    (expect literal >>= next).Reads values
      (fun value => ({literal} : Language UInt8) * spelling value) follow where
  sound := by
    intro input rest value equality
    obtain ⟨_, firstRest, firstMatch, nextMatch⟩ := run_bind_eq_matched_iff.mp equality
    obtain rfl := run_expect_eq_matched_iff.mp firstMatch
    obtain ⟨isValue, word, isWord, shape⟩ := nextReads.sound nextMatch
    subst shape
    exact ⟨isValue, literal ++ word, Language.append_mem_mul (Set.mem_singleton literal) isWord,
      List.append_assoc literal word rest⟩
  complete := by
    intro word rest value isValue isWord follows
    obtain ⟨nextWord, nextIsWord, shape⟩ := Spelling.mem_singleton_mul.mp isWord
    subst shape
    rw [List.append_assoc, run_bind_expect_append]
    exact nextReads.complete isValue nextIsWord follows

theorem Reads.spaced_field {first : Rule α} {next : α → Rule β} {values : Set β}
    {firstSpelling : α → Language UInt8} {nextSpelling : β → Language UInt8} {follow : Set Bytes}
    (get : β → α) (firstReads : first.Reads Set.univ firstSpelling Set.univ)
    (nextReads : ∀ middle,
      (next middle).Reads {value | value ∈ values ∧ get value = middle} nextSpelling follow) :
    (do
      let middle ← first
      space
      next middle).Reads values
      (fun value => firstSpelling (get value) * (Spelling.space * nextSpelling value)) follow :=
  Reads.field get firstReads (fun middle => (nextReads middle).after_expect (ascii " "))
    fun _ _ _ _ _ _ => Set.mem_univ _

theorem Reads.wrap {rule : Rule α} {ruleSpelling : α → Language UInt8} {follow : Set Bytes}
    (reads : rule.Reads Set.univ ruleSpelling follow) (wrap : α → β)
    {spelling : β → Language UInt8} (spells : ∀ value, spelling (wrap value) = ruleSpelling value) :
    (do
      let value ← rule
      pure (wrap value)).Reads (Set.range wrap) spelling follow := by
  have pureReads : ∀ value, (pure (wrap value) : Rule β).Reads {wrap value} (fun _ => 1) follow :=
    fun value => (reads_pure (wrap value)).follow_mono (Set.subset_univ follow)
  have wrapReads : (rule >>= fun value => pure (wrap value)).Reads (⋃ value, {wrap value})
      spelling follow := by
    refine reads.bind pureReads (fun value wrapped isWrapped => ?_) ?_
    · rw [Set.mem_singleton_iff.mp isWrapped, spells, mul_one]
    · intro value wrapped isWrapped word isWord rest follows
      rw [(Language.mem_one word).mp isWord]
      exact follows
  exact wrapReads.congr (Set.iUnion_singleton_eq_range wrap) fun _ _ => rfl

theorem Reads.map {rule : Rule α} {ruleSpelling : α → Language UInt8} {follow : Set Bytes}
    (reads : rule.Reads Set.univ ruleSpelling follow) (wrap : α → β)
    {spelling : β → Language UInt8} (spells : ∀ value, spelling (wrap value) = ruleSpelling value) :
    (wrap <$> rule).Reads (Set.range wrap) spelling follow :=
  reads.wrap wrap spells

theorem Reads.announced {rule : Rule α} {ruleSpelling : α → Language UInt8} {follow : Set Bytes}
    (reads : rule.Reads Set.univ ruleSpelling follow) (literal : Bytes) (wrap : α → β)
    {spelling : β → Language UInt8}
    (spells : ∀ value, spelling (wrap value) = ({literal} : Language UInt8) * ruleSpelling value) :
    (do
      expect literal
      let value ← rule
      pure (wrap value)).Reads (Set.range wrap) spelling follow where
  sound := by
    intro input rest found equality
    obtain ⟨_, afterLiteral, literalMatch, equality⟩ := run_bind_eq_matched_iff.mp equality
    obtain ⟨value, _, ruleMatch, equality⟩ := run_bind_eq_matched_iff.mp equality
    cases equality
    obtain rfl := run_expect_eq_matched_iff.mp literalMatch
    obtain ⟨-, word, isWord, shape⟩ := reads.sound ruleMatch
    subst shape
    refine ⟨Set.mem_range_self value, literal ++ word, ?_, List.append_assoc literal word rest⟩
    rw [spells]
    exact Language.append_mem_mul (Set.mem_singleton literal) isWord
  complete := by
    intro word rest found isValue isWord follows
    rcases isValue with ⟨value, shape⟩
    subst shape
    rw [spells] at isWord
    obtain ⟨valueWord, valueIsWord, shape⟩ := Spelling.mem_singleton_mul.mp isWord
    subst shape
    have ruleMatch := reads.complete (Set.mem_univ value) valueIsWord follows
    rw [List.append_assoc, run_bind_expect_append, run_bind_matched ruleMatch]
    rfl

theorem Reads.closed {rule : Rule α} {values : Set α} {ruleSpelling : α → Language UInt8}
    {ruleFollow follow : Set Bytes} (reads : rule.Reads values ruleSpelling ruleFollow)
    (literal : Bytes) (wrap : α → β) {spelling : β → Language UInt8}
    (spells : ∀ value ∈ values,
      spelling (wrap value) = ruleSpelling value * ({literal} : Language UInt8))
    (delimited : ∀ rest ∈ follow, literal ++ rest ∈ ruleFollow) :
    (do
      let value ← rule
      expect literal
      pure (wrap value)).Reads (wrap '' values) spelling follow where
  sound := by
    intro input rest found equality
    obtain ⟨value, afterValue, ruleMatch, equality⟩ := run_bind_eq_matched_iff.mp equality
    obtain ⟨_, _, literalMatch, equality⟩ := run_bind_eq_matched_iff.mp equality
    cases equality
    obtain rfl := run_expect_eq_matched_iff.mp literalMatch
    obtain ⟨isValue, word, isWord, shape⟩ := reads.sound ruleMatch
    subst shape
    refine ⟨Set.mem_image_of_mem wrap isValue, word ++ literal, ?_,
      List.append_assoc word literal rest⟩
    rw [spells value isValue]
    exact Language.append_mem_mul isWord (Set.mem_singleton literal)
  complete := by
    intro word rest found isValue isWord follows
    rcases isValue with ⟨value, isValue, shape⟩
    subst shape
    rw [spells value isValue] at isWord
    obtain ⟨valueWord, valueIsWord, lastWord, isLiteral, shape⟩ := Language.mem_mul.mp isWord
    subst shape
    rw [Set.mem_singleton_iff.mp isLiteral]
    have ruleMatch := reads.complete isValue valueIsWord (delimited rest follows)
    have literalMatch : (expect literal).run (literal ++ rest) = .matched () rest :=
      run_expect_eq_matched_iff.mpr rfl
    rw [List.append_assoc, run_bind_matched ruleMatch, run_bind_matched literalMatch]
    rfl

theorem Reads.enclosed {rule : Rule α} {values : Set α} {ruleSpelling : α → Language UInt8}
    {ruleFollow : Set Bytes} (reads : rule.Reads values ruleSpelling ruleFollow)
    (opening closing : Bytes) (wrap : α → β) {spelling : β → Language UInt8}
    (spells : ∀ value ∈ values, spelling (wrap value) =
      [({opening} : Language UInt8), ruleSpelling value, ({closing} : Language UInt8)].prod)
    (closingFollows : ∀ rest, closing ++ rest ∈ ruleFollow) :
    (do
      expect opening
      let value ← rule
      expect closing
      pure (wrap value)).Reads (wrap '' values) spelling Set.univ where
  sound := by
    intro input rest found equality
    obtain ⟨_, afterOpening, openingMatch, equality⟩ := run_bind_eq_matched_iff.mp equality
    obtain ⟨value, afterValue, ruleMatch, equality⟩ := run_bind_eq_matched_iff.mp equality
    obtain ⟨_, _, closingMatch, equality⟩ := run_bind_eq_matched_iff.mp equality
    cases equality
    obtain rfl := run_expect_eq_matched_iff.mp openingMatch
    obtain rfl := run_expect_eq_matched_iff.mp closingMatch
    obtain ⟨isValue, word, isWord, shape⟩ := reads.sound ruleMatch
    subst shape
    refine ⟨Set.mem_image_of_mem wrap isValue, opening ++ (word ++ closing), ?_, by simp⟩
    rw [spells value isValue, List.prod_cons, List.prod_cons, List.prod_cons, List.prod_nil,
      mul_one]
    have closedWord : word ++ closing ∈ ruleSpelling value * ({closing} : Language UInt8) :=
      Language.append_mem_mul isWord (Set.mem_singleton closing)
    exact Language.append_mem_mul (Set.mem_singleton opening) closedWord
  complete := by
    intro word rest found isValue isWord _
    rcases isValue with ⟨value, isValue, shape⟩
    subst shape
    rw [spells value isValue, List.prod_cons, List.prod_cons, List.prod_cons, List.prod_nil,
      mul_one] at isWord
    obtain ⟨closedWord, isClosed, shape⟩ := Spelling.mem_singleton_mul.mp isWord
    subst shape
    obtain ⟨valueWord, valueIsWord, lastWord, isClosing, shape⟩ := Language.mem_mul.mp isClosed
    subst shape
    rw [Set.mem_singleton_iff.mp isClosing]
    have ruleMatch := reads.complete isValue valueIsWord (closingFollows rest)
    have closingMatch : (expect closing).run (closing ++ rest) = .matched () rest :=
      run_expect_eq_matched_iff.mpr rfl
    rw [List.append_assoc, List.append_assoc, run_bind_expect_append, run_bind_matched ruleMatch,
      run_bind_matched closingMatch]
    rfl

/-! ## Choices -/

section Choice

variable {values rightValues : Set α} {spelling rightSpelling : α → Language UInt8}
  {follow : Set Bytes}

theorem Reads.orElse {left right : Rule α} (leftReads : left.Reads values spelling follow)
    (rightReads : right.Reads rightValues spelling follow) (exclusive : left.Exclusive right) :
    (left.orElse right).Reads (values ∪ rightValues) spelling follow where
  sound := by
    intro input rest value equality
    rcases run_orElse_eq_matched_iff.mp equality with leftMatch | ⟨-, rightMatch⟩
    · obtain ⟨isValue, isSpelled⟩ := leftReads.sound leftMatch
      exact ⟨Or.inl isValue, isSpelled⟩
    · obtain ⟨isValue, isSpelled⟩ := rightReads.sound rightMatch
      exact ⟨Or.inr isValue, isSpelled⟩
  complete := by
    intro word rest value isValue isWord follows
    rw [run_orElse_eq_matched_iff]
    rcases isValue with isValue | isValue
    · exact Or.inl (leftReads.complete isValue isWord follows)
    · have rightMatch := rightReads.complete isValue isWord follows
      exact Or.inr ⟨exclusive.symm.right_malformed rightMatch, rightMatch⟩

theorem Reads.orElse_add {left right : Rule α} (leftReads : left.Reads values spelling follow)
    (rightReads : right.Reads values rightSpelling follow) (exclusive : left.Exclusive right) :
    (left.orElse right).Reads values (fun value => spelling value + rightSpelling value)
      follow where
  sound := by
    intro input rest value equality
    rcases run_orElse_eq_matched_iff.mp equality with leftMatch | ⟨-, rightMatch⟩
    · obtain ⟨isValue, word, isWord, same⟩ := leftReads.sound leftMatch
      exact ⟨isValue, word, Or.inl isWord, same⟩
    · obtain ⟨isValue, word, isWord, same⟩ := rightReads.sound rightMatch
      exact ⟨isValue, word, Or.inr isWord, same⟩
  complete := by
    intro word rest value isValue isWord follows
    rw [run_orElse_eq_matched_iff]
    rcases (Language.mem_add _ _ word).mp isWord with isWord | isWord
    · exact Or.inl (leftReads.complete isValue isWord follows)
    · have rightMatch := rightReads.complete isValue isWord follows
      exact Or.inr ⟨exclusive.symm.right_malformed rightMatch, rightMatch⟩

theorem reads_reject : (reject : Rule α).Reads values (fun _ => 0) follow where
  sound := nofun
  complete _ isWord := absurd isWord (Language.notMem_zero _)

/-- An ordered choice between rules that exclude each other reads what any of them reads. -/
theorem reads_firstOf {rules : List (Rule α)} {kinds : List (Set α)}
    (exclusive : rules.Pairwise Exclusive)
    (reads : List.Forall₂ (fun rule kind => rule.Reads kind spelling follow) rules kinds) :
    (firstOf rules).Reads {value | ∃ kind ∈ kinds, value ∈ kind} spelling follow := by
  induction reads with
  | nil =>
    have rejectReads : (reject : Rule α).Reads ∅ (fun _ => 0) follow := reads_reject
    exact rejectReads.congr (by simp) (by simp)
  | cons headReads _ inductionHypothesis =>
    obtain ⟨headExclusive, tailExclusive⟩ := List.pairwise_cons.mp exclusive
    have othersExclusive := exclusive_firstOf fun rule member => (headExclusive rule member).symm
    have choiceReads := headReads.orElse (inductionHypothesis tailExclusive) othersExclusive.symm
    refine choiceReads.congr ?_ fun _ _ => rfl
    ext value
    simp

/-- An ordered choice between rules for the same values reads the spellings of all of them. -/
theorem reads_firstOf_sum {rules : List (Rule α)} {spellings : List (α → Language UInt8)}
    (exclusive : rules.Pairwise Exclusive)
    (reads : List.Forall₂ (fun rule spelling => rule.Reads values spelling follow) rules
      spellings) :
    (firstOf rules).Reads values (fun value => (spellings.map fun spelling => spelling value).sum)
      follow := by
  induction reads with
  | nil => exact reads_reject
  | cons headReads _ inductionHypothesis =>
    obtain ⟨headExclusive, tailExclusive⟩ := List.pairwise_cons.mp exclusive
    have othersExclusive := exclusive_firstOf fun rule member => (headExclusive rule member).symm
    exact headReads.orElse_add (inductionHypothesis tailExclusive) othersExclusive.symm

end Choice

/-! ## Tokens -/

theorem reads_word (literal : Bytes) :
    (word literal).Reads Set.univ (Spelling.asIs fun value => value = literal) Set.univ where
  sound := by
    intro input rest value wordMatch
    obtain ⟨isLiteral, same⟩ := run_word_eq_matched_iff.mp wordMatch
    subst isLiteral
    exact ⟨Set.mem_univ value, value, ⟨rfl, rfl⟩, same⟩
  complete := by
    intro word rest value _ isWord _
    obtain ⟨rfl, rfl⟩ := Spelling.mem_asIs.mp isWord
    exact run_word_append word rest

theorem reads_keyword (literal : Bytes) (value : α) {spelling : α → Language UInt8}
    (spells : spelling value = {literal}) :
    (keyword literal value).Reads {value} spelling Set.univ := by
  have reads : (keyword literal value).Reads {value}
      (fun _ => ({literal} : Language UInt8) * 1) Set.univ :=
    (reads_pure value).after_expect literal
  refine reads.congr rfl fun found isValue => ?_
  rw [Set.mem_singleton_iff.mp isValue, spells, mul_one]

theorem reads_exactly (count : Nat) :
    (exactly count).Reads {value | value.length = count} (fun value => {value}) Set.univ where
  sound := by
    intro input rest value exactMatch
    obtain ⟨isLong, same⟩ := run_exactly_eq_matched_iff.mp exactMatch
    exact ⟨isLong, value, Set.mem_singleton value, same⟩
  complete := by
    intro word rest value isLong isWord _
    rw [Set.mem_singleton_iff.mp isWord]
    exact run_exactly_eq_matched_iff.mpr ⟨isLong, rfl⟩

theorem Reads.accepting {rule : Rule α} {ruleSpelling : α → Language UInt8} {follow : Set Bytes}
    (reads : rule.Reads Set.univ ruleSpelling follow) {accept : α → Option β}
    {spelling : β → Language UInt8}
    (spells : ∀ value word, word ∈ spelling value ↔
      ∃ earlier, accept earlier = some value ∧ word ∈ ruleSpelling earlier) :
    (rule.accepting accept).Reads Set.univ spelling follow where
  sound := by
    intro input rest value equality
    obtain ⟨earlier, ruleMatch, accepted⟩ := run_accepting_eq_matched_iff.mp equality
    obtain ⟨-, word, isWord, same⟩ := reads.sound ruleMatch
    exact ⟨Set.mem_univ value, word, (spells value word).mpr ⟨earlier, accepted, isWord⟩, same⟩
  complete := by
    intro word rest value _ isWord follows
    obtain ⟨earlier, accepted, earlierWord⟩ := (spells value word).mp isWord
    have ruleMatch := reads.complete (Set.mem_univ earlier) earlierWord follows
    exact run_accepting_eq_matched_iff.mpr ⟨earlier, ruleMatch, accepted⟩

theorem reads_bytesIn (member : UInt8 → Bool) :
    (bytesIn member).Reads Set.univ
      (Spelling.asIs fun run => run ≠ [] ∧ ∀ byte ∈ run, member byte = true)
      (Bytes.startingOutside member) where
  sound := by
    intro input rest value runMatch
    obtain ⟨nonempty, allMember, -, same⟩ := run_bytesIn_eq_matched_iff.mp runMatch
    exact ⟨Set.mem_univ value, value, ⟨rfl, nonempty, allMember⟩, same⟩
  complete := by
    intro word rest value _ isWord follows
    obtain ⟨rfl, nonempty, allMember⟩ := Spelling.mem_asIs.mp isWord
    exact run_bytesIn_eq_matched_iff.mpr ⟨nonempty, allMember, follows, rfl⟩

/-! ## Lists -/

section Lists

variable {item : Rule α} {spelling : α → Language UInt8} {itemFollow : Set Bytes}

/-- What follows an item is another item or what follows them all. -/
private theorem words_follow
    (starts : ∀ value, ∀ word ∈ spelling value, ∀ rest, word ++ rest ∈ itemFollow)
    {values : List α} {word rest : Bytes} (areWords : word ∈ (values.map spelling).prod)
    (restFollows : rest ∈ itemFollow) : word ++ rest ∈ itemFollow := by
  cases values with
  | nil =>
    rw [(Language.mem_one word).mp areWords]
    exact restFollows
  | cons value others =>
    rw [List.map_cons, List.prod_cons] at areWords
    obtain ⟨itemWord, isItem, otherWords, -, shape⟩ := Language.mem_mul.mp areWords
    subst shape
    rw [List.append_assoc]
    exact starts value itemWord isItem (otherWords ++ rest)

theorem reads_items (itemReads : item.Reads Set.univ spelling itemFollow)
    (consumes : item.Consuming)
    (starts : ∀ value, ∀ word ∈ spelling value, ∀ rest, word ++ rest ∈ itemFollow) :
    (items item).Reads Set.univ (fun values => (values.map spelling).prod)
      {rest | rest ∈ itemFollow ∧ item.run rest = .failed .malformed} where
  sound := by
    intro input rest values equality
    refine ⟨Set.mem_univ values, ?_⟩
    induction input using items_induction item generalizing values with
    | malformed input answer =>
      rw [run_items_of_malformed answer] at equality
      cases equality
      exact ⟨[], Language.nil_mem_one, rfl⟩
    | incomplete input needed answer =>
      rw [run_items_of_incomplete answer] at equality
      cases equality
    | standstill input value middle answer notShorter => exact absurd (consumes answer) notShorter
    | matched input value middle answer shorter inductionHypothesis =>
      rw [run_items_of_matched answer shorter] at equality
      obtain ⟨others, othersMatch, shape⟩ := Outcome.map_eq_matched_iff.mp equality
      subst shape
      obtain ⟨-, word, isWord, shape⟩ := itemReads.sound answer
      subst shape
      obtain ⟨otherWords, areWords, shape⟩ := inductionHypothesis othersMatch
      subst shape
      refine ⟨word ++ otherWords, ?_, List.append_assoc word otherWords rest⟩
      rw [List.map_cons, List.prod_cons]
      exact Language.append_mem_mul isWord areWords
  complete := by
    intro word rest values isValue isWord follows
    rcases follows with ⟨restFollows, noItem⟩
    clear isValue
    induction values generalizing word with
    | nil =>
      rw [(Language.mem_one word).mp isWord]
      exact run_items_of_malformed noItem
    | cons value others inductionHypothesis =>
      rw [List.map_cons, List.prod_cons] at isWord
      obtain ⟨itemWord, isItem, otherWords, areWords, shape⟩ := Language.mem_mul.mp isWord
      subst shape
      have othersMatch := inductionHypothesis areWords
      have itemFollows := words_follow starts areWords restFollows
      have itemMatch := itemReads.complete (Set.mem_univ value) isItem itemFollows
      rw [List.append_assoc, run_items_of_matched itemMatch (consumes itemMatch), othersMatch]
      rfl

private theorem reads_cons {others : Rule (List α)} {othersSpelling : List α → Language UInt8}
    {follow : Set Bytes} (itemReads : item.Reads Set.univ spelling itemFollow)
    (othersReads : others.Reads Set.univ othersSpelling follow)
    (delimited : ∀ values, ∀ word ∈ othersSpelling values, ∀ rest ∈ follow,
      word ++ rest ∈ itemFollow) :
    (do
      let first ← item
      let later ← others
      pure (first :: later)).Reads Set.univ
      (fun | [] => 0 | first :: later => spelling first * othersSpelling later) follow where
  sound := by
    intro input rest values equality
    obtain ⟨first, middle, firstMatch, equality⟩ := run_bind_eq_matched_iff.mp equality
    obtain ⟨later, _, laterMatch, equality⟩ := run_bind_eq_matched_iff.mp equality
    cases equality
    obtain ⟨-, firstWord, firstIsWord, shape⟩ := itemReads.sound firstMatch
    subst shape
    obtain ⟨-, laterWord, laterIsWord, shape⟩ := othersReads.sound laterMatch
    subst shape
    exact ⟨Set.mem_univ _, firstWord ++ laterWord,
      Language.append_mem_mul firstIsWord laterIsWord, List.append_assoc firstWord laterWord rest⟩
  complete := by
    intro word rest values _ isWord follows
    cases values with
    | nil => exact absurd isWord (Language.notMem_zero word)
    | cons first later =>
      obtain ⟨firstWord, firstIsWord, laterWord, laterIsWord, shape⟩ := Language.mem_mul.mp isWord
      subst shape
      have firstFollows := delimited later laterWord laterIsWord rest follows
      have firstMatch := itemReads.complete (Set.mem_univ first) firstIsWord firstFollows
      have laterMatch := othersReads.complete (Set.mem_univ later) laterIsWord follows
      rw [List.append_assoc, run_bind_matched firstMatch, run_bind_matched laterMatch]
      rfl

theorem reads_many (itemReads : item.Reads Set.univ spelling itemFollow)
    (consumes : item.Consuming)
    (starts : ∀ value, ∀ word ∈ spelling value, ∀ rest, word ++ rest ∈ itemFollow) :
    (many item).Reads Set.univ (Spelling.many spelling)
      {rest | rest ∈ itemFollow ∧ item.run rest = .failed .malformed} := by
  refine reads_cons itemReads (reads_items itemReads consumes starts) ?_
  intro values word areWords rest follows
  exact words_follow starts areWords follows.1

private theorem spaced_words_follow (spaceFollows : ∀ rest, Byte.space :: rest ∈ itemFollow)
    {values : List α} {word rest : Bytes}
    (areWords : word ∈ (values.map fun value => Spelling.space * spelling value).prod)
    (restFollows : rest ∈ itemFollow) : word ++ rest ∈ itemFollow := by
  cases values with
  | nil =>
    rw [(Language.mem_one word).mp areWords]
    exact restFollows
  | cons value others =>
    rw [List.map_cons, List.prod_cons, mul_assoc] at areWords
    obtain ⟨tail, -, shape⟩ := Spelling.mem_singleton_mul.mp areWords
    subst shape
    exact spaceFollows (tail ++ rest)

theorem reads_spacedItems (itemReads : item.Reads Set.univ spelling itemFollow)
    (spaceFollows : ∀ rest, Byte.space :: rest ∈ itemFollow) :
    (spacedItems item).Reads Set.univ
      (fun values => (values.map fun value => Spelling.space * spelling value).prod)
      (itemFollow ∩ Bytes.startingOutside (· == Byte.space)) where
  sound := by
    intro input rest values equality
    refine ⟨Set.mem_univ values, ?_⟩
    induction input using spacedItems_induction item generalizing values with
    | empty =>
      rw [run_spacedItems_nil] at equality
      cases equality
    | outside input inputOutside =>
      rw [run_spacedItems_of_outside inputOutside] at equality
      cases equality
      exact ⟨[], Language.nil_mem_one, rfl⟩
    | malformed afterSpace answer =>
      rw [run_spacedItems_of_malformed answer] at equality
      cases equality
      exact ⟨[], Language.nil_mem_one, rfl⟩
    | incomplete afterSpace needed answer =>
      rw [run_spacedItems_of_incomplete answer] at equality
      cases equality
    | matched afterSpace value middle answer inductionHypothesis =>
      rw [run_spacedItems_of_matched answer] at equality
      obtain ⟨others, othersMatch, shape⟩ := Outcome.map_eq_matched_iff.mp equality
      subst shape
      obtain ⟨-, word, isWord, shape⟩ := itemReads.sound answer
      subst shape
      obtain ⟨otherWords, areWords, shape⟩ := inductionHypothesis othersMatch
      subst shape
      have spacedWord : ascii " " ++ word ∈ Spelling.space * spelling value :=
        Language.append_mem_mul rfl isWord
      refine ⟨(ascii " " ++ word) ++ otherWords, ?_, ?_⟩
      · rw [List.map_cons, List.prod_cons]
        exact Language.append_mem_mul spacedWord areWords
      · rw [List.append_assoc, List.append_assoc]
        rfl
  complete := by
    intro word rest values isValue isWord follows
    clear isValue
    induction values generalizing word with
    | nil =>
      rw [(Language.mem_one word).mp isWord]
      exact run_spacedItems_of_outside follows.2
    | cons value others inductionHypothesis =>
      rw [List.map_cons, List.prod_cons, mul_assoc] at isWord
      obtain ⟨_, afterSpace, shape⟩ := Spelling.mem_singleton_mul.mp isWord
      subst shape
      obtain ⟨itemWord, isItem, otherWords, areWords, shape⟩ := Language.mem_mul.mp afterSpace
      subst shape
      have othersMatch := inductionHypothesis areWords
      have itemFollows := spaced_words_follow spaceFollows areWords follows.1
      have itemMatch := itemReads.complete (Set.mem_univ value) isItem itemFollows
      have spaceFirst : ascii " " ++ (itemWord ++ otherWords) ++ rest =
          Byte.space :: (itemWord ++ (otherWords ++ rest)) := by
        rw [List.append_assoc, List.append_assoc]
        rfl
      rw [spaceFirst, run_spacedItems_of_matched itemMatch, othersMatch]
      rfl

theorem reads_spaced (itemReads : item.Reads Set.univ spelling itemFollow)
    (spaceFollows : ∀ rest, Byte.space :: rest ∈ itemFollow) :
    (spaced item).Reads Set.univ (Spelling.spaced spelling)
      (itemFollow ∩ Bytes.startingOutside (· == Byte.space)) := by
  refine reads_cons itemReads (reads_spacedItems itemReads spaceFollows) ?_
  intro values word areWords rest follows
  exact spaced_words_follow spaceFollows areWords follows.1

/-- A list in parentheses, where the closing parenthesis ends an item and starts none. -/
theorem reads_parenthesized (itemReads : item.Reads Set.univ spelling itemFollow)
    (spaceFollows : ∀ rest, Byte.space :: rest ∈ itemFollow)
    (closeFollows : ∀ rest, ascii ")" ++ rest ∈ itemFollow)
    (noItem : ∀ rest, item.run (ascii ")" ++ rest) = .failed .malformed) :
    (parenthesized item).Reads Set.univ (Spelling.parenthesized spelling) Set.univ where
  sound := by
    intro input rest values equality
    refine ⟨Set.mem_univ values, ?_⟩
    obtain ⟨_, afterOpen, openMatch, equality⟩ := run_bind_eq_matched_iff.mp equality
    obtain ⟨_, beforeClose, valuesMatch, equality⟩ := run_bind_eq_matched_iff.mp equality
    obtain ⟨_, _, closeMatch, equality⟩ := run_bind_eq_matched_iff.mp equality
    cases equality
    obtain rfl := run_expect_eq_matched_iff.mp openMatch
    obtain rfl := run_expect_eq_matched_iff.mp closeMatch
    rcases run_orElse_eq_matched_iff.mp valuesMatch with someMatch | ⟨-, noneMatch⟩
    · obtain ⟨-, word, isWord, shape⟩ := (reads_spaced itemReads spaceFollows).sound someMatch
      subst shape
      cases values with
      | nil => exact absurd isWord (Language.notMem_zero word)
      | cons first later =>
        have closedWord : word ++ ascii ")" ∈
            Spelling.spaced spelling (first :: later) * Spelling.literally ")" :=
          Language.append_mem_mul isWord rfl
        refine ⟨ascii "(" ++ (word ++ ascii ")"), ?_, by simp⟩
        simp only [Spelling.parenthesized, List.prod_cons, List.prod_nil, mul_one]
        exact Language.append_mem_mul rfl closedWord
    · cases noneMatch
      exact ⟨ascii "()", rfl, rfl⟩
  complete := by
    intro word rest values _ isWord _
    have closeMatch : (expect (ascii ")")).run (ascii ")" ++ rest) = .matched () rest :=
      run_expect_eq_matched_iff.mpr rfl
    cases values with
    | nil =>
      have isEmpty : word ++ rest = ascii "(" ++ (ascii ")" ++ rest) := by
        rw [Spelling.mem_literally.mp isWord]
        rfl
      have noneMatch : (orElse (spaced item) (pure [])).run (ascii ")" ++ rest) =
          .matched [] (ascii ")" ++ rest) := by
        have noSpaced : (spaced item).run (ascii ")" ++ rest) = .failed .malformed :=
          run_bind_failed (noItem rest) _
        exact run_orElse_eq_matched_iff.mpr (Or.inr ⟨noSpaced, rfl⟩)
      rw [isEmpty, parenthesized, run_bind_expect_append, run_bind_matched noneMatch,
        run_bind_matched closeMatch]
      rfl
    | cons first later =>
      simp only [Spelling.parenthesized, List.prod_cons, List.prod_nil, mul_one] at isWord
      obtain ⟨closedWord, isClosed, shape⟩ := Spelling.mem_singleton_mul.mp isWord
      subst shape
      obtain ⟨itemsWord, areItems, _, rfl, rfl⟩ := Language.mem_mul.mp isClosed
      have closeOutside : ascii ")" ++ rest ∈ Bytes.startingOutside (· == Byte.space) :=
        Bytes.cons_mem_startingOutside (by decide) rest
      have itemsMatch := (reads_spaced itemReads spaceFollows).complete (Set.mem_univ _) areItems
        ⟨closeFollows rest, closeOutside⟩
      have someMatch : (orElse (spaced item) (pure [])).run (itemsWord ++ (ascii ")" ++ rest)) =
          .matched (first :: later) (ascii ")" ++ rest) :=
        run_orElse_eq_matched_iff.mpr (Or.inl itemsMatch)
      rw [List.append_assoc, List.append_assoc, parenthesized, run_bind_expect_append,
        run_bind_matched someMatch, run_bind_matched closeMatch]
      rfl

end Lists

end Imap.Rule
