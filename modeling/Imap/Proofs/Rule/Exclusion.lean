import Mathlib.Data.List.Forall2
import Imap.Proofs.Rule.Answers

/-!
# Alternatives that exclude each other

Two rules exclude each other when no input gives both of them a say: on every input one of the two
is malformed, or both wait for the same number of bytes. Between such rules an ordered choice hides
nothing, since the rule that comes first never takes an input away from the other.

Exclusion is decided at the start of the input. Either the first bytes differ, or the words that
stand there differ, or the rules share their first part and part later.
-/

namespace Imap.Rule

variable {α β γ : Type}

/-- On every input one rule is malformed, or both wait for the same number of bytes. -/
def Exclusive (left : Rule α) (right : Rule β) : Prop :=
  ∀ input, left.run input = .failed .malformed ∨ right.run input = .failed .malformed ∨
    ∃ needed, left.run input = .failed (.incomplete needed) ∧
      right.run input = .failed (.incomplete needed)

theorem Exclusive.symm {left : Rule α} {right : Rule β} (exclusive : left.Exclusive right) :
    right.Exclusive left := by
  intro input
  rcases exclusive input with leftFails | rightFails | ⟨needed, leftWaits, rightWaits⟩
  · exact Or.inr (Or.inl leftFails)
  · exact Or.inl rightFails
  · exact Or.inr (Or.inr ⟨needed, rightWaits, leftWaits⟩)

theorem Exclusive.right_malformed {left : Rule α} {right : Rule β}
    (exclusive : left.Exclusive right) {input rest : Bytes} {value : α}
    (leftMatch : left.run input = .matched value rest) :
    right.run input = .failed .malformed := by
  rcases exclusive input with leftFails | rightFails | ⟨needed, leftWaits, -⟩
  · simp [leftMatch] at leftFails
  · exact rightFails
  · simp [leftMatch] at leftWaits

/-- Beside a rule that waits, a rule that it excludes does not match. -/
theorem Exclusive.malformed_or_incomplete {left : Rule α} {right : Rule β}
    (exclusive : left.Exclusive right) {input : Bytes} {needed : Option Nat}
    (leftWaits : left.run input = .failed (.incomplete needed)) :
    right.run input = .failed .malformed ∨ right.run input = .failed (.incomplete needed) := by
  rcases exclusive input with leftFails | rightFails | ⟨same, stillWaits, rightWaits⟩
  · simp [leftWaits] at leftFails
  · exact Or.inl rightFails
  · rw [leftWaits] at stillWaits
    cases stillWaits
    exact Or.inr rightWaits

theorem Exclusive.bind_left {left : Rule α} {right : Rule β} (exclusive : left.Exclusive right)
    (next : α → Rule γ) : (left >>= next).Exclusive right := by
  intro input
  rcases exclusive input with leftFails | rightFails | ⟨needed, leftWaits, rightWaits⟩
  · exact Or.inl (run_bind_failed leftFails next)
  · exact Or.inr (Or.inl rightFails)
  · exact Or.inr (Or.inr ⟨needed, run_bind_failed leftWaits next, rightWaits⟩)

theorem Exclusive.bind_right {left : Rule α} {right : Rule β} (exclusive : left.Exclusive right)
    (next : β → Rule γ) : left.Exclusive (right >>= next) :=
  (exclusive.symm.bind_left next).symm

theorem Exclusive.map_left {left : Rule α} {right : Rule β} (exclusive : left.Exclusive right)
    (change : α → γ) : (change <$> left).Exclusive right := by
  intro input
  simp only [run_map_eq_failed_iff]
  exact exclusive input

theorem Exclusive.map_right {left : Rule α} {right : Rule β} (exclusive : left.Exclusive right)
    (change : β → γ) : left.Exclusive (change <$> right) :=
  (exclusive.symm.map_left change).symm

/-- Rules with a common first part exclude each other if what follows that part does. -/
theorem exclusive_bind_of_common {first : Rule α} {left : α → Rule β} {right : α → Rule γ}
    (exclusive : ∀ value, (left value).Exclusive (right value)) :
    (first >>= left).Exclusive (first >>= right) := by
  intro input
  cases answer : first.run input with
  | matched value rest =>
    rw [run_bind_matched answer, run_bind_matched answer]
    exact exclusive value rest
  | failed failure =>
    rw [run_bind_failed answer, run_bind_failed answer]
    cases failure with
    | malformed => exact Or.inl rfl
    | incomplete needed => exact Or.inr (Or.inr ⟨needed, rfl, rfl⟩)

theorem exclusive_reject (right : Rule β) : (reject : Rule α).Exclusive right :=
  fun _ => Or.inl rfl

theorem Exclusive.orElse {first second : Rule α} {right : Rule β}
    (firstExclusive : first.Exclusive right) (secondExclusive : second.Exclusive right) :
    (first.orElse second).Exclusive right := by
  intro input
  rcases firstExclusive input with firstFails | rightFails | ⟨needed, firstWaits, rightWaits⟩
  · rw [run_orElse, firstFails]
    exact secondExclusive input
  · exact Or.inr (Or.inl rightFails)
  · refine Or.inr (Or.inr ⟨needed, ?_, rightWaits⟩)
    rw [run_orElse, firstWaits]

theorem exclusive_firstOf {rules : List (Rule α)} {right : Rule β}
    (allExclusive : ∀ rule ∈ rules, rule.Exclusive right) : (firstOf rules).Exclusive right := by
  induction rules with
  | nil => exact exclusive_reject right
  | cons rule rules inductionHypothesis =>
    have headExclusive := allExclusive rule List.mem_cons_self
    have tailExclusive := inductionHypothesis fun other member =>
      allExclusive other (List.mem_cons_of_mem rule member)
    exact headExclusive.orElse tailExclusive

/-! ## Words that differ -/

theorem exclusive_word {left right : Bytes} (leftNotPrefix : ¬ left <+: right)
    (rightNotPrefix : ¬ right <+: left) : (word left).Exclusive (word right) := by
  intro input
  cases leftAnswer : (word left).run input with
  | matched value rest =>
    obtain ⟨rfl, rfl⟩ := run_word_eq_matched_iff.mp leftAnswer
    refine Or.inr (Or.inl (run_word_eq_malformed_iff.mpr ⟨fun rightPrefix => ?_, fun longer => ?_⟩))
    · rcases List.prefix_or_prefix_of_prefix rightPrefix (List.prefix_append value rest) with
        shorter | longer
      · exact rightNotPrefix shorter
      · exact leftNotPrefix longer
    · exact leftNotPrefix ((List.prefix_append value rest).trans longer)
  | failed failure =>
    cases failure with
    | malformed => exact Or.inl rfl
    | incomplete needed =>
      obtain ⟨rfl, missing, -, rfl⟩ := run_word_eq_incomplete_iff.mp leftAnswer
      cases rightAnswer : (word right).run input with
      | matched value rest =>
        obtain ⟨rfl, rfl⟩ := run_word_eq_matched_iff.mp rightAnswer
        rw [List.append_assoc] at rightNotPrefix
        exact absurd (List.prefix_append _ _) rightNotPrefix
      | failed failure =>
        cases failure with
        | malformed => exact Or.inr (Or.inl rfl)
        | incomplete needed =>
          obtain ⟨rfl, -⟩ := run_word_eq_incomplete_iff.mp rightAnswer
          exact Or.inr (Or.inr ⟨none, rfl, rfl⟩)

theorem exclusive_expect {left right : Bytes} (leftNotPrefix : ¬ left <+: right)
    (rightNotPrefix : ¬ right <+: left) : (expect left).Exclusive (expect right) :=
  ((exclusive_word leftNotPrefix rightNotPrefix).map_left _).map_right _

theorem exclusive_announced {left right : Bytes} (leftNotPrefix : ¬ left <+: right)
    (rightNotPrefix : ¬ right <+: left) (afterLeft : Unit → Rule α) (afterRight : Unit → Rule β) :
    (expect left >>= afterLeft).Exclusive (expect right >>= afterRight) :=
  ((exclusive_expect leftNotPrefix rightNotPrefix).bind_left afterLeft).bind_right afterRight

/-- The rule starts with the given word. -/
def AnnouncedBy (rule : Rule α) (literal : Bytes) : Prop :=
  ∃ next : Unit → Rule α, rule = expect literal >>= next

private theorem AnnouncedBy.exclusive_all {rule : Rule α} {literal : Bytes}
    (announced : rule.AnnouncedBy literal) {others : List (Rule α)} {literals : List Bytes}
    (othersAnnounced : List.Forall₂ AnnouncedBy others literals)
    (distinct : ∀ other ∈ literals, ¬ literal <+: other ∧ ¬ other <+: literal) :
    ∀ other ∈ others, rule.Exclusive other := by
  rcases announced with ⟨next, shape⟩
  subst shape
  induction othersAnnounced with
  | nil => simp
  | cons headAnnounced _ inductionHypothesis =>
    rcases headAnnounced with ⟨nextOther, shape⟩
    subst shape
    have headDistinct := distinct _ List.mem_cons_self
    refine List.forall_mem_cons.mpr ⟨?_, inductionHypothesis fun other member => ?_⟩
    · exact exclusive_announced headDistinct.1 headDistinct.2 next nextOther
    · exact distinct other (List.mem_cons_of_mem _ member)

/-- Rules that start with words of which none begins another exclude each other. -/
theorem pairwise_exclusive_of_announced {rules : List (Rule α)} {literals : List Bytes}
    (announced : List.Forall₂ AnnouncedBy rules literals)
    (distinct : literals.Pairwise fun left right => ¬ left <+: right ∧ ¬ right <+: left) :
    rules.Pairwise Exclusive := by
  induction announced with
  | nil => exact List.Pairwise.nil
  | cons headAnnounced tailAnnounced inductionHypothesis =>
    obtain ⟨headDistinct, tailDistinct⟩ := List.pairwise_cons.mp distinct
    exact List.pairwise_cons.mpr
      ⟨headAnnounced.exclusive_all tailAnnounced headDistinct, inductionHypothesis tailDistinct⟩

/-- A word in any case fails as the small word does on the small input. -/
theorem run_wordAnyCase_eq_failed_iff {literal input : Bytes} {failure : Failure} :
    (wordAnyCase literal).run input = .failed failure ↔
      (word literal.lower).run input.lower = .failed failure := by
  cases failure with
  | malformed => rw [run_wordAnyCase_eq_malformed_iff, run_word_eq_malformed_iff]
  | incomplete needed =>
    rw [run_wordAnyCase_eq_incomplete_iff, run_word_eq_incomplete_iff]
    refine and_congr_right fun _ => ⟨fun shape => ?_, fun shape => ?_⟩
    · rcases shape with ⟨shorter, missing, equality⟩
      refine ⟨missing, fun empty => ?_, equality⟩
      have sameLength := congrArg List.length equality
      simp only [empty, List.append_nil, Bytes.length_lower] at sameLength
      omega
    · rcases shape with ⟨missing, nonempty, equality⟩
      refine ⟨?_, missing, equality⟩
      have sameLength := congrArg List.length equality
      have := List.length_pos_iff.mpr nonempty
      simp only [List.length_append, Bytes.length_lower] at sameLength
      omega

theorem exclusive_wordAnyCase {left right : Bytes} (leftNotPrefix : ¬ left.lower <+: right.lower)
    (rightNotPrefix : ¬ right.lower <+: left.lower) :
    (wordAnyCase left).Exclusive (wordAnyCase right) := by
  intro input
  simp only [run_wordAnyCase_eq_failed_iff]
  exact exclusive_word leftNotPrefix rightNotPrefix input.lower

/-! ## First bytes that differ -/

/-- The rule waits for its first byte and refuses every first byte outside a class. -/
structure BeginsWith (rule : Rule α) (first : UInt8 → Bool) : Prop where
  run_nil : rule.run [] = .failed (.incomplete none)
  run_outside : ∀ {input}, input ∈ Bytes.startingOutside first →
    rule.run input = .failed .malformed

theorem BeginsWith.exclusive {left : Rule α} {right : Rule β} {leftFirst rightFirst : UInt8 → Bool}
    (leftBegins : left.BeginsWith leftFirst) (rightBegins : right.BeginsWith rightFirst)
    (disjoint : ∀ byte, leftFirst byte = true → rightFirst byte = false) :
    left.Exclusive right := by
  intro input
  cases input with
  | nil => exact Or.inr (Or.inr ⟨none, leftBegins.run_nil, rightBegins.run_nil⟩)
  | cons next rest =>
    cases nextFirst : leftFirst next with
    | false => exact Or.inl (leftBegins.run_outside (Bytes.cons_mem_startingOutside nextFirst rest))
    | true =>
      have nextOutside := disjoint next nextFirst
      exact Or.inr (Or.inl
        (rightBegins.run_outside (Bytes.cons_mem_startingOutside nextOutside rest)))

theorem BeginsWith.exclusive_letter {left : Rule α} {right : Rule β} {letter : UInt8}
    {first : UInt8 → Bool} (leftBegins : left.BeginsWith (· == letter))
    (rightBegins : right.BeginsWith first) (letterOutside : first letter = false) :
    left.Exclusive right := by
  refine leftBegins.exclusive rightBegins fun byte isLetter => ?_
  rw [eq_of_beq isLetter]
  exact letterOutside

theorem BeginsWith.mono {rule : Rule α} {first wider : UInt8 → Bool}
    (begins : rule.BeginsWith first)
    (contained : ∀ byte, first byte = true → wider byte = true) : rule.BeginsWith wider where
  run_nil := begins.run_nil
  run_outside inputOutside :=
    begins.run_outside (Bytes.startingOutside_subset contained inputOutside)

theorem BeginsWith.bind {rule : Rule α} {first : UInt8 → Bool} (begins : rule.BeginsWith first)
    (next : α → Rule β) : (rule >>= next).BeginsWith first where
  run_nil := run_bind_failed begins.run_nil next
  run_outside inputOutside := run_bind_failed (begins.run_outside inputOutside) next

theorem BeginsWith.map {rule : Rule α} {first : UInt8 → Bool} (begins : rule.BeginsWith first)
    (change : α → β) : (change <$> rule).BeginsWith first where
  run_nil := run_map_eq_failed_iff.mpr begins.run_nil
  run_outside inputOutside := run_map_eq_failed_iff.mpr (begins.run_outside inputOutside)

theorem beginsWith_firstOf {rules : List (Rule α)} {first : UInt8 → Bool} (nonempty : rules ≠ [])
    (allBegin : ∀ rule ∈ rules, rule.BeginsWith first) : (firstOf rules).BeginsWith first where
  run_nil := by
    obtain ⟨rule, others, shape⟩ := List.exists_cons_of_ne_nil nonempty
    subst shape
    have headWaits := (allBegin rule List.mem_cons_self).run_nil
    rw [firstOf_cons, run_orElse, headWaits]
  run_outside inputOutside :=
    run_firstOf_eq_malformed_iff.mpr fun rule member =>
      (allBegin rule member).run_outside inputOutside

theorem beginsWith_bytesIn (member : UInt8 → Bool) : (bytesIn member).BeginsWith member where
  run_nil := run_bytesIn_eq_incomplete_iff.mpr ⟨rfl, by simp⟩
  run_outside inputOutside := run_bytesIn_eq_malformed_iff.mpr inputOutside

theorem beginsWith_word (first : UInt8) (others : Bytes) :
    (word (first :: others)).BeginsWith (· == first) where
  run_nil := run_word_eq_incomplete_iff.mpr ⟨rfl, first :: others, by simp, rfl⟩
  run_outside := by
    intro input inputOutside
    rcases inputOutside with ⟨next, rest, rfl, nextOutside⟩
    have different : next ≠ first := by simpa using nextOutside
    rw [run_word_eq_malformed_iff, List.cons_prefix_cons, List.cons_prefix_cons]
    exact ⟨fun same => different same.1.symm, fun same => different same.1⟩

theorem beginsWith_expect (first : UInt8) (others : Bytes) :
    (expect (first :: others)).BeginsWith (· == first) :=
  (beginsWith_word first others).map _

theorem beginsWith_wordAnyCase (first : UInt8) (others : Bytes) :
    (wordAnyCase (first :: others)).BeginsWith (Byte.lower · == Byte.lower first) where
  run_nil := by
    rw [run_wordAnyCase_eq_failed_iff]
    exact (beginsWith_word (Byte.lower first) (Bytes.lower others)).run_nil
  run_outside := by
    intro input inputOutside
    rcases inputOutside with ⟨next, rest, rfl, nextOutside⟩
    rw [run_wordAnyCase_eq_failed_iff]
    exact (beginsWith_word (Byte.lower first) (Bytes.lower others)).run_outside
      ⟨Byte.lower next, Bytes.lower rest, rfl, nextOutside⟩

/-! ## Any order -/

theorem Exclusive.orElse_left_comm {first second : Rule α} (exclusive : first.Exclusive second)
    (third : Rule α) :
    first.orElse (second.orElse third) = second.orElse (first.orElse third) := by
  ext input
  rcases exclusive input with firstFails | secondFails | ⟨needed, firstWaits, secondWaits⟩
  · simp only [run_orElse, firstFails]
  · simp only [run_orElse, secondFails]
  · simp only [run_orElse, firstWaits, secondWaits]

/-- An ordered choice between rules that exclude each other does not depend on the order. -/
theorem firstOf_perm {rules reordered : List (Rule α)} (exclusive : rules.Pairwise Exclusive)
    (isPerm : rules.Perm reordered) : firstOf reordered = firstOf rules := by
  induction isPerm with
  | nil => rfl
  | cons rule _ inductionHypothesis =>
    rw [firstOf_cons, firstOf_cons, inductionHypothesis exclusive.of_cons]
  | swap first second others =>
    obtain ⟨secondExclusive, -⟩ := List.pairwise_cons.mp exclusive
    have neighbours : second.Exclusive first := secondExclusive first List.mem_cons_self
    simp only [firstOf_cons]
    exact (neighbours.orElse_left_comm (firstOf others)).symm
  | trans earlier _ earlierHypothesis laterHypothesis =>
    have middleExclusive := earlier.pairwise exclusive Exclusive.symm
    exact (laterHypothesis middleExclusive).trans (earlierHypothesis exclusive)

end Imap.Rule
