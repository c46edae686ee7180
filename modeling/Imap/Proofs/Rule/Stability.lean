import Imap.Proofs.Rule.Answers

/-!
# Answers that later bytes do not change

A buffer only grows at its end. A rule is stable when its definite answers survive that: a match
keeps its value and leaves the later bytes unread, a malformed input stays malformed, and a known
number of missing bytes counts down with every byte that arrives. An incomplete answer without a
number promises nothing.

Every way of building rules keeps stability, for any stable parts. The two lists and the ordered
choice end on an answer of an inner rule, so the point is that this answer is definite.
-/

namespace Imap

variable {α β : Type}

/-- How the outcome on an input binds the outcome on that input followed by `later`. -/
def Outcome.Persists (later : Bytes) : Outcome α → Outcome α → Prop
  | .matched value rest, extended => extended = .matched value (rest ++ later)
  | .failed .malformed, extended => extended = .failed .malformed
  | .failed (.incomplete none), _ => True
  | .failed (.incomplete (some needed)), extended =>
    0 < needed ∧
      (later.length < needed →
        extended = .failed (.incomplete (some (needed - later.length))))

/-- An incomplete answer inside a composite rule is passed on, and its promise with it. -/
theorem Outcome.Persists.of_incomplete {needed : Option Nat} {later : Bytes}
    {extended : Outcome α} {composite : Outcome β}
    (persists : (Outcome.failed (.incomplete needed) : Outcome α).Persists later extended)
    (passedOn : ∀ count, extended = .failed (.incomplete (some count)) →
      composite = .failed (.incomplete (some count))) :
    (Outcome.failed (.incomplete needed) : Outcome β).Persists later composite := by
  cases needed with
  | none => trivial
  | some count =>
    rcases persists with ⟨positive, countsDown⟩
    exact ⟨positive, fun short => passedOn _ (countsDown short)⟩

theorem Outcome.Persists.map {later : Bytes} {outcome extended : Outcome α}
    (persists : outcome.Persists later extended) (change : α → β) :
    (outcome.map change).Persists later (extended.map change) := by
  cases outcome with
  | matched value rest =>
    have extendedMatch : extended = .matched value (rest ++ later) := persists
    rw [extendedMatch]
    rfl
  | failed failure =>
    cases failure with
    | malformed =>
      have extendedFailure : extended = .failed .malformed := persists
      rw [extendedFailure]
      rfl
    | incomplete needed =>
      exact persists.of_incomplete fun _ extendedFailure => by rw [extendedFailure]; rfl

namespace Rule

/-- Later bytes change no definite answer of the rule, and hints count down. -/
def Stable (rule : Rule α) : Prop :=
  ∀ input later, (rule.run input).Persists later (rule.run (input ++ later))

theorem Stable.matched_append {rule : Rule α} (stable : rule.Stable) {input rest : Bytes}
    {value : α} (ruleMatch : rule.run input = .matched value rest) (later : Bytes) :
    rule.run (input ++ later) = .matched value (rest ++ later) := by
  have persists := stable input later
  rw [ruleMatch] at persists
  exact persists

theorem Stable.malformed_append {rule : Rule α} (stable : rule.Stable) {input : Bytes}
    (ruleFailure : rule.run input = .failed .malformed) (later : Bytes) :
    rule.run (input ++ later) = .failed .malformed := by
  have persists := stable input later
  rw [ruleFailure] at persists
  exact persists

theorem Stable.needed_pos {rule : Rule α} (stable : rule.Stable) {input : Bytes} {needed : Nat}
    (waits : rule.run input = .failed (.incomplete (some needed))) : 0 < needed := by
  have persists := stable input []
  rw [waits] at persists
  exact persists.1

theorem Stable.incomplete_append {rule : Rule α} (stable : rule.Stable) {input : Bytes}
    {needed : Nat} (waits : rule.run input = .failed (.incomplete (some needed))) {later : Bytes}
    (fewer : later.length < needed) :
    rule.run (input ++ later) = .failed (.incomplete (some (needed - later.length))) := by
  have persists := stable input later
  rw [waits] at persists
  exact persists.2 fewer

/-- A rule that never counts missing bytes is stable as soon as its matches and refusals are. -/
theorem stable_of_uncounted {rule : Rule α}
    (matchedAppend : ∀ {input rest : Bytes} {value : α}, rule.run input = .matched value rest →
      ∀ later, rule.run (input ++ later) = .matched value (rest ++ later))
    (malformedAppend : ∀ {input : Bytes}, rule.run input = .failed .malformed →
      ∀ later, rule.run (input ++ later) = .failed .malformed)
    (uncounted : ∀ {input : Bytes} {needed : Option Nat},
      rule.run input = .failed (.incomplete needed) → needed = none) : rule.Stable := by
  intro input later
  cases answer : rule.run input with
  | matched value rest => exact matchedAppend answer later
  | failed failure =>
    cases failure with
    | malformed => exact malformedAppend answer later
    | incomplete needed =>
      rw [uncounted answer]
      trivial

/-! ## Single tokens -/

theorem stable_pure (value : α) : (pure value : Rule α).Stable := fun _ _ => rfl

theorem stable_reject : (reject : Rule α).Stable := fun _ _ => rfl

/-- A word that is neither a prefix nor an extension of the input differs from it at some byte. -/
private theorem not_prefix_append {literal input : Bytes} (notPrefix : ¬ literal <+: input)
    (notExtension : ¬ input <+: literal) (later : Bytes) :
    ¬ literal <+: input ++ later ∧ ¬ input ++ later <+: literal := by
  constructor
  · intro isPrefix
    rcases List.prefix_or_prefix_of_prefix isPrefix (List.prefix_append input later) with
      shorter | longer
    · exact notPrefix shorter
    · exact notExtension longer
  · intro isPrefix
    exact notExtension ((List.prefix_append input later).trans isPrefix)

theorem stable_word (literal : Bytes) : (word literal).Stable := by
  apply stable_of_uncounted
  · intro input rest value wordMatch later
    obtain ⟨rfl, rfl⟩ := run_word_eq_matched_iff.mp wordMatch
    rw [List.append_assoc]
    exact run_word_append value (rest ++ later)
  · intro input wordFailure later
    obtain ⟨notPrefix, notExtension⟩ := run_word_eq_malformed_iff.mp wordFailure
    exact run_word_eq_malformed_iff.mpr (not_prefix_append notPrefix notExtension later)
  · intro input needed wordFailure
    exact (run_word_eq_incomplete_iff.mp wordFailure).1

theorem stable_wordAnyCase (literal : Bytes) : (wordAnyCase literal).Stable := by
  have lowerAppend : ∀ input later : Bytes,
      (input ++ later).lower = input.lower ++ later.lower := fun _ _ => List.map_append
  apply stable_of_uncounted
  · intro input rest value wordMatch later
    obtain ⟨sameLower, shape⟩ := run_wordAnyCase_eq_matched_iff.mp wordMatch
    subst shape
    exact run_wordAnyCase_eq_matched_iff.mpr ⟨sameLower, (List.append_assoc _ _ _).symm⟩
  · intro input wordFailure later
    obtain ⟨notPrefix, notExtension⟩ := run_wordAnyCase_eq_malformed_iff.mp wordFailure
    rw [run_wordAnyCase_eq_malformed_iff, lowerAppend]
    exact not_prefix_append notPrefix notExtension later.lower
  · intro input needed wordFailure
    exact (run_wordAnyCase_eq_incomplete_iff.mp wordFailure).1

theorem stable_bytesIn (member : UInt8 → Bool) : (bytesIn member).Stable := by
  apply stable_of_uncounted
  · intro input rest value runMatch later
    obtain ⟨nonempty, allMember, restOutside, shape⟩ := run_bytesIn_eq_matched_iff.mp runMatch
    subst shape
    exact run_bytesIn_eq_matched_iff.mpr
      ⟨nonempty, allMember, Bytes.append_mem_startingOutside restOutside later,
        (List.append_assoc _ _ _).symm⟩
  · intro input runFailure later
    have inputOutside := run_bytesIn_eq_malformed_iff.mp runFailure
    exact run_bytesIn_eq_malformed_iff.mpr
      (Bytes.append_mem_startingOutside inputOutside later)
  · intro input needed runFailure
    exact (run_bytesIn_eq_incomplete_iff.mp runFailure).1

theorem stable_bytesBefore (stop : UInt8 → Bool) : (bytesBefore stop).Stable := by
  apply stable_of_uncounted
  · intro input rest value textMatch later
    obtain ⟨noStop, restOutside, shape⟩ := run_bytesBefore_eq_matched_iff.mp textMatch
    subst shape
    exact run_bytesBefore_eq_matched_iff.mpr
      ⟨noStop, Bytes.append_mem_startingOutside restOutside later,
        (List.append_assoc _ _ _).symm⟩
  · intro input textFailure
    exact absurd textFailure run_bytesBefore_ne_malformed
  · intro input needed textFailure
    exact (run_bytesBefore_eq_incomplete_iff.mp textFailure).1

theorem stable_skipOptional (byte : UInt8) : (skipOptional byte).Stable := by
  intro input later
  cases input with
  | nil => trivial
  | cons next rest =>
    by_cases same : next = byte
    · subst same
      rw [List.cons_append, run_skipOptional_cons_self, run_skipOptional_cons_self]
      rfl
    · have restOutside : next :: rest ∈ Bytes.startingOutside (· == byte) :=
        Bytes.cons_mem_startingOutside (by simpa using same) rest
      rw [run_skipOptional_of_outside restOutside,
        run_skipOptional_of_outside (Bytes.append_mem_startingOutside restOutside later)]
      rfl

theorem stable_exactly (count : Nat) : (exactly count).Stable := by
  intro input later
  cases answer : (exactly count).run input with
  | matched value rest =>
    obtain ⟨sameLength, shape⟩ := run_exactly_eq_matched_iff.mp answer
    subst shape
    exact run_exactly_eq_matched_iff.mpr ⟨sameLength, (List.append_assoc _ _ _).symm⟩
  | failed failure =>
    cases failure with
    | malformed => exact absurd answer run_exactly_ne_malformed
    | incomplete needed =>
      obtain ⟨rfl, short⟩ := run_exactly_eq_incomplete_iff.mp answer
      refine ⟨by omega, fun stillShort => ?_⟩
      rw [run_exactly_eq_incomplete_iff, List.length_append, Nat.sub_sub]
      exact ⟨rfl, by omega⟩

/-! ## Sequence and choice -/

theorem Stable.bind {first : Rule α} {next : α → Rule β} (firstStable : first.Stable)
    (nextStable : ∀ value, (next value).Stable) : (first >>= next).Stable := by
  intro input later
  have persists := firstStable input later
  rw [run_bind, run_bind]
  cases firstRun : first.run input with
  | matched value rest =>
    rw [firstStable.matched_append firstRun later]
    exact nextStable value rest later
  | failed failure =>
    rw [firstRun] at persists
    cases failure with
    | malformed =>
      rw [firstStable.malformed_append firstRun later]
      rfl
    | incomplete needed =>
      exact persists.of_incomplete fun _ extended => by rw [extended]

theorem Stable.map {rule : Rule α} (stable : rule.Stable) (change : α → β) :
    (change <$> rule).Stable := by
  intro input later
  rw [run_map, run_map]
  exact (stable input later).map change

theorem Stable.accepting {rule : Rule α} (stable : rule.Stable) (accept : α → Option β) :
    (rule.accepting accept).Stable := by
  refine stable.bind fun value => ?_
  cases accept value with
  | none => exact stable_reject
  | some accepted => exact stable_pure accepted

theorem stable_expect (literal : Bytes) : (expect literal).Stable :=
  (stable_word literal).map _

theorem stable_space : space.Stable :=
  stable_expect _

theorem stable_keyword (literal : Bytes) (value : α) : (keyword literal value).Stable :=
  (stable_expect literal).bind fun _ => stable_pure value

theorem Stable.orElse {first second : Rule α} (firstStable : first.Stable)
    (secondStable : second.Stable) : (first.orElse second).Stable := by
  intro input later
  have persists := firstStable input later
  rw [run_orElse, run_orElse]
  cases firstRun : first.run input with
  | matched value rest =>
    rw [firstStable.matched_append firstRun later]
    rfl
  | failed failure =>
    rw [firstRun] at persists
    cases failure with
    | malformed =>
      rw [firstStable.malformed_append firstRun later]
      exact secondStable input later
    | incomplete needed =>
      exact persists.of_incomplete fun _ extended => by rw [extended]

theorem stable_firstOf {rules : List (Rule α)} (allStable : ∀ rule ∈ rules, rule.Stable) :
    (firstOf rules).Stable := by
  induction rules with
  | nil => exact stable_reject
  | cons rule rules inductionHypothesis =>
    have tailStable : (firstOf rules).Stable :=
      inductionHypothesis fun other member => allStable other (List.mem_cons_of_mem rule member)
    exact (allStable rule List.mem_cons_self).orElse tailStable

/-! ## Lists -/

theorem stable_items {item : Rule α} (itemStable : item.Stable) : (items item).Stable := by
  intro input later
  induction input using items_induction item with
  | malformed input answer =>
    rw [run_items_of_malformed answer,
      run_items_of_malformed (itemStable.malformed_append answer later)]
    rfl
  | incomplete input needed answer =>
    have persists := itemStable input later
    rw [answer] at persists
    rw [run_items_of_incomplete answer]
    exact persists.of_incomplete fun _ extended => run_items_of_incomplete extended
  | standstill input found rest answer notShorter =>
    have extendedMatch := itemStable.matched_append answer later
    have extendedNotShorter : ¬ (rest ++ later).length < (input ++ later).length := by
      simpa using notShorter
    rw [run_items_of_standstill answer notShorter,
      run_items_of_standstill extendedMatch extendedNotShorter]
    rfl
  | matched input found rest answer shorter inductionHypothesis =>
    have extendedMatch := itemStable.matched_append answer later
    have extendedShorter : (rest ++ later).length < (input ++ later).length := by
      simpa using shorter
    rw [run_items_of_matched answer shorter, run_items_of_matched extendedMatch extendedShorter]
    exact inductionHypothesis.map (found :: ·)

theorem stable_spacedItems {item : Rule α} (itemStable : item.Stable) :
    (spacedItems item).Stable := by
  intro input later
  induction input using spacedItems_induction item with
  | empty =>
    rw [run_spacedItems_nil]
    trivial
  | outside input inputOutside =>
    rw [run_spacedItems_of_outside inputOutside, run_spacedItems_of_outside
      (Bytes.append_mem_startingOutside inputOutside later)]
    rfl
  | malformed afterSpace answer =>
    rw [List.cons_append, run_spacedItems_of_malformed answer,
      run_spacedItems_of_malformed (itemStable.malformed_append answer later)]
    rfl
  | incomplete afterSpace needed answer =>
    have persists := itemStable afterSpace later
    rw [answer] at persists
    rw [List.cons_append, run_spacedItems_of_incomplete answer]
    exact persists.of_incomplete fun _ extended => run_spacedItems_of_incomplete extended
  | matched afterSpace found rest answer inductionHypothesis =>
    rw [List.cons_append, run_spacedItems_of_matched answer,
      run_spacedItems_of_matched (itemStable.matched_append answer later)]
    exact inductionHypothesis.map (found :: ·)

theorem stable_many {item : Rule α} (itemStable : item.Stable) : (many item).Stable :=
  itemStable.bind fun _ => (stable_items itemStable).bind fun _ => stable_pure _

theorem stable_spaced {item : Rule α} (itemStable : item.Stable) : (spaced item).Stable :=
  itemStable.bind fun _ => (stable_spacedItems itemStable).bind fun _ => stable_pure _

theorem stable_parenthesized {item : Rule α} (itemStable : item.Stable) :
    (parenthesized item).Stable :=
  (stable_expect _).bind fun _ =>
    ((stable_spaced itemStable).orElse (stable_pure [])).bind fun _ =>
      (stable_expect _).bind fun _ => stable_pure _

end Rule

end Imap
