import Imap.Proofs.Rule.Counting
import Imap.Proofs.Rule.Exclusion

/-!
# Rules that do not look at the bytes they count

A rule that knows how many bytes are missing takes them whatever they are. To say so, the runs on
all strings of the counted length are compared at once. They fail in one way, or they match, leave
the same bytes and give the same value but for one string, which the counted bytes complete. The
places where that string may stand are slots: a slot is a value with one string left open.

A list is the exception. Its item may be malformed behind the counted bytes; then the list ends in
front of that item, and the bytes that it leaves unread are not the same in all runs. But the word
that closes the list refuses each of them, so a list with its closing word is blind again.
-/

namespace Imap.Rule

variable {α β γ : Type} {slot : (Bytes → α) → Prop} {target : (Bytes → β) → Prop}

/-- Bytes that are missing behind the input complete a string that has begun there. Neither the
failure nor what a match leaves nor the rest of its value depends on them. -/
def BlindAt (rule : Rule α) (slot : (Bytes → α) → Prop) (input : Bytes) (needed : Nat) : Prop :=
  ∀ later,
    (∃ failure, ∀ body : Bytes, body.length = needed →
      rule.run (input ++ (body ++ later)) = .failed failure) ∨
    ∃ held fill rest, held <:+ input ∧ slot fill ∧ ∀ body : Bytes, body.length = needed →
      rule.run (input ++ (body ++ later)) = .matched (fill (held ++ body)) rest

/-- The rule does not look at missing bytes that it counts. -/
def Blind (rule : Rule α) (slot : (Bytes → α) → Prop) : Prop :=
  ∀ ⦃input needed⦄, rule.run input = .failed (.incomplete (some needed)) →
    rule.BlindAt slot input needed

/-- A rule made from a text fails or matches alike for every text, which fills a slot of its
value. -/
def Fills (rule : Bytes → Rule β) (target : (Bytes → β) → Prop) : Prop :=
  ∀ input, (∃ failure, ∀ text, (rule text).run input = .failed failure) ∨
    ∃ fill rest, target fill ∧ ∀ text, (rule text).run input = .matched (fill text) rest

/-! ## Rules behind the string -/

theorem fills_pure {fill : Bytes → β} (isSlot : target fill) :
    Fills (fun text => pure (fill text)) target :=
  fun input => Or.inr ⟨fill, input, isSlot, fun _ => rfl⟩

theorem fills_bind {first : Rule α} {next : Bytes → α → Rule β}
    (nextFills : ∀ value, Fills (fun text => next text value) target) :
    Fills (fun text => first >>= next text) target := by
  intro input
  cases answer : first.run input with
  | matched value rest =>
    have goesOn : ∀ text, (first >>= next text).run input = (next text value).run rest :=
      fun text => run_bind_matched answer (next text)
    simpa only [goesOn] using nextFills value rest
  | failed failure => exact Or.inl ⟨failure, fun text => run_bind_failed answer (next text)⟩

theorem fills_spaced_field {first : Rule α} {next : Bytes → α → Rule β}
    (nextFills : ∀ value, Fills (fun text => next text value) target) :
    Fills (fun text => do
      let value ← first
      space
      next text value) target :=
  fills_bind fun value => fills_bind fun _ => nextFills value

theorem fills_closed {rule : Rule α} {literal : Bytes} {wrap : Bytes → α → β}
    (wrapped : ∀ value, target fun text => wrap text value) :
    Fills (fun text => do
      let value ← rule
      expect literal
      pure (wrap text value)) target :=
  fills_bind fun value => fills_bind fun _ => fills_pure (wrapped value)

/-! ## Rules around a blind part -/

/-- A rule that runs like a blind one on a part of its input is blind. -/
theorem BlindAt.behind {whole part : Rule α} {input rest : Bytes} {needed : Nat}
    (partBlind : part.BlindAt slot rest needed) (isSuffix : rest <:+ input)
    (goesOn : ∀ more, whole.run (input ++ more) = part.run (rest ++ more)) :
    whole.BlindAt slot input needed := by
  intro later
  simp only [goesOn]
  rcases partBlind later with fails | ⟨held, fill, left, inRest, isSlot, isMatch⟩
  · exact Or.inl fails
  · exact Or.inr ⟨held, fill, left, inRest.trans isSuffix, isSlot, isMatch⟩

/-- A rule that fails with a blind part, and goes on from what the part leaves, is blind. -/
theorem BlindAt.followed {whole : Rule β} {part : Rule α} {input rest : Bytes} {needed : Nat}
    (partBlind : part.BlindAt slot rest needed) (isSuffix : rest <:+ input) (next : α → Rule β)
    (onFailure : ∀ more failure, part.run (rest ++ more) = .failed failure →
      whole.run (input ++ more) = .failed failure)
    (onMatch : ∀ more value left, part.run (rest ++ more) = .matched value left →
      whole.run (input ++ more) = (next value).run left)
    (filled : ∀ fill, slot fill → Fills (fun text => next (fill text)) target) :
    whole.BlindAt target input needed := by
  intro later
  rcases partBlind later with ⟨failure, fails⟩ | ⟨held, fill, left, inRest, isSlot, isMatch⟩
  · exact Or.inl ⟨failure, fun body isAll => onFailure _ _ (fails body isAll)⟩
  · have goesOn : ∀ body : Bytes, body.length = needed →
        whole.run (input ++ (body ++ later)) = (next (fill (held ++ body))).run left :=
      fun body isAll => onMatch _ _ _ (isMatch body isAll)
    rcases filled fill isSlot left with ⟨failure, fails⟩ | ⟨outer, rest, isTarget, nextMatch⟩
    · exact Or.inl ⟨failure, fun body isAll => (goesOn body isAll).trans (fails _)⟩
    · exact Or.inr ⟨held, outer, rest, inRest.trans isSuffix, isTarget, fun body isAll =>
        (goesOn body isAll).trans (nextMatch _)⟩

/-! ## Tokens -/

theorem blind_exactly (count : Nat) : (exactly count).Blind (· = id) := by
  intro input needed waits later
  obtain ⟨isMissing, isShort⟩ := run_exactly_eq_incomplete_iff.mp waits
  have isMissing := Option.some.inj isMissing
  refine Or.inr ⟨input, id, later, List.suffix_rfl, rfl, fun body isAll => ?_⟩
  refine run_exactly_eq_matched_iff.mpr ⟨?_, List.append_assoc input body later⟩
  rw [id_eq, List.length_append]
  omega

/-- The shortage of rules that never count. -/
def Shortage.never : Shortage where
  inputs _ := ∅
  absorbing _ _ _ isShort := isShort.elim

theorem Counts.blind {rule : Rule α} (counts : rule.Counts .never) : rule.Blind slot :=
  fun _ _ waits => (counts.counted waits).announced.elim

theorem blind_keyword (literal : Bytes) (value : α) : (keyword literal value).Blind slot :=
  fun _ _ waits => absurd waits run_keyword_ne_counted

/-! ## Sequences -/

theorem Blind.bind {first : Rule α} {next : α → Rule β} (firstBlind : first.Blind slot)
    (stable : first.Stable)
    (filled : ∀ fill, slot fill → Fills (fun text => next (fill text)) target)
    (nextBlind : ∀ value, (next value).Blind target) : (first >>= next).Blind target := by
  intro input needed waits
  rcases run_bind_eq_failed_iff.mp waits with firstWaits | ⟨value, left, firstMatch, nextWaits⟩
  · exact (firstBlind firstWaits).followed List.suffix_rfl next
      (fun _ _ fails => run_bind_failed fails next)
      (fun _ _ _ isMatch => run_bind_matched isMatch next) filled
  · -- The first part has matched, and bytes behind the input do not change that.
    exact (nextBlind value nextWaits).behind (first.rest_suffix firstMatch) fun more =>
      run_bind_matched (stable.matched_append firstMatch more) next

/-- A part that never counts has matched when a later part counts. -/
theorem Blind.after {first : Rule α} {next : α → Rule β}
    (notCounted : first.Blind fun _ => False) (stable : first.Stable)
    (nextBlind : ∀ value, (next value).Blind target) : (first >>= next).Blind target :=
  notCounted.bind stable (fun _ isSlot => isSlot.elim) nextBlind

theorem Blind.after_expect {next : Unit → Rule β} {literal : Bytes}
    (nextBlind : (next ()).Blind target) : (expect literal >>= next).Blind target :=
  Blind.after (fun _ _ waits => absurd waits run_expect_ne_counted) (stable_expect literal)
    fun _ => nextBlind

theorem Blind.map {rule : Rule α} (blind : rule.Blind slot) (stable : rule.Stable)
    {change : α → β} (changed : ∀ fill, slot fill → target fun text => change (fill text)) :
    (change <$> rule).Blind target :=
  blind.bind stable (fun fill isSlot => fills_pure (changed fill isSlot)) fun _ =>
    (counts_pure _).blind

theorem Blind.announced {rule : Rule α} (blind : rule.Blind slot) (stable : rule.Stable)
    {wrap : α → β} (wrapped : ∀ fill, slot fill → target fun text => wrap (fill text))
    {literal : Bytes} :
    (do
      expect literal
      let value ← rule
      pure (wrap value)).Blind target :=
  Blind.after_expect (blind.map stable wrapped)

theorem Blind.closed {rule : Rule α} (blind : rule.Blind slot) (stable : rule.Stable)
    {wrap : α → β} (wrapped : ∀ fill, slot fill → target fun text => wrap (fill text))
    {literal : Bytes} :
    (do
      let value ← rule
      expect literal
      pure (wrap value)).Blind target :=
  blind.bind stable (fun fill isSlot => fills_bind fun _ => fills_pure (wrapped fill isSlot))
    fun value => blind_keyword literal (wrap value)

theorem Blind.spaced_field {first : Rule α} {next : α → Rule β} (blind : first.Blind slot)
    (stable : first.Stable)
    (filled : ∀ fill, slot fill → Fills (fun text => next (fill text)) target)
    (nextBlind : ∀ value, (next value).Blind target) :
    (do
      let value ← first
      space
      next value).Blind target :=
  blind.bind stable (fun fill isSlot => fills_bind fun _ => filled fill isSlot)
    fun value => Blind.after_expect (nextBlind value)

/-! ## Choices -/

/-- If the first rule turns out to be malformed behind the counted bytes, the second one is so too,
or it counted the same bytes and does not look at them either. -/
theorem Blind.orElse {first second : Rule α} (firstBlind : first.Blind slot)
    (firstStable : first.Stable) (secondBlind : second.Blind slot) (secondStable : second.Stable)
    (exclusive : first.Exclusive second) : (first.orElse second).Blind slot := by
  intro input needed waits
  rcases run_orElse_eq_incomplete_iff.mp waits with firstWaits | ⟨firstFails, secondWaits⟩
  · intro later
    rcases firstBlind firstWaits later with
      ⟨failure, fails⟩ | ⟨held, fill, rest, isSuffix, isSlot, isMatch⟩
    · cases failure with
      | malformed =>
        have secondDecides : ∀ body : Bytes, body.length = needed →
            (first.orElse second).run (input ++ (body ++ later)) =
              second.run (input ++ (body ++ later)) := by
          intro body isAll
          rw [run_orElse, fails body isAll]
        rcases exclusive input with firstFails | secondFails | ⟨count, firstCounts, secondCounts⟩
        · rw [firstWaits] at firstFails
          cases firstFails
        · refine Or.inl ⟨.malformed, fun body isAll => ?_⟩
          rw [secondDecides body isAll]
          exact secondStable.malformed_append secondFails (body ++ later)
        · rw [firstWaits] at firstCounts
          cases firstCounts
          refine (secondBlind secondCounts later).imp ?_ ?_
          · rintro ⟨failure, secondFails⟩
            exact ⟨failure, fun body isAll =>
              (secondDecides body isAll).trans (secondFails body isAll)⟩
          · rintro ⟨held, fill, rest, isSuffix, isSlot, isMatch⟩
            exact ⟨held, fill, rest, isSuffix, isSlot, fun body isAll =>
              (secondDecides body isAll).trans (isMatch body isAll)⟩
      | incomplete count =>
        refine Or.inl ⟨.incomplete count, fun body isAll => ?_⟩
        exact run_orElse_eq_incomplete_iff.mpr (Or.inl (fails body isAll))
    · refine Or.inr ⟨held, fill, rest, isSuffix, isSlot, fun body isAll => ?_⟩
      exact run_orElse_eq_matched_iff.mpr (Or.inl (isMatch body isAll))
  · refine (secondBlind secondWaits).behind List.suffix_rfl fun more => ?_
    rw [run_orElse, firstStable.malformed_append firstFails more]

theorem blind_firstOf {rules : List (Rule α)} (exclusive : rules.Pairwise Exclusive)
    (allStable : ∀ rule ∈ rules, rule.Stable) (allBlind : ∀ rule ∈ rules, rule.Blind slot) :
    (firstOf rules).Blind slot := by
  induction rules with
  | nil => exact fun _ _ waits => nomatch waits
  | cons rule others inductionHypothesis =>
    obtain ⟨headExclusive, othersExclusive⟩ := List.pairwise_cons.mp exclusive
    obtain ⟨headStable, othersStable⟩ := List.forall_mem_cons.mp allStable
    obtain ⟨headBlind, othersBlind⟩ := List.forall_mem_cons.mp allBlind
    have othersExclude : (firstOf others).Exclusive rule :=
      exclusive_firstOf fun other isOther => (headExclusive other isOther).symm
    exact headBlind.orElse headStable
      (inductionHypothesis othersExclusive othersStable othersBlind)
      (stable_firstOf othersStable) othersExclude.symm

/-! ## Lists with their closing word -/

/-- A list with one open string in one of its entries. -/
inductive EntrySlot (slot : (Bytes → α) → Prop) : (Bytes → List α) → Prop
  | entry (before : List α) {fill : Bytes → α} (isSlot : slot fill) (after : List α) :
      EntrySlot slot fun text => before ++ fill text :: after

theorem EntrySlot.cons {fill : Bytes → List α} (isSlot : EntrySlot slot fill) (value : α) :
    EntrySlot slot fun text => value :: fill text := by
  rcases isSlot with ⟨before, isSlot, after⟩
  exact .entry (value :: before) isSlot after

section Lists

variable {item : Rule α} {literal : Bytes}

private theorem bind_bind (first : Rule α) (next : α → Rule β) (last : β → Rule γ) :
    (first >>= next) >>= last = first >>= fun value => next value >>= last := by
  ext input
  rw [run_bind, run_bind, run_bind]
  cases first.run input with
  | matched value rest => rfl
  | failed failure => rfl

private theorem run_items_bind_of_matched {input rest : Bytes} {value : α}
    (itemMatch : item.run input = .matched value rest) (shorter : rest.length < input.length)
    (next : List α → Rule β) :
    (items item >>= next).run input =
      (items item >>= fun values => next (value :: values)).run rest := by
  rw [run_bind, run_bind, run_items_of_matched itemMatch shorter]
  cases (items item).run rest with
  | matched values left => rfl
  | failed failure => rfl

private theorem run_spacedItems_bind_of_matched {afterSpace rest : Bytes} {value : α}
    (itemMatch : item.run afterSpace = .matched value rest) (next : List α → Rule β) :
    (spacedItems item >>= next).run (Byte.space :: afterSpace) =
      (spacedItems item >>= fun values => next (value :: values)).run rest := by
  rw [run_bind, run_bind, run_spacedItems_of_matched itemMatch]
  cases (spacedItems item).run rest with
  | matched values left => rfl
  | failed failure => rfl

/-- A word that excludes a rule is refused where the rule counts. -/
private theorem run_expect_of_counted {input : Bytes} {needed : Nat}
    (exclusive : item.Exclusive (expect literal))
    (waits : item.run input = .failed (.incomplete (some needed))) :
    (expect literal).run input = .failed .malformed := by
  rcases exclusive input with itemFails | literalFails | ⟨count, itemCounts, literalCounts⟩
  · rw [waits] at itemFails
    cases itemFails
  · exact literalFails
  · rw [waits] at itemCounts
    cases itemCounts
    exact absurd literalCounts run_expect_ne_counted

/-- Items and the word that closes them. If an item is malformed behind the bytes it counted, the
items end in front of it, and there the word cannot stand. -/
private theorem blind_items_closed (itemBlind : item.Blind slot) (stable : item.Stable)
    (consuming : item.Consuming) (exclusive : item.Exclusive (expect literal))
    {wrap : List α → β}
    (wrapped : ∀ fill, EntrySlot slot fill → target fun text => wrap (fill text)) :
    (items item >>= fun values => keyword literal (wrap values)).Blind target := by
  intro input needed waits
  induction input using items_induction item generalizing wrap with
  | malformed input answer =>
    rw [run_bind_matched (run_items_of_malformed answer)] at waits
    exact absurd waits run_keyword_ne_counted
  | incomplete input itemNeeded answer =>
    rw [run_bind_failed (run_items_of_incomplete answer)] at waits
    cases waits
    refine (itemBlind answer).followed List.suffix_rfl
      (fun value => items item >>= fun values => keyword literal (wrap (value :: values))) ?_ ?_ ?_
    · intro more failure fails
      cases failure with
      | malformed =>
        have noClosing := (stable_expect literal).malformed_append
          (run_expect_of_counted exclusive answer) more
        rw [run_bind_matched (run_items_of_malformed fails)]
        exact run_bind_failed noClosing _
      | incomplete count => exact run_bind_failed (run_items_of_incomplete fails) _
    · intro more value left isMatch
      exact run_items_bind_of_matched isMatch (consuming isMatch) _
    · intro fill isSlot
      exact fills_closed fun values => wrapped _ (.entry [] isSlot values)
  | standstill input value rest answer notShorter =>
    exact absurd (consuming answer) notShorter
  | matched input value rest answer shorter inductionHypothesis =>
    have goesOn : ∀ more,
        (items item >>= fun values => keyword literal (wrap values)).run (input ++ more) =
          (items item >>= fun values => keyword literal (wrap (value :: values))).run
            (rest ++ more) := by
      intro more
      have itemMatch := stable.matched_append answer more
      exact run_items_bind_of_matched itemMatch (consuming itemMatch) _
    rw [run_items_bind_of_matched answer shorter] at waits
    have consWrapped : ∀ fill, EntrySlot slot fill →
        target fun text => wrap (value :: fill text) :=
      fun fill isSlot => wrapped (fun text => value :: fill text) (isSlot.cons value)
    exact (inductionHypothesis consWrapped waits).behind
      (item.rest_suffix answer) goesOn

/-- The same with a space before each item, and a word that does not start with a space. -/
private theorem blind_spacedItems_closed (itemBlind : item.Blind slot) (stable : item.Stable)
    (afterSpace : ∀ rest, (expect literal).run (Byte.space :: rest) = .failed .malformed)
    {wrap : List α → β}
    (wrapped : ∀ fill, EntrySlot slot fill → target fun text => wrap (fill text)) :
    (spacedItems item >>= fun values => keyword literal (wrap values)).Blind target := by
  intro input needed waits
  induction input using spacedItems_induction item generalizing wrap with
  | empty =>
    rw [run_bind_failed run_spacedItems_nil] at waits
    cases waits
  | outside input inputOutside =>
    rw [run_bind_matched (run_spacedItems_of_outside inputOutside)] at waits
    exact absurd waits run_keyword_ne_counted
  | malformed rest answer =>
    rw [run_bind_matched (run_spacedItems_of_malformed answer)] at waits
    exact absurd waits run_keyword_ne_counted
  | incomplete rest itemNeeded answer =>
    rw [run_bind_failed (run_spacedItems_of_incomplete answer)] at waits
    cases waits
    refine (itemBlind answer).followed (List.suffix_cons _ _)
      (fun value => spacedItems item >>= fun values => keyword literal (wrap (value :: values)))
      ?_ ?_ ?_
    · intro more failure fails
      cases failure with
      | malformed =>
        rw [List.cons_append, run_bind_matched (run_spacedItems_of_malformed fails)]
        exact run_bind_failed (afterSpace _) _
      | incomplete count => exact run_bind_failed (run_spacedItems_of_incomplete fails) _
    · intro more value left isMatch
      exact run_spacedItems_bind_of_matched isMatch _
    · intro fill isSlot
      exact fills_closed fun values => wrapped _ (.entry [] isSlot values)
  | matched rest value left answer inductionHypothesis =>
    have goesOn : ∀ more,
        (spacedItems item >>= fun values => keyword literal (wrap values)).run
            (Byte.space :: rest ++ more) =
          (spacedItems item >>= fun values => keyword literal (wrap (value :: values))).run
            (left ++ more) :=
      fun more => run_spacedItems_bind_of_matched (stable.matched_append answer more) _
    rw [run_spacedItems_bind_of_matched answer] at waits
    have consWrapped : ∀ fill, EntrySlot slot fill →
        target fun text => wrap (value :: fill text) :=
      fun fill isSlot => wrapped (fun text => value :: fill text) (isSlot.cons value)
    exact (inductionHypothesis consWrapped waits).behind
      ((item.rest_suffix answer).trans (List.suffix_cons _ _)) goesOn

private theorem many_bind (next : List α → Rule β) :
    many item >>= next =
      item >>= fun first => items item >>= fun others => next (first :: others) := by
  rw [many, bind_bind]
  exact congrArg (item >>= ·) (funext fun first => bind_bind _ _ next)

private theorem spaced_bind (next : List α → Rule β) :
    spaced item >>= next =
      item >>= fun first => spacedItems item >>= fun others => next (first :: others) := by
  rw [spaced, bind_bind]
  exact congrArg (item >>= ·) (funext fun first => bind_bind _ _ next)

theorem Blind.many_closed (itemBlind : item.Blind slot) (stable : item.Stable)
    (consuming : item.Consuming) (exclusive : item.Exclusive (expect literal)) :
    (do
      let values ← many item
      expect literal
      pure values).Blind (EntrySlot slot) := by
  rw [many_bind]
  refine itemBlind.bind stable (fun fill isSlot => ?_) fun first => ?_
  · exact fills_closed fun others => .entry [] isSlot others
  · exact blind_items_closed itemBlind stable consuming exclusive fun _ isSlot => isSlot.cons first

theorem Blind.spaced_closed (itemBlind : item.Blind slot) (stable : item.Stable)
    (afterSpace : ∀ rest, (expect literal).run (Byte.space :: rest) = .failed .malformed) :
    (do
      let values ← spaced item
      expect literal
      pure values).Blind (EntrySlot slot) := by
  rw [spaced_bind]
  refine itemBlind.bind stable (fun fill isSlot => ?_) fun first => ?_
  · exact fills_closed fun others => .entry [] isSlot others
  · exact blind_spacedItems_closed itemBlind stable afterSpace fun _ isSlot => isSlot.cons first

end Lists

end Imap.Rule
