import Imap.Proofs.Grammar.FetchReading
import Imap.Proofs.Grammar.Stability
import Imap.Proofs.Rule.Steps

/-!
# Rules that may be run on a growing buffer

A reader of a stream runs its rules again and again on a buffer that grows. It may rely on their
answers if more bytes take back neither a match nor a refusal, and if a count of missing bytes is
right for as long as fewer have come. The ways of building rules keep this for any parts whatever,
so a grammar is sound as soon as its tokens are.
-/

namespace Imap

namespace Rule

variable {α : Type}

/-- What may be relied on while the input grows. A match leaves the end of the input and is found
again in front of further bytes, which it leaves as well; a refusal is final; a count of missing
bytes is positive and goes down with each byte that comes. -/
structure Sound (rule : Rule α) : Prop where
  matched : ∀ {input rest : Bytes} {value : α}, rule.run input = .matched value rest →
    rest <:+ input ∧ ∀ later, rule.run (input ++ later) = .matched value (rest ++ later)
  malformed : ∀ {input : Bytes}, rule.run input = .failed .malformed →
    ∀ later, rule.run (input ++ later) = .failed .malformed
  counted : ∀ {input : Bytes} {needed : Nat},
    rule.run input = .failed (.incomplete (some needed)) →
      1 ≤ needed ∧ ∀ later : Bytes, later.length < needed →
        rule.run (input ++ later) = .failed (.incomplete (some (needed - later.length)))

theorem sound_iff_stable {rule : Rule α} : rule.Sound ↔ rule.Stable := by
  constructor
  · intro sound input later
    cases answer : rule.run input with
    | matched value rest => exact (sound.matched answer).2 later
    | failed failure =>
      cases failure with
      | malformed => exact sound.malformed answer later
      | incomplete needed =>
        cases needed with
        | none => trivial
        | some count =>
          obtain ⟨positive, countsDown⟩ := sound.counted answer
          exact ⟨positive, countsDown later⟩
  · intro stable
    constructor
    · intro input rest value answer
      exact ⟨rule.rest_suffix answer, stable.matched_append answer⟩
    · intro input answer
      exact stable.malformed_append answer
    · intro input needed answer
      exact ⟨stable.needed_pos answer, fun later fewer => stable.incomplete_append answer fewer⟩

/-- Choices, lists and sequences of sound rules are sound, and so are words and runs of bytes. Items
without separators are asked to take a byte each, since a list of them would not end otherwise. -/
theorem combinators_sound (α β : Type) :
    (∀ rules : List (Rule α), (∀ rule ∈ rules, rule.Sound) → (firstOf rules).Sound) ∧
    (∀ item : Rule α, item.Sound → (spaced item).Sound ∧ (parenthesized item).Sound) ∧
    (∀ item : Rule α, item.Sound → item.Consuming → (many item).Sound) ∧
    (∀ (steps : List (Step α)) (finish : List α → β),
      (∀ rule, Step.apply rule ∈ steps → rule.Sound) → (finish <$> ofSteps steps).Sound) ∧
    (∀ literal : Bytes, (word literal).Sound ∧ (wordAnyCase literal).Sound) ∧
    ∀ member : UInt8 → Bool, (bytesIn member).Sound ∧ (bytesBefore member).Sound := by
  simp only [sound_iff_stable]
  refine ⟨?_, ?_, ?_, ?_, ?_, ?_⟩
  · intro rules allStable
    exact stable_firstOf allStable
  · intro item itemStable
    exact ⟨stable_spaced itemStable, stable_parenthesized itemStable⟩
  · intro item itemStable _
    exact stable_many itemStable
  · intro steps finish allStable
    exact (stable_ofSteps allStable).map finish
  · intro literal
    exact ⟨stable_word literal, stable_wordAnyCase literal⟩
  · intro member
    exact ⟨stable_bytesIn member, stable_bytesBefore member⟩

/-- The two forms of a nullable string, a list of flags, the addresses of a group, and a sequence of
a string in parentheses. -/
theorem combinators_sound_strings :
    (∀ form ∈ NullableString.forms, form.Sound) ∧ Flag.rule.Sound ∧
    Address.rule.Sound ∧ Address.rule.Consuming ∧
    (firstOf NullableString.forms).Sound ∧ (spaced Flag.rule).Sound ∧ (many Address.rule).Sound ∧
    (List.length <$> ofSteps [.expect (ascii "("), .apply NullableString.rule,
      .expect (ascii ")")]).Sound := by
  have formsSound : ∀ form ∈ NullableString.forms, form.Sound :=
    fun form member => sound_iff_stable.mpr (NullableString.stable_forms form member)
  have flagSound : Flag.rule.Sound := sound_iff_stable.mpr Flag.stable_rule
  have addressSound : Address.rule.Sound := sound_iff_stable.mpr Address.stable_rule
  have addressConsumes : Address.rule.Consuming := Address.consuming_rule
  obtain ⟨ofForms, -, -, inSequence, -⟩ := combinators_sound (Option Bytes) Nat
  obtain ⟨-, inList, -⟩ := combinators_sound Bytes Bytes
  obtain ⟨-, -, inGroup, -⟩ := combinators_sound Address Address
  refine ⟨formsSound, flagSound, addressSound, addressConsumes, ofForms _ formsSound,
    (inList _ flagSound).1, inGroup _ addressSound addressConsumes, ?_⟩
  apply inSequence
  intro rule member
  simp only [List.mem_cons, Step.apply.injEq, reduceCtorEq, List.not_mem_nil, or_false,
    false_or] at member
  rw [member]
  exact sound_iff_stable.mpr NullableString.stable_rule

end Rule

end Imap
