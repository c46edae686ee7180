import Imap.Rule.Token

/-!
# Rules that take at least one byte

A rule is consuming when every match leaves fewer bytes than it was given. The property passes from
the first part of a sequence to the whole, and from all members of a choice to the choice. A decoder
that repeats a consuming rule comes to an end.
-/

namespace Imap.Rule

variable {α β : Type}

/-- Every match takes at least one byte. -/
def Consuming (rule : Rule α) : Prop :=
  ∀ ⦃input rest : Bytes⦄ ⦃value : α⦄,
    rule.run input = .matched value rest → rest.length < input.length

theorem Consuming.bind {first : Rule α} (firstConsumes : first.Consuming)
    (next : α → Rule β) : (first >>= next).Consuming := by
  intro input rest value equality
  obtain ⟨middle, firstRest, firstMatch, nextMatch⟩ := run_bind_eq_matched_iff.mp equality
  have := firstConsumes firstMatch
  have := (next middle).rest_length_le nextMatch
  omega

theorem Consuming.map {rule : Rule α} (consumes : rule.Consuming) (change : α → β) :
    (change <$> rule).Consuming := by
  intro input rest value equality
  rw [run_map] at equality
  obtain ⟨earlier, ruleMatch, -⟩ := Outcome.map_eq_matched_iff.mp equality
  exact consumes ruleMatch

theorem consuming_reject : (reject : Rule α).Consuming := by
  intro input rest value equality
  cases equality

theorem Consuming.orElse {first second : Rule α} (firstConsumes : first.Consuming)
    (secondConsumes : second.Consuming) : (first.orElse second).Consuming := by
  intro input rest value equality
  rw [run_orElse] at equality
  split at equality
  · exact secondConsumes equality
  · exact firstConsumes equality

theorem consuming_firstOf {rules : List (Rule α)} (allConsume : ∀ rule ∈ rules, rule.Consuming) :
    (firstOf rules).Consuming := by
  induction rules with
  | nil => exact consuming_reject
  | cons rule rules inductionHypothesis =>
    exact (allConsume rule (by simp)).orElse
      (inductionHypothesis fun other otherMember => allConsume other (by simp [otherMember]))

theorem consuming_word {literal : Bytes} (nonempty : literal ≠ []) : (word literal).Consuming := by
  intro input rest value equality
  simp only [word] at equality
  split at equality
  · rename_i isInitial
    cases equality
    have := isInitial.length_le
    have := List.length_pos_iff.mpr nonempty
    simp only [List.length_drop]
    omega
  · split at equality <;> cases equality

theorem consuming_expect {literal : Bytes} (nonempty : literal ≠ []) :
    (expect literal).Consuming :=
  (consuming_word nonempty).map _

theorem consuming_bytesIn (member : UInt8 → Bool) : (bytesIn member).Consuming := by
  intro input rest value equality
  simp only [bytesIn] at equality
  split at equality
  · cases equality
  · rename_i next tail restEquality
    split at equality
    · cases equality
    · rename_i runNonempty
      cases equality
      have total :=
        congrArg List.length (List.takeWhile_append_dropWhile (p := member) (l := input))
      have := List.length_pos_iff.mpr runNonempty
      rw [restEquality, List.length_append] at total
      omega

end Imap.Rule
