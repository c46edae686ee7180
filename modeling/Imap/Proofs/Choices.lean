import Imap.Proofs.Grammar.Exclusion

/-!
# The order of alternatives

The rules of the grammar list their alternatives in an order, and a choice ends at the first one
that is not malformed, also if that one only waits for more bytes. Neither the order nor the early
end matters. No input gives two alternatives a say, except that several may wait together, and then
they wait in the same way. So a choice may be read as a set.
-/

namespace Imap

namespace Rule

variable {α : Type}

/-- What makes a list of alternatives a set of alternatives. One of them is singled out by a
rearrangement that puts it in front: the others are malformed where it matches, and malformed or
waiting in the same way where it waits. Tried in any order, the alternatives give the same
outcome. -/
structure Unordered (rules : List (Rule α)) : Prop where
  beside_matched : ∀ {chosen : Rule α} {others : List (Rule α)}, rules.Perm (chosen :: others) →
    ∀ {input rest : Bytes} {value : α}, chosen.run input = .matched value rest →
      ∀ other ∈ others, other.run input = .failed .malformed
  beside_incomplete : ∀ {chosen : Rule α} {others : List (Rule α)}, rules.Perm (chosen :: others) →
    ∀ {input : Bytes} {needed : Option Nat}, chosen.run input = .failed (.incomplete needed) →
      ∀ other ∈ others, other.run input = .failed .malformed ∨
        other.run input = .failed (.incomplete needed)
  run_reordered : ∀ {reordered : List (Rule α)}, rules.Perm reordered →
    ∀ input, (firstOf reordered).run input = (firstOf rules).run input

theorem unordered_of_pairwise_exclusive {rules : List (Rule α)}
    (exclusive : rules.Pairwise Exclusive) : Unordered rules := by
  have chosenExclusive : ∀ {chosen : Rule α} {others : List (Rule α)},
      rules.Perm (chosen :: others) → ∀ other ∈ others, chosen.Exclusive other := by
    intro chosen others isPerm
    have permExclusive := isPerm.pairwise exclusive Exclusive.symm
    exact (List.pairwise_cons.mp permExclusive).1
  constructor
  · intro chosen others isPerm input rest value chosenMatch other member
    exact (chosenExclusive isPerm other member).right_malformed chosenMatch
  · intro chosen others isPerm input needed chosenWaits other member
    exact (chosenExclusive isPerm other member).malformed_or_incomplete chosenWaits
  · intro reordered isPerm input
    rw [firstOf_perm exclusive isPerm]

end Rule

open Rule

/-- No choice of the grammar depends on the order of its alternatives. -/
theorem choices_unordered :
    Unordered Response.forms ∧ Unordered Response.untaggedForms ∧
    Unordered MailboxDatum.forms ∧ Unordered Attribute.forms ∧
    Unordered ResponseCode.forms ∧ Unordered Status.forms ∧
    Unordered Flag.permanentForms ∧ Unordered Flag.forms ∧
    Unordered NullableString.forms ∧ Unordered AddressList.forms ∧
    Unordered ByteString.forms := by
  refine ⟨?_, ?_, ?_, ?_, ?_, ?_, ?_, ?_, ?_, ?_, ?_⟩
  · exact unordered_of_pairwise_exclusive Response.exclusive_forms
  · exact unordered_of_pairwise_exclusive Response.exclusive_untaggedForms
  · exact unordered_of_pairwise_exclusive MailboxDatum.exclusive_forms
  · exact unordered_of_pairwise_exclusive Attribute.exclusive_forms
  · exact unordered_of_pairwise_exclusive ResponseCode.exclusive_forms
  · exact unordered_of_pairwise_exclusive Status.exclusive_forms
  · exact unordered_of_pairwise_exclusive Flag.exclusive_permanentForms
  · exact unordered_of_pairwise_exclusive Flag.exclusive_forms
  · exact unordered_of_pairwise_exclusive NullableString.exclusive_forms
  · exact unordered_of_pairwise_exclusive AddressList.exclusive_forms
  · exact unordered_of_pairwise_exclusive ByteString.exclusive_forms

end Imap
