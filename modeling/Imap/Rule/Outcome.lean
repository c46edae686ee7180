import Imap.Bytes.Basic

/-!
# Outcomes of reading

Bytes arrive in pieces, so a reader has three answers and not two. It may match, it may find that
the bytes can never match, or it may have reached the end of what has arrived before it could tell.
The last answer can carry the number of bytes that are certainly missing.
-/

namespace Imap

/-- Why a reader gave no value. -/
inductive Failure where
  /-- No continuation of the bytes can match. -/
  | malformed
  /-- More bytes are needed, at least `needed` of them when that is known. -/
  | incomplete (needed : Option Nat)
deriving DecidableEq, Repr

namespace Failure

/-- The number of missing bytes, when it is known. -/
def needed? : Failure → Option Nat
  | malformed => none
  | incomplete needed => needed

/-- The word for the kind of a failure. -/
def kindName : Failure → String
  | incomplete _ => "incomplete"
  | malformed => "syntax"

/-- The word for a kind of failure given by its number; only one and two are numbers of kinds. -/
def kindNameOfNumber (number : UInt8) : String :=
  if number = 1 then kindName (incomplete none)
  else if number = 2 then kindName malformed
  else "unknown"

end Failure

/-- What a reader answers: a value with the bytes it left over, or a failure. -/
inductive Outcome (α : Type) where
  | matched (value : α) (rest : Bytes)
  | failed (failure : Failure)
deriving DecidableEq, Repr

namespace Outcome

variable {α β : Type}

/-- Changes the value of a match. -/
def map (change : α → β) : Outcome α → Outcome β
  | matched value rest => matched (change value) rest
  | failed failure => failed failure

@[simp]
theorem map_matched (change : α → β) (value : α) (rest : Bytes) :
    (matched value rest).map change = matched (change value) rest :=
  rfl

@[simp]
theorem map_failed (change : α → β) (failure : Failure) :
    (failed failure : Outcome α).map change = failed failure :=
  rfl

theorem map_eq_matched_iff {change : α → β} {outcome : Outcome α} {value : β} {rest : Bytes} :
    outcome.map change = matched value rest ↔
      ∃ earlier, outcome = matched earlier rest ∧ change earlier = value := by
  cases outcome with
  | matched earlier left =>
    simp only [map_matched, matched.injEq]
    constructor
    · rintro ⟨rfl, rfl⟩
      exact ⟨earlier, ⟨rfl, rfl⟩, rfl⟩
    · rintro ⟨_, ⟨rfl, rfl⟩, rfl⟩
      exact ⟨rfl, rfl⟩
  | failed failure => simp

end Outcome

end Imap
