import Mathlib.Computability.Language
import Imap.Bytes.Class

/-!
# Languages of spellings

A value of a grammar is spelled by a language, the set of the byte strings that stand for it. This
module names the languages from which grammars are put together: fixed words, words that meet a
condition, and the three kinds of lists.
-/

namespace Imap.Spelling

variable {α : Type}

/-- The one word with the given ASCII text. -/
def literally (text : String) : Language UInt8 :=
  {ascii text}

abbrev space : Language UInt8 :=
  literally " "

def wordsThat (accept : Bytes → Prop) : Language UInt8 :=
  {word | accept word}

/-- Byte strings that meet a condition and are spelled as they are. -/
def asIs (accept : Bytes → Prop) (value : Bytes) : Language UInt8 :=
  wordsThat fun word => word = value ∧ accept value

/-- One or more items with nothing between them. -/
def many (item : α → Language UInt8) : List α → Language UInt8
  | [] => 0
  | first :: others => item first * (others.map item).prod

/-- One or more items with one space between neighbours. -/
def spaced (item : α → Language UInt8) : List α → Language UInt8
  | [] => 0
  | first :: others => item first * (others.map fun other => space * item other).prod

/-- Items with one space between neighbours, in parentheses, possibly none. -/
def parenthesized (item : α → Language UInt8) : List α → Language UInt8
  | [] => literally "()"
  | first :: others => [literally "(", spaced item (first :: others), literally ")"].prod

theorem mem_singleton_mul {literal word : Bytes} {language : Language UInt8} :
    word ∈ ({literal} : Language UInt8) * language ↔
      ∃ tail ∈ language, literal ++ tail = word := by
  rw [Language.mem_mul]
  constructor
  · intro shape
    rcases shape with ⟨_, rfl, tail, isTail, same⟩
    exact ⟨tail, isTail, same⟩
  · intro shape
    rcases shape with ⟨tail, isTail, same⟩
    exact ⟨literal, rfl, tail, isTail, same⟩

@[simp]
theorem mem_literally {text : String} {word : Bytes} : word ∈ literally text ↔ word = ascii text :=
  Iff.rfl

theorem ascii_mem_literally (text : String) : ascii text ∈ literally text :=
  rfl

theorem exists_mem_literally (text : String) : ∃ word, word ∈ literally text :=
  ⟨ascii text, ascii_mem_literally text⟩

@[simp]
theorem mem_wordsThat {accept : Bytes → Prop} {word : Bytes} :
    word ∈ wordsThat accept ↔ accept word :=
  Iff.rfl

theorem mem_asIs {accept : Bytes → Prop} {value word : Bytes} :
    word ∈ asIs accept value ↔ word = value ∧ accept value :=
  Iff.rfl

/-! ## Products -/

/-- A word of a product shows that no factor is without words. -/
theorem nonempty_of_mem_prod {languages : List (Language UInt8)} {word : Bytes}
    (isWord : word ∈ languages.prod) : ∀ language ∈ languages, ∃ part, part ∈ language := by
  induction languages generalizing word with
  | nil => simp
  | cons language others inductionHypothesis =>
    rw [List.prod_cons] at isWord
    obtain ⟨part, isPart, tail, isTail, -⟩ := Language.mem_mul.mp isWord
    exact List.forall_mem_cons.mpr ⟨⟨part, isPart⟩, inductionHypothesis isTail⟩

theorem exists_mem_prod {languages : List (Language UInt8)}
    (inhabited : ∀ language ∈ languages, ∃ part, part ∈ language) :
    ∃ word, word ∈ languages.prod := by
  induction languages with
  | nil => exact ⟨[], Language.nil_mem_one⟩
  | cons language others inductionHypothesis =>
    obtain ⟨⟨part, isPart⟩, othersInhabited⟩ := List.forall_mem_cons.mp inhabited
    obtain ⟨tail, isTail⟩ := inductionHypothesis othersInhabited
    rw [List.prod_cons]
    exact ⟨part ++ tail, Language.append_mem_mul isPart isTail⟩

theorem exists_mem_literally_mul (text : String) {language : Language UInt8}
    (inhabited : ∃ tail, tail ∈ language) : ∃ word, word ∈ literally text * language := by
  obtain ⟨tail, isTail⟩ := inhabited
  exact ⟨ascii text ++ tail, Language.append_mem_mul (ascii_mem_literally text) isTail⟩

/-- Words of the factors, put together, are a word of the product. -/
theorem mem_prod_of_flatten {languages : List (Language UInt8)} {word : Bytes}
    (words : List Bytes) (same : words.flatten = word)
    (areWords : List.Forall₂ (· ∈ ·) words languages) : word ∈ languages.prod := by
  subst same
  induction areWords with
  | nil => exact Language.nil_mem_one
  | cons isWord _ inductionHypothesis =>
    rw [List.flatten_cons, List.prod_cons]
    exact Language.append_mem_mul isWord inductionHypothesis

/-! ## Lists -/

section Parts

variable {item : α → Language UInt8} {values : List α} {word : Bytes}

theorem parts_of_mem_many (areWords : word ∈ many item values) :
    values ≠ [] ∧ ∀ value ∈ values, ∃ part, part ∈ item value := by
  cases values with
  | nil => exact absurd areWords (Language.notMem_zero word)
  | cons first others =>
    have factors : ∀ language ∈ item first :: others.map item, ∃ part, part ∈ language :=
      nonempty_of_mem_prod areWords
    obtain ⟨firstPart, otherParts⟩ := List.forall_mem_cons.mp factors
    refine ⟨List.cons_ne_nil first others, List.forall_mem_cons.mpr ⟨firstPart, ?_⟩⟩
    exact List.forall_mem_map.mp otherParts

theorem parts_of_mem_spaced (areWords : word ∈ spaced item values) :
    values ≠ [] ∧ ∀ value ∈ values, ∃ part, part ∈ item value := by
  cases values with
  | nil => exact absurd areWords (Language.notMem_zero word)
  | cons first others =>
    have factors : ∀ language ∈ item first :: others.map fun other => space * item other,
        ∃ part, part ∈ language := nonempty_of_mem_prod areWords
    obtain ⟨firstPart, otherParts⟩ := List.forall_mem_cons.mp factors
    refine ⟨List.cons_ne_nil first others, List.forall_mem_cons.mpr ⟨firstPart, ?_⟩⟩
    intro other member
    obtain ⟨spacedPart, isSpaced⟩ := List.forall_mem_map.mp otherParts other member
    obtain ⟨part, isPart, -⟩ := mem_singleton_mul.mp isSpaced
    exact ⟨part, isPart⟩

theorem parts_of_mem_parenthesized (areWords : word ∈ parenthesized item values) :
    ∀ value ∈ values, ∃ part, part ∈ item value := by
  cases values with
  | nil => simp
  | cons first others =>
    obtain ⟨spacedWord, areSpaced⟩ :=
      nonempty_of_mem_prod areWords (spaced item (first :: others)) (by simp)
    exact (parts_of_mem_spaced areSpaced).2

end Parts

section Inhabited

variable {item : α → Language UInt8} {values : List α}

theorem exists_mem_many (nonempty : values ≠ [])
    (inhabited : ∀ value ∈ values, ∃ part, part ∈ item value) :
    ∃ word, word ∈ many item values := by
  cases values with
  | nil => exact absurd rfl nonempty
  | cons first others => exact exists_mem_prod (List.forall_mem_map.mpr inhabited)

theorem exists_mem_spaced (nonempty : values ≠ [])
    (inhabited : ∀ value ∈ values, ∃ part, part ∈ item value) :
    ∃ word, word ∈ spaced item values := by
  cases values with
  | nil => exact absurd rfl nonempty
  | cons first others =>
    obtain ⟨firstInhabited, othersInhabited⟩ := List.forall_mem_cons.mp inhabited
    have tailsInhabited : ∀ language ∈ others.map fun other => space * item other,
        ∃ part, part ∈ language :=
      List.forall_mem_map.mpr fun other member =>
        exists_mem_literally_mul " " (othersInhabited other member)
    exact exists_mem_prod (List.forall_mem_cons.mpr ⟨firstInhabited, tailsInhabited⟩)

end Inhabited

theorem flatMap_mem_prod {item : α → Language UInt8} {wire : α → Bytes} {values : List α}
    (areWords : ∀ value ∈ values, wire value ∈ item value) :
    values.flatMap wire ∈ (values.map item).prod := by
  induction values with
  | nil => exact Language.nil_mem_one
  | cons value others inductionHypothesis =>
    obtain ⟨isWord, othersAreWords⟩ := List.forall_mem_cons.mp areWords
    rw [List.flatMap_cons, List.map_cons, List.prod_cons]
    exact Language.append_mem_mul isWord (inductionHypothesis othersAreWords)

theorem flatMap_mem_many {item : α → Language UInt8} {wire : α → Bytes} {values : List α}
    (nonempty : values ≠ []) (areWords : ∀ value ∈ values, wire value ∈ item value) :
    values.flatMap wire ∈ many item values := by
  cases values with
  | nil => exact absurd rfl nonempty
  | cons first others => exact flatMap_mem_prod areWords

theorem joined_cons (separator : UInt8) (first : Bytes) (others : List Bytes) :
    Bytes.joined separator (first :: others) = first ++ others.flatMap (separator :: ·) := by
  induction others generalizing first with
  | nil => simp [Bytes.joined]
  | cons second others inductionHypothesis =>
    have step : Bytes.joined separator (first :: second :: others) =
        first ++ (separator :: Bytes.joined separator (second :: others)) := by
      simp [Bytes.joined, List.intercalate_cons_cons]
    rw [step, inductionHypothesis, List.flatMap_cons, List.cons_append]

theorem joined_mem_spaced {item : α → Language UInt8} {wire : α → Bytes} {values : List α}
    (nonempty : values ≠ []) (areWords : ∀ value ∈ values, wire value ∈ item value) :
    Bytes.joined Byte.space (values.map wire) ∈ spaced item values := by
  cases values with
  | nil => exact absurd rfl nonempty
  | cons first others =>
    obtain ⟨firstIsWord, othersAreWords⟩ := List.forall_mem_cons.mp areWords
    have spacedWord : ∀ other ∈ others, Byte.space :: wire other ∈ space * item other :=
      fun other member =>
        Language.append_mem_mul (ascii_mem_literally " ") (othersAreWords other member)
    have spacedWords := flatMap_mem_prod spacedWord
    rw [List.map_cons, joined_cons, List.flatMap_map]
    exact Language.append_mem_mul firstIsWord spacedWords

theorem joined_mem_parenthesized {item : α → Language UInt8} {wire : α → Bytes} {values : List α}
    (areWords : ∀ value ∈ values, wire value ∈ item value) :
    ascii "(" ++ Bytes.joined Byte.space (values.map wire) ++ ascii ")" ∈
      parenthesized item values := by
  cases values with
  | nil => rfl
  | cons first others =>
    have spacedWord := joined_mem_spaced (List.cons_ne_nil first others) areWords
    refine mem_prod_of_flatten [_, _, _] ?_ (.cons (ascii_mem_literally "(") <|
      .cons spacedWord <| .cons (ascii_mem_literally ")") .nil)
    simp

end Imap.Spelling
