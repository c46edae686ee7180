import Imap.Proofs.Decoding
import Imap.Proofs.Image

/-!
# Condition lines

Whatever stands behind a status word, up to the end of the line, is a remark. If a known code starts
it, the remark has that code and the text behind it; otherwise the whole of it is text, also where a
bracket is unknown, broken or never closed. So a condition line is always accepted, with a tag or
with a star in front, and its remark keeps every byte but the one space behind a code.
-/

namespace Imap

open Spelling

namespace Remark

/-- What is left of the bytes behind a code when the space that separates them is dropped. -/
def behindCode (rest : Bytes) : Bytes :=
  if [Byte.space] <+: rest then rest.tail else rest

variable {line rest : Bytes}

theorem mem_afterCodeSpelling (onLine : ∀ byte ∈ rest, Byte.isLineEnd byte = false) :
    rest ∈ afterCodeSpelling (presentText (behindCode rest)) := by
  by_cases spaceFirst : [Byte.space] <+: rest
  · rcases spaceFirst with ⟨text, shape⟩
    subst shape
    have textOnLine : ∀ byte ∈ text, Byte.isLineEnd byte = false :=
      fun byte isIn => onLine byte (List.mem_append_right _ isIn)
    have isText : text ∈ FreeText.spelling (presentText text) :=
      FreeText.mem_spelling_iff.mpr ⟨rfl, textOnLine⟩
    have dropped : behindCode ([Byte.space] ++ text) = text := by
      simp [behindCode]
    rw [dropped]
    exact Or.inl (Language.append_mem_mul (ascii_mem_literally " ") isText)
  · rw [behindCode, if_neg spaceFirst]
    exact Or.inr ⟨FreeText.mem_spelling_iff.mpr ⟨rfl, onLine⟩, spaceFirst⟩

theorem mem_spelling_of_code {code : ResponseCode} {bracket : Bytes}
    (isCode : bracket ∈ code.spelling) (onLine : ∀ byte ∈ rest, Byte.isLineEnd byte = false) :
    bracket ++ rest ∈
      spelling { code := some code, text := presentText (behindCode rest) } :=
  Language.append_mem_mul isCode (mem_afterCodeSpelling onLine)

theorem mem_spelling_of_text (noCode : ¬ ResponseCode.Starts line)
    (onLine : ∀ byte ∈ line, Byte.isLineEnd byte = false) :
    line ∈ spelling { code := none, text := presentText line } :=
  ⟨FreeText.mem_spelling_iff.mpr ⟨rfl, onLine⟩, noCode⟩

/-- Every line spells a remark. -/
theorem exists_spelled (onLine : ∀ byte ∈ line, Byte.isLineEnd byte = false) :
    ∃ remark : Remark, line ∈ remark.spelling := by
  by_cases starts : ResponseCode.Starts line
  · rcases starts with ⟨code, bracket, isCode, rest, shape⟩
    subst shape
    have restOnLine : ∀ byte ∈ rest, Byte.isLineEnd byte = false :=
      fun byte isIn => onLine byte (List.mem_append_right bracket isIn)
    exact ⟨_, mem_spelling_of_code isCode restOnLine⟩
  · exact ⟨_, mem_spelling_of_text starts onLine⟩

/-- No line spells two remarks, since the rule for remarks finds the one it spells. -/
theorem eq_of_mem_spelling {left right : Remark} (isLeft : line ∈ left.spelling)
    (isRight : line ∈ right.spelling) : left = right := by
  have lineEnd := crlf_append_mem_lineEnds []
  have leftMatch := reads_rule.complete (Set.mem_univ left) isLeft lineEnd
  have rightMatch := reads_rule.complete (Set.mem_univ right) isRight lineEnd
  rw [leftMatch] at rightMatch
  cases rightMatch
  rfl

end Remark

variable {status : Status} {remark : Remark} {tag word line : Bytes}

theorem Condition.mem_spelling (isWord : word ∈ status.spelling)
    (isRemark : line ∈ remark.spelling) :
    word ++ [Byte.space] ++ line ∈ Condition.spelling { status := status, remark := remark } := by
  refine mem_prod_of_flatten [_, _, _] ?_
    (.cons isWord <| .cons (ascii_mem_literally " ") <| .cons isRemark .nil)
  simp
  rfl

theorem Response.mem_spelling_done {condition : Condition} (isTag : Response.IsTag tag)
    (isCondition : line ∈ condition.spelling) :
    tag ++ [Byte.space] ++ line ++ Bytes.crlf ∈ Response.spelling (.done tag condition) := by
  have tagMem : tag ∈ asIs Response.IsTag tag := ⟨rfl, isTag⟩
  refine mem_prod_of_flatten [_, _, _, _] ?_ (.cons tagMem <| .cons (ascii_mem_literally " ") <|
    .cons isCondition <| .cons (ascii_mem_literally "\r\n") .nil)
  simp
  rfl

theorem Response.mem_spelling_data {condition : Condition}
    (isCondition : line ∈ condition.spelling) :
    Response.untaggedMark ++ line ++ Bytes.crlf ∈ Response.spelling (.data condition) := by
  refine mem_prod_of_flatten [_, _, _] ?_ (.cons (ascii_mem_literally "* ") <|
    .cons isCondition <| .cons (ascii_mem_literally "\r\n") .nil)
  simp
  rfl

/-- A status word, a space and further bytes, behind some first bytes and up to a line end. -/
def conditionLine (front word line : Bytes) : Bytes :=
  front ++ (word ++ [Byte.space] ++ line) ++ Bytes.crlf

/-- A status word and any line behind it give one remark, the same with a tag in front and with a
star. A code at the start of the line is found and the text is what stands behind it; any other line
is text from its first byte to its last. -/
theorem decode_condition_line (isTag : Response.IsTag tag)
    (isWord : word.lower = status.word.lower)
    (onLine : ∀ byte ∈ line, Byte.isLineEnd byte = false) :
    ∃ remark : Remark,
      (∀ later, decode (conditionLine (tag ++ [Byte.space]) word line ++ later) =
        .ok {
          response := .done tag { status := status, remark := remark }
          consumed := (conditionLine (tag ++ [Byte.space]) word line).length }) ∧
      (∀ later, decode (conditionLine Response.untaggedMark word line ++ later) =
        .ok {
          response := .data { status := status, remark := remark }
          consumed := (conditionLine Response.untaggedMark word line).length }) ∧
      (∀ code bracket rest, bracket ∈ ResponseCode.spelling code → bracket ++ rest = line →
        remark =
          { code := some code, text := Remark.presentText (Remark.behindCode rest) }) ∧
      (¬ ResponseCode.Starts line →
        remark = { code := none, text := Remark.presentText line }) := by
  obtain ⟨remark, isRemark⟩ := Remark.exists_spelled onLine
  have isCondition := Condition.mem_spelling isWord isRemark
  refine ⟨remark, ?_, ?_, ?_, ?_⟩
  · exact decode_of_mem_spelling (Response.mem_spelling_done isTag isCondition)
  · exact decode_of_mem_spelling (Response.mem_spelling_data isCondition)
  · intro code bracket rest isCode shape
    subst shape
    have restOnLine : ∀ byte ∈ rest, Byte.isLineEnd byte = false :=
      fun byte isIn => onLine byte (List.mem_append_right bracket isIn)
    exact Remark.eq_of_mem_spelling isRemark (Remark.mem_spelling_of_code isCode restOnLine)
  · intro noCode
    exact Remark.eq_of_mem_spelling isRemark (Remark.mem_spelling_of_text noCode onLine)

/-- The same text behind a code, and behind a number that is too large for a code. -/
theorem decode_condition_line_next :
    decode (conditionLine (ascii "A1" ++ [Byte.space]) (ascii "oK") (ascii "[UIDNEXT 5] ready") ++
        ascii "* BYE") =
      .ok {
        response := .done (ascii "A1") {
          status := .ok
          remark := { code := some (.uidNext 5), text := some (ascii "ready") } }
        consumed := 25 } ∧
    decode (conditionLine Response.untaggedMark (ascii "oK") (ascii "[UIDNEXT 4294967296] ready") ++
        ascii "* BYE") =
      .ok {
        response := .data {
          status := .ok
          remark := { code := none, text := some (ascii "[UIDNEXT 4294967296] ready") } }
        consumed := 33 } := by
  have isTag : Response.IsTag (ascii "A1") :=
    ⟨by decide, List.all_eq_true.mp (by decide)⟩
  have isWord : (ascii "oK").lower = Status.ok.word.lower := by
    decide
  have isOnLine : ∀ line : Bytes, line.all (!Byte.isLineEnd ·) = true →
      ∀ byte ∈ line, Byte.isLineEnd byte = false := by
    intro line allOnLine
    simpa using allOnLine
  have codeOnLine := isOnLine (ascii "[UIDNEXT 5] ready") (by decide)
  have textOnLine := isOnLine (ascii "[UIDNEXT 4294967296] ready") (by decide)
  have isCode : ascii "[UIDNEXT 5]" ∈ (ResponseCode.uidNext 5).spelling := by
    have wireMem : (ResponseCode.uidNext 5).wire ∈ (ResponseCode.uidNext 5).spelling :=
      ResponseCode.wire_mem_spelling trivial
    have isWire : (ResponseCode.uidNext 5).wire = ascii "[UIDNEXT 5]" := by
      decide +kernel
    rwa [isWire] at wireMem
  have noCode : ¬ ResponseCode.Starts (ascii "[UIDNEXT 4294967296] ready") := by
    intro starts
    obtain ⟨code, rest, codeMatch⟩ := (starts_iff_exists_run_code textOnLine).mp starts
    have refused : ResponseCode.rule.run (ascii "[UIDNEXT 4294967296] ready" ++ Bytes.crlf) =
        .failed .malformed := by
      decide +kernel
    rw [refused] at codeMatch
    cases codeMatch
  obtain ⟨known, tagged, -, withCode, -⟩ := decode_condition_line isTag isWord codeOnLine
  obtain ⟨unknown, -, untagged, -, withoutCode⟩ := decode_condition_line isTag isWord textOnLine
  have text : Remark.presentText (Remark.behindCode (ascii " ready")) = some (ascii "ready") := by
    decide
  constructor
  · rw [tagged (ascii "* BYE"), withCode (.uidNext 5) _ (ascii " ready") isCode rfl, text]
    rfl
  · rw [untagged (ascii "* BYE"), withoutCode noCode]
    rfl

end Imap
