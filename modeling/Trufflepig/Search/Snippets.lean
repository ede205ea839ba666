import Trufflepig.Lib.FirstByKey
import Trufflepig.Results.Hit
import Trufflepig.Search.Query

/-!
# Previews (`search/snippets.rs`)

The line of a span that shows best why it was found.
-/

namespace Trufflepig.Search

open Lib Results

/-- `SNIPPET_HITS`. -/
def snippetHits : ℕ := 200

/-- `SNIPPET_CHARS`. -/
def snippetChars : ℕ := 120

/-- `SCAN_LINES`. -/
def scanLines : ℕ := 2000

/-- `char::is_control`. -/
def isControl (c : Char) : Bool := c.toNat < 0x20 || 0x7f ≤ c.toNat && c.toNat < 0xa0

/-- `snippet`. -/
def snippet (line : ℕ) (text : List Char) : Snippet :=
  let clean := (trimChars text).map fun c => if isControl c then ' ' else c
  let text := clean.take snippetChars ++ if snippetChars < clean.length then ['…'] else []
  ⟨line, String.ofList text⟩

section Preview

variable [Unicode]

/-- Term evidence, line class, line number and line of the best line so far. -/
structure PreviewBest where
  evidence : ℕ
  lineClass : ℕ
  number : ℕ
  line : Bytes

/-- `rank < old`: more evidence, or a lower class. -/
def PreviewBest.improves (new old : PreviewBest) : Bool :=
  old.evidence < new.evidence || old.evidence = new.evidence && new.lineClass < old.lineClass

/-- The class of a line (in `preview`). -/
def lineClass (matched named comment : Bool) : ℕ :=
  match matched, named, comment with
  | true, _, false => 0
  | false, true, false => 1
  | true, _, true => 2
  | false, true, true => 3
  | false, false, false => 4
  | false, false, true => 5

/-- The markers of comments. -/
def commentMarkers : List (List Char) :=
  ["//".toList, "/*".toList, "*".toList, "#".toList, "--".toList, ";".toList]

/-- The loop over the lines. -/
def scanPreview (terms : List (List Char)) (name : List Char) (firstLine stop : ℕ) :
    List Bytes → ℕ → ℕ → Option PreviewBest → Option PreviewBest
  | [], _, _, best => best
  | line :: lines, offset, position, best =>
    if 0 < offset ∧ stop ≤ position then best
    else
      let next := position + line.length + 1
      let text := decodeLossy line
      let trimmed := text.dropWhile isWhitespaceChar
      if trimmed.isEmpty then scanPreview terms name firstLine stop lines (offset + 1) next best
      else
        let lowered := Unicode.toLowercase text
        let matched := (terms.filter fun term => containsText term lowered).length
        let named := !name.isEmpty && containsText name lowered
        let comment := commentMarkers.any fun marker => marker <+: trimmed
        let new : PreviewBest :=
          { evidence := 2 * matched + if 0 < matched ∧ !comment then 3 else 0
            lineClass := lineClass (0 < matched) named comment
            number := firstLine + offset
            line := line }
        if (best.map fun old => new.improves old).getD true then
          if matched = terms.length ∧ new.lineClass = 0 then some new
          else scanPreview terms name firstLine stop lines (offset + 1) next (some new)
        else scanPreview terms name firstLine stop lines (offset + 1) next best

/-- `preview`. -/
def preview (bytes : Bytes) (start stop firstLine : ℕ) (terms : List (List Char)) (name : String) :
    Option Snippet :=
  let start := min start bytes.length
  let first := start - ((bytes.take start).rtakeWhile (· ≠ 0x0a)).length
  let stop := max start (min stop bytes.length)
  (scanPreview terms (Unicode.toLowercase name.toList) firstLine stop
      (((bytes.drop first).splitOn 0x0a).take scanLines) 0 first none).map
    fun best => snippet best.number (decodeLossy best.line)

/-- `preview_terms`. -/
def previewTerms (text : List Char) : List (List Char) :=
  let words := (splitTerms (fun c => !Unicode.isAlphanumeric c && c ≠ '_') text).filter
    fun term => 2 ≤ (encodeChars term).length
  firstByKey id (words.map Unicode.toLowercase)

end Preview

/-! ## What a preview shows -/

end Trufflepig.Search
