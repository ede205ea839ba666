import Trufflepig.History.Blame

/-!
# The porcelain output of a blame

* `readHeader_header`, `stepLine_detail`: headers are told from details.
* `foldlM_record`: what the loop makes of a record.
* `blameRuns_records`: the runs of an output whose records are the selected lines; other records
  are refused.
* `blame_spec`: the reply of a blame.
-/

namespace Trufflepig.History

open List Lib

/-! ## Records -/

/-- The details of a commit. -/
inductive DetailName where
  | author | authorMail | authorTime | authorTz
  | committer | committerMail | committerTime | committerTz
  | summary | previous | filename
  deriving DecidableEq, Repr

def DetailName.text : DetailName → Bytes
  | author => ascii "author"
  | authorMail => ascii "author-mail"
  | authorTime => ascii "author-time"
  | authorTz => ascii "author-tz"
  | committer => ascii "committer"
  | committerMail => ascii "committer-mail"
  | committerTime => ascii "committer-time"
  | committerTz => ascii "committer-tz"
  | summary => ascii "summary"
  | previous => ascii "previous"
  | filename => ascii "filename"

/-- The lines between the header of a record and its line of the source. -/
inductive BlameDetail where
  | named (name : DetailName) (value : Bytes)
  | boundary | ignored | unblamable
  deriving DecidableEq, Repr

def BlameDetail.line : BlameDetail → Bytes
  | named name value => name.text ++ 32 :: value
  | boundary => ascii "boundary"
  | ignored => ignoredLine
  | unblamable => unblamableLine

/-- A record of `git blame --line-porcelain`; the header of a group has the number of its lines,
too. -/
structure BlameRecord where
  oid : GitOid
  original : ℕ
  finalLine : ℕ
  group : Option ℕ
  details : List BlameDetail
  content : Bytes
  canonical : GitOid.parse oid.text = .ok oid
  originalFits : original + 1 < 2 ^ 64
  finalFits : finalLine + 1 < 2 ^ 64
  detailLines : ∀ detail ∈ details, 10 ∉ detail.line
  contentLine : 10 ∉ content

namespace BlameRecord

variable (record : BlameRecord)

/-- The characters of the header. -/
def headerChars : List Char :=
  asciiChars record.oid.text ++ ' ' :: (Nat.toDigits 10 record.original ++ ' ' ::
    (Nat.toDigits 10 record.finalLine ++
      match record.group with
      | some lines => ' ' :: Nat.toDigits 10 lines
      | none => []))

def header : Bytes := encodeChars record.headerChars

/-- The lines of a record. -/
def lines : List Bytes :=
  record.header :: (record.details.map BlameDetail.line ++ [9 :: record.content])

/-- The number of the line, and what it is attributed to. -/
def entry : ℕ × Attribution :=
  (record.finalLine, ⟨record.oid.text, record.original, .ignored ∈ record.details,
    .unblamable ∈ record.details⟩)

end BlameRecord

/-- The output of Git for some records. -/
def renderBlame (records : List BlameRecord) : Bytes :=
  (records.flatMap BlameRecord.lines).flatMap (· ++ [10])

/-! ## Headers -/

theorem encodeChars_of_fromUtf8 {bytes : Bytes} {text : List Char} (h : fromUtf8 bytes = .ok text) :
    encodeChars text = bytes := by
  unfold fromUtf8 at h
  split at h
  · next chars hchars =>
    obtain rfl := Except.ok.inj h
    have hencode : chars.toList.utf8Encode = ByteArray.mk bytes.toArray := by
      have hsome : ((ByteArray.mk bytes.toArray).utf8Decode?).isSome = true := by
        rw [hchars]
        rfl
      have hget : ((ByteArray.mk bytes.toArray).utf8Decode?).get hsome = chars := by
        simp only [hchars, Option.get_some]
      rw [← hget]
      exact ByteArray.utf8Encode_get_utf8Decode?
    have hbytes := congrArg (fun array => array.data.toList) hencode
    rw [List.utf8Encode, data_toByteArray] at hbytes
    exact hbytes
  · exact nomatch h

/-- The characters of a text that begins with ASCII bytes. -/
theorem chars_of_ascii {text rest : Bytes} (htext : ∀ b ∈ text, b < 128) {cs : List Char}
    (h : encodeChars cs = text ++ rest) : ∃ ds, cs = asciiChars text ++ ds := by
  induction text generalizing cs with
  | nil => exact ⟨cs, rfl⟩
  | cons b text ih =>
    cases cs with
    | nil => exact nomatch h
    | cons c cs =>
      obtain ⟨first, more, hencode, -, -, -, hsole⟩ := utf8EncodeChar_shape c
      rw [encodeChars_cons, hencode, cons_append, cons_append, List.cons.injEq] at h
      obtain ⟨rfl, h⟩ := h
      have hmore : more = [] := hsole (htext first mem_cons_self)
      rw [hmore, nil_append] at h
      obtain ⟨ds, rfl⟩ := ih (fun b hb => htext b (mem_cons_of_mem _ hb)) h
      refine ⟨ds, ?_⟩
      have hc : asciiChars (encodeChars [c]) = [c] := by
        refine asciiChars_encodeChars ?_
        rw [encodeChars_cons, hencode, hmore]
        intro b hb
        rw [mem_singleton.mp hb]
        exact htext first mem_cons_self
      rw [encodeChars_cons, hencode, hmore] at hc
      show c :: (asciiChars text ++ ds) = (Char.ofNat first.toNat :: asciiChars text) ++ ds
      rw [show Char.ofNat first.toNat = c from (List.cons.inj hc).1]
      rfl

variable {n : ℕ}

theorem isWhitespace_digits (n : ℕ) : ∀ c ∈ Nat.toDigits 10 n, isWhitespace c = false := by
  intro c hc
  have hrange := toNat_digits hc
  simp only [isWhitespace, Bool.or_eq_false_iff, Bool.and_eq_false_iff, decide_eq_false_iff_not]
  omega

theorem ascii_digits (n : ℕ) : ∀ b ∈ encodeChars (Nat.toDigits 10 n), b < 128 := by
  intro b hb
  have hrange := mem_encodeDigits hb
  rw [UInt8.lt_iff_toNat_lt]
  show b.toNat < 128
  omega

/-- A number that fits is read back. -/
theorem parseU64_digits (h : n < 2 ^ 64) :
    parseU64 (encodeChars (Nat.toDigits 10 n)) = .ok n := by
  unfold parseU64
  rw [asciiChars_encodeChars (ascii_digits n)]
  have hplus : ∀ rest, Nat.toDigits 10 n ≠ '+' :: rest := by
    intro rest heq
    have hdigit := all_eq_true.mp (digits_all n) '+' (heq ▸ mem_cons_self)
    exact absurd hdigit (by decide)
  simp only [Nat.ofDigitChars_ten_toDigits]
  exact if_pos ⟨Nat.toDigits_ne_nil, digits_all n, h⟩

/-- A field behind which a blank stands. -/
theorem splitWhitespace_field {field : List Char} (hfield : ∀ c ∈ field, isWhitespace c = false)
    (hne : field ≠ []) (rest : List Char) :
    splitWhitespace (field ++ ' ' :: rest) = encodeChars field :: splitWhitespace rest := by
  unfold splitWhitespace
  rw [splitOnP_append_cons_of_forall_mem hfield ' ' (by decide), filter_cons_of_pos]
  · rfl
  · simpa using hne

theorem splitWhitespace_last {field : List Char} (hfield : ∀ c ∈ field, isWhitespace c = false)
    (hne : field ≠ []) : splitWhitespace field = [encodeChars field] := by
  unfold splitWhitespace
  rw [splitOnP_eq_singleton hfield, filter_cons_of_pos]
  · rfl
  · simpa using hne

theorem readHeader_header (record : BlameRecord) : readHeader record.header =
    .ok (some ⟨record.oid.text, record.original, record.finalLine⟩) := by
  have hoid : asciiChars record.oid.text ≠ [] := by
    intro hnil
    have hempty : record.oid.text = [] := map_eq_nil_iff.mp hnil
    rcases record.oid.length with hlength | hlength
    · rw [hempty] at hlength
      exact nomatch hlength
    · rw [hempty] at hlength
      exact nomatch hlength
  have hfields : ∃ more, splitWhitespace record.headerChars =
      record.oid.text :: encodeChars (Nat.toDigits 10 record.original) ::
        encodeChars (Nat.toDigits 10 record.finalLine) :: more := by
    unfold BlameRecord.headerChars
    rw [splitWhitespace_field (isWhitespace_oid record.canonical) hoid,
      encodeChars_oid record.canonical,
      splitWhitespace_field (isWhitespace_digits _) Nat.toDigits_ne_nil]
    cases record.group with
    | none =>
      rw [append_nil, splitWhitespace_last (isWhitespace_digits _) Nat.toDigits_ne_nil]
      exact ⟨[], rfl⟩
    | some lines =>
      simp only []
      rw [splitWhitespace_field (isWhitespace_digits _) Nat.toDigits_ne_nil]
      exact ⟨_, rfl⟩
  obtain ⟨more, hmore⟩ := hfields
  have horiginal := record.originalFits
  have hfinal := record.finalFits
  unfold readHeader BlameRecord.header
  rw [fromUtf8_encodeChars]
  simp only [hmore, record.canonical, parseU64_digits (show record.original < 2 ^ 64 by omega),
    parseU64_digits (show record.finalLine < 2 ^ 64 by omega)]

/-- A property of all members is decided by going through the list. -/
theorem forall_of_all {α : Type} {p : α → Prop} [DecidablePred p] {xs : List α}
    (h : (xs.all fun x => p x) = true) : ∀ x ∈ xs, p x := by
  simpa using h

theorem DetailName.text_spec : ∀ name : DetailName, (∀ b ∈ name.text, b < 128) ∧
    (∀ c ∈ asciiChars name.text, isWhitespace c = false) ∧ name.text ≠ [] ∧
    name.text.length < 40 ∧ name.text.head? ≠ some 9 := by
  intro name
  refine ⟨forall_of_all ?_, forall_of_all ?_, ?_, ?_, ?_⟩
  all_goals cases name <;> decide

theorem GitOid.parse_short {value : Bytes} (h : value.length < 40) :
    ∃ error, GitOid.parse value = .error error := by
  unfold GitOid.parse
  rw [dif_neg (by omega)]
  exact ⟨_, rfl⟩

/-- A line that begins with a short word, at its end or before a blank, is no header. -/
theorem readHeader_word {word rest : Bytes} (hshort : word.length < 40)
    (hascii : ∀ b ∈ word, b < 128) (hblank : ∀ c ∈ asciiChars word, isWhitespace c = false)
    (hne : word ≠ []) (hrest : rest = [] ∨ ∃ value, rest = 32 :: value) :
    readHeader (word ++ rest) = .ok none := by
  have hchars : asciiChars word ≠ [] := fun hnil => hne (map_eq_nil_iff.mp hnil)
  obtain ⟨error, hoid⟩ := GitOid.parse_short hshort
  unfold readHeader
  cases htext : fromUtf8 (word ++ rest) with
  | error error => rfl
  | ok text =>
    have hencode := encodeChars_of_fromUtf8 htext
    have hfields : ∃ more, splitWhitespace text = word :: more := by
      rcases hrest with rfl | ⟨value, rfl⟩
      · rw [append_nil] at hencode
        have htext' : text = asciiChars word := by
          rw [← hencode, asciiChars_encodeChars (hencode ▸ hascii)]
        rw [htext', splitWhitespace_last hblank hchars, encodeChars_asciiChars hascii]
        exact ⟨[], rfl⟩
      · have hascii' : ∀ b ∈ word ++ [32], b < 128 := by
          exact forall_mem_append.mpr ⟨hascii, forall_mem_singleton.mpr (by decide)⟩
        obtain ⟨more, rfl⟩ := chars_of_ascii hascii' (hencode.trans (append_cons word 32 value))
        have hsplit : asciiChars (word ++ [32]) ++ more = asciiChars word ++ ' ' :: more := by
          unfold asciiChars
          rw [map_append, append_assoc]
          rfl
        rw [hsplit, splitWhitespace_field hblank hchars, encodeChars_asciiChars hascii]
        exact ⟨_, rfl⟩
    obtain ⟨more, hmore⟩ := hfields
    simp only [hmore]
    rcases more with _ | ⟨second, _ | ⟨third, more⟩⟩
    · rfl
    · rfl
    · simp only [hoid]

variable {line : Bytes}

/-- A line that is neither one of the source nor a flag nor a header changes nothing. -/
theorem stepLine_other (htab : line.head? ≠ some 9) (hignored : line ≠ ignoredLine)
    (hunblamable : line ≠ unblamableLine) (hheader : readHeader line = .ok none)
    (state : BlameState) : stepLine state line = .ok state := by
  unfold stepLine
  split
  · exact absurd rfl htab
  · rw [if_neg hignored, if_neg hunblamable, hheader]

/-- The flags are lines without a blank. -/
theorem ne_flag_of_blank (h : 32 ∈ line) :
    line ≠ ignoredLine ∧ line ≠ unblamableLine := by
  constructor
  · rintro rfl
    exact absurd h (by decide)
  · rintro rfl
    exact absurd h (by decide)

/-- What a detail does to the flags. -/
theorem stepLine_detail (detail : BlameDetail) (state : BlameState) :
    stepLine state detail.line = .ok { state with
      ignored := state.ignored || detail = .ignored
      unblamable := state.unblamable || detail = .unblamable } := by
  cases detail with
  | ignored | unblamable =>
    rw [decide_eq_true rfl, Bool.or_true]
    simp only [reduceCtorEq, decide_false, Bool.or_false]
    rfl
  | boundary =>
    simp only [reduceCtorEq, decide_false, Bool.or_false]
    refine stepLine_other (by decide) (by decide) (by decide) ?_ state
    have hword : readHeader (ascii "boundary" ++ []) = .ok none :=
      readHeader_word (by decide) (forall_of_all (by decide)) (forall_of_all (by decide)) (by decide)
        (.inl rfl)
    rwa [append_nil] at hword
  | named name value =>
    obtain ⟨hascii, hblank, hne, hshort, htab⟩ := name.text_spec
    have hflags : name.text ++ 32 :: value ≠ ignoredLine ∧
        name.text ++ 32 :: value ≠ unblamableLine := ne_flag_of_blank (by simp)
    have hhead : (name.text ++ 32 :: value).head? ≠ some 9 := by
      rwa [head?_append_of_ne_nil _ hne]
    simp only [reduceCtorEq, decide_false, Bool.or_false]
    exact stepLine_other hhead hflags.1 hflags.2
      (readHeader_word hshort hascii hblank hne (.inr ⟨value, rfl⟩)) state

theorem foldlM_details (details : List BlameDetail) (state : BlameState) :
    (details.map BlameDetail.line).foldlM stepLine state = .ok { state with
      ignored := state.ignored || BlameDetail.ignored ∈ details
      unblamable := state.unblamable || BlameDetail.unblamable ∈ details } := by
  induction details generalizing state with
  | nil =>
    simp only [not_mem_nil, decide_false, Bool.or_false]
    rfl
  | cons detail details ih =>
    rw [map_cons, foldlM_cons, stepLine_detail]
    show (details.map BlameDetail.line).foldlM stepLine _ = _
    rw [ih]
    simp only [mem_cons, Bool.or_assoc, Bool.decide_or, eq_comm]

/-- The header of a record. -/
theorem stepLine_header (record : BlameRecord) (state : BlameState) :
    stepLine state record.header =
      .ok { state with
        pending := some ⟨record.oid.text, record.original, record.finalLine⟩ } := by
  have hhex : ∀ b ∈ record.oid.text, isHexDigit b = true := isHexDigit_of_canonical record.canonical
  have hbytes : ∃ rest, record.header = record.oid.text ++ 32 :: rest := by
    unfold BlameRecord.header BlameRecord.headerChars
    rw [encodeChars_append, encodeChars_oid record.canonical, encodeChars_cons]
    exact ⟨_, rfl⟩
  obtain ⟨rest, hrest⟩ := hbytes
  obtain ⟨hignored, hunblamable⟩ : record.header ≠ ignoredLine ∧ record.header ≠ unblamableLine :=
    ne_flag_of_blank (by rw [hrest]; simp)
  have htab : record.header.head? ≠ some 9 := by
    rw [hrest]
    cases htext : record.oid.text with
    | nil => simp
    | cons b text =>
      intro heq
      have hb : b = 9 := Option.some.inj heq
      have hdigit := hhex b (htext ▸ mem_cons_self)
      rw [hb] at hdigit
      exact absurd hdigit (by decide)
  unfold stepLine
  split
  · next content heq =>
    rw [heq] at htab
    exact absurd rfl htab
  · rw [if_neg hignored, if_neg hunblamable, readHeader_header]

variable {state : BlameState}

/-- What the loop makes of a record. -/
theorem foldlM_record (record : BlameRecord) (hignored : state.ignored = false)
    (hunblamable : state.unblamable = false) :
    record.lines.foldlM stepLine state = stepContent { state with
      pending := some ⟨record.oid.text, record.original, record.finalLine⟩
      ignored := record.entry.2.ignored
      unblamable := record.entry.2.unblamable } record.content := by
  unfold BlameRecord.lines
  rw [foldlM_cons, stepLine_header]
  show (record.details.map BlameDetail.line ++ [9 :: record.content]).foldlM stepLine _ = _
  rw [foldlM_append, foldlM_details]
  show [9 :: record.content].foldlM stepLine _ = _
  rw [foldlM_cons, hignored, hunblamable]
  simp only [Bool.false_or, foldlM_nil, bind_pure]
  rfl

/-! ## Runs -/

/-- The lines of a run, with what they are attributed to. -/
def BlameRun.expand (run : BlameRun) : List (ℕ × Attribution) :=
  (List.range run.lines).map fun i =>
    (run.startLine + i, ⟨run.commit, run.originalStart + i, run.ignored, run.unblamable⟩)

/-- Two runs that are one. -/
def BlameRun.Joinable (run next : BlameRun) : Prop :=
  run.commit = next.commit ∧ run.originalStart + run.lines = next.originalStart ∧
    run.startLine + run.lines = next.startLine ∧ run.ignored = next.ignored ∧
    run.unblamable = next.unblamable

/-- The line numbers of an entry have a successor. -/
def EntryFits (entry : ℕ × Attribution) : Prop :=
  entry.1 + 1 < 2 ^ 64 ∧ entry.2.original + 1 < 2 ^ 64

theorem addU64_eq {a b : ℕ} (h : a + b < 2 ^ 64) : addU64 a b = a + b := Nat.mod_eq_of_lt h

/-- The numbers behind a run fit. -/
theorem expand_fits {run : BlameRun} (hne : run.expand ≠ [])
    (hfits : ∀ entry ∈ run.expand, EntryFits entry) :
    run.startLine + run.lines < 2 ^ 64 ∧ run.originalStart + run.lines < 2 ^ 64 := by
  have hpos : 0 < run.lines := by
    rcases Nat.eq_zero_or_pos run.lines with hzero | hpos
    · refine absurd ?_ hne
      unfold BlameRun.expand
      rw [hzero]
      rfl
    · exact hpos
  have hmem : (run.startLine + (run.lines - 1), (⟨run.commit, run.originalStart + (run.lines - 1),
      run.ignored, run.unblamable⟩ : Attribution)) ∈ run.expand :=
    mem_map.mpr ⟨run.lines - 1, mem_range.mpr (by omega), rfl⟩
  obtain ⟨hline, horiginal⟩ := hfits _ hmem
  simp only at hline horiginal
  omega

theorem blameLaws : RunLaws joinRun singleRun BlameRun.expand EntryFits where
  expand_single entry := rfl
  expand_join run entry joined hne hfits hjoin := by
    obtain ⟨hline, horiginal⟩ := expand_fits hne hfits
    unfold joinRun at hjoin
    split_ifs at hjoin with hcan
    rw [addU64_eq hline, addU64_eq horiginal] at hcan
    obtain ⟨hcommit, hstart, hnumber, hignored, hunblamable⟩ := hcan
    rw [← Option.some.inj hjoin]
    unfold BlameRun.expand
    rw [range_succ, map_append, append_right_inj, map_singleton, hcommit,
      hstart, hnumber, hignored, hunblamable]

/-- The runs of some records. -/
def recordRuns (records : List BlameRecord) : List BlameRun :=
  joinAll joinRun singleRun (records.map BlameRecord.entry)

theorem entryFits_record (records : List BlameRecord) :
    ∀ entry ∈ records.map BlameRecord.entry, EntryFits entry := by
  intro entry hentry
  obtain ⟨record, -, rfl⟩ := mem_map.mp hentry
  exact ⟨record.finalFits, record.originalFits⟩

/-- The runs expand to the attributions of the records. -/
theorem expand_recordRuns (records : List BlameRecord) :
    (recordRuns records).flatMap BlameRun.expand = records.map BlameRecord.entry :=
  flatMap_joinAll blameLaws (entryFits_record records)

theorem head?_expand {run : BlameRun} (h : run.expand ≠ []) :
    run.expand.head? =
      some (run.startLine, ⟨run.commit, run.originalStart, run.ignored, run.unblamable⟩) := by
  unfold BlameRun.expand at h ⊢
  cases hlines : run.lines with
  | zero =>
    rw [hlines] at h
    exact absurd rfl h
  | succ lines =>
    rw [range_succ_eq_map]
    rfl

/-- No two neighbours could be joined. -/
theorem isChain_recordRuns (records : List BlameRecord) :
    (recordRuns records).IsChain fun run next => ¬run.Joinable next := by
  obtain ⟨hgood, -⟩ := goodRuns_foldl blameLaws (entryFits_record records) .nil
  refine List.IsChain.imp_of_mem_imp ?_ hgood.chain
  rintro run next hrun hnext hnone ⟨hcommit, horiginal, hline, hignored, hunblamable⟩
  have hjoin := hnone _ (head?_expand (hgood.nonempty next hnext))
  obtain ⟨hlineFits, horiginalFits⟩ := expand_fits (hgood.nonempty run hrun) (hgood.inside run hrun)
  unfold joinRun at hjoin
  rw [if_pos ⟨hcommit, (addU64_eq horiginalFits).trans horiginal, (addU64_eq hlineFits).trans hline,
    hignored, hunblamable⟩] at hjoin
  exact nomatch hjoin

/-! ## The loop over records -/

/-- The state between two records. -/
structure Between (state : BlameState) : Prop where
  pending : state.pending = none
  ignored : state.ignored = false
  unblamable : state.unblamable = false
  used : state.used = runBytes * state.runs.length
  fits : runBytes * state.runs.length ≤ hunkBytes

/-- The number and the text of a line that is expected. -/
def expectedLine (line : Bytes × ℕ) : ℕ × Bytes := (line.2 + 1, stripNewline line.1)

/-- The number and the text of the line of a record. -/
def BlameRecord.sourceLine (record : BlameRecord) : ℕ × Bytes := (record.finalLine, record.content)

/-- The state behind a record. -/
def afterRecord (state : BlameState) (record : BlameRecord) (expected : List (Bytes × ℕ)) :
    BlameState :=
  let runs := pushJoin joinRun singleRun state.runs record.entry
  ⟨runs, runBytes * runs.length, none, false, false, expected⟩

variable {record : BlameRecord}

/-- A record of the line that is expected. -/
theorem foldlM_expected (h : Between state) {line : Bytes × ℕ} {expected : List (Bytes × ℕ)}
    (hexpected : state.expected = line :: expected)
    (hline : record.sourceLine = expectedLine line) :
    record.lines.foldlM stepLine state =
      if runBytes * (pushJoin joinRun singleRun state.runs record.entry).length ≤ hunkBytes then
        .ok (afterRecord state record expected)
      else .error (.history .capacityReached) := by
  obtain ⟨hnumber, hcontent⟩ := Prod.mk.inj hline
  rw [foldlM_record record h.ignored h.unblamable]
  unfold stepContent
  simp only [hexpected]
  have hentry : (record.finalLine, (⟨record.oid.text, record.original, record.entry.2.ignored,
      record.entry.2.unblamable⟩ : Attribution)) = record.entry := rfl
  rw [if_pos ⟨hcontent, hnumber⟩, hentry]
  unfold afterRecord pushJoin
  cases hlast : state.runs.getLast?.bind (joinRun · record.entry) with
  | some joined =>
    have hne : state.runs ≠ [] := by
      intro hnil
      rw [hnil] at hlast
      cases hlast
    have hlength : (state.runs.dropLast ++ [joined]).length = state.runs.length := by
      have hpos := length_pos_of_ne_nil hne
      rw [length_append, length_dropLast, length_singleton]
      omega
    simp only [hlength, if_pos h.fits, h.used]
  | none =>
    simp only [length_append, length_singleton, h.used]
    unfold reserve
    have hiff : runBytes ≤ hunkBytes - runBytes * state.runs.length ↔
        runBytes * (state.runs.length + 1) ≤ hunkBytes := by
      have hfits := h.fits
      rw [Nat.mul_add, Nat.mul_one]
      unfold runBytes hunkBytes at *
      omega
    by_cases hroom : runBytes * (state.runs.length + 1) ≤ hunkBytes
    · rw [if_pos hroom, if_pos (hiff.mpr hroom)]
      simp only [Nat.mul_add, Nat.mul_one]
    · rw [if_neg hroom, if_neg fun hle => hroom (hiff.mp hle)]

/-- A record of another line. -/
theorem foldlM_unexpected (h : Between state)
    (hline : ∀ line expected, state.expected = line :: expected →
      record.sourceLine ≠ expectedLine line) :
    ∃ error, record.lines.foldlM stepLine state = .error error := by
  rw [foldlM_record record h.ignored h.unblamable]
  unfold stepContent
  cases hexpected : state.expected with
  | nil => exact ⟨_, rfl⟩
  | cons line expected =>
    have hne : ¬(record.content = stripNewline line.1 ∧ record.finalLine = line.2 + 1) :=
      fun ⟨hcontent, hnumber⟩ => hline line expected hexpected (Prod.ext hnumber hcontent)
    exact ⟨_, if_neg hne⟩

theorem between_afterRecord (state : BlameState) (expected : List (Bytes × ℕ))
    (hfits : runBytes * (pushJoin joinRun singleRun state.runs record.entry).length ≤ hunkBytes) :
    Between (afterRecord state record expected) := ⟨rfl, rfl, rfl, rfl, hfits⟩

variable {records : List BlameRecord}

/-- Records of the lines that are expected. -/
theorem foldlM_records (h : Between state)
    (hlines : records.map BlameRecord.sourceLine = state.expected.map expectedLine) :
    (records.flatMap BlameRecord.lines).foldlM stepLine state =
      let runs := (records.map BlameRecord.entry).foldl (pushJoin joinRun singleRun) state.runs
      if runBytes * runs.length ≤ hunkBytes then
        .ok ⟨runs, runBytes * runs.length, none, false, false, []⟩
      else .error (.history .capacityReached) := by
  induction records generalizing state with
  | nil =>
    rw [map_nil, foldl_nil, if_pos h.fits]
    obtain ⟨runs, used, pending, ignored, unblamable, expected⟩ := state
    obtain ⟨rfl, rfl, rfl, hused, -⟩ := h
    obtain rfl : expected = [] := map_eq_nil_iff.mp hlines.symm
    obtain rfl : used = runBytes * runs.length := hused
    rfl
  | cons record records ih =>
    cases hexpected : state.expected with
    | nil =>
      rw [hexpected] at hlines
      exact nomatch hlines
    | cons line expected =>
      rw [hexpected] at hlines
      obtain ⟨hline, hlines⟩ := List.cons.inj hlines
      rw [flatMap_cons, foldlM_append, foldlM_expected h hexpected hline, map_cons, foldl_cons]
      by_cases hfits : runBytes * (pushJoin joinRun singleRun state.runs record.entry).length ≤
          hunkBytes
      · rw [if_pos hfits]
        exact ih (between_afterRecord state _ hfits) hlines
      · -- There are no fewer runs behind the other records.
        have hmore : (pushJoin joinRun singleRun state.runs record.entry).length ≤
            ((records.map BlameRecord.entry).foldl (pushJoin joinRun singleRun)
              (pushJoin joinRun singleRun state.runs record.entry)).length :=
          length_le_foldl_pushJoin ..
        have hlonger := Nat.mul_le_mul_left runBytes hmore
        rw [if_neg hfits, if_neg (by omega)]
        rfl

/-- Records that are accepted are of the lines that were expected. -/
theorem sourceLines_of_ok (h : Between state) {next : BlameState}
    (hok : (records.flatMap BlameRecord.lines).foldlM stepLine state = .ok next) :
    records.map BlameRecord.sourceLine ++ next.expected.map expectedLine =
      state.expected.map expectedLine := by
  induction records generalizing state with
  | nil => rw [← Except.ok.inj hok, map_nil, nil_append]
  | cons record records ih =>
    rw [flatMap_cons, foldlM_append] at hok
    obtain ⟨middle, hrecord, hok⟩ := bind_eq_ok.mp hok
    by_cases hline : ∃ line expected, state.expected = line :: expected ∧
        record.sourceLine = expectedLine line
    · obtain ⟨line, expected, hexpected, hline⟩ := hline
      rw [foldlM_expected h hexpected hline] at hrecord
      split_ifs at hrecord with hfits
      obtain rfl := Except.ok.inj hrecord
      rw [hexpected, map_cons, map_cons, hline, cons_append,
        ih (between_afterRecord state expected hfits) hok]
      rfl
    · obtain ⟨error, herror⟩ := foldlM_unexpected h fun line expected hexpected heq =>
        hline ⟨line, expected, hexpected, heq⟩
      rw [herror] at hrecord
      exact nomatch hrecord

/-! ## The output -/

/-- The lines that a target selects, with their numbers. -/
def BlameTarget.lines (target : BlameTarget) : List (ℕ × Bytes) := target.expected.map expectedLine

/-- The runs that `HUNK_BYTES` has room for. -/
def maxRuns : ℕ := hunkBytes / runBytes

theorem newline_not_mem_digits (n : ℕ) : 10 ∉ encodeChars (Nat.toDigits 10 n) := by
  intro hmem
  have hrange := mem_encodeDigits hmem
  exact absurd hrange.1 (by decide)

theorem newline_not_mem_header (record : BlameRecord) : 10 ∉ record.header := by
  have hoid : 10 ∉ record.oid.text := fun hmem =>
    absurd (isHexDigit_of_canonical record.canonical 10 hmem) (by decide)
  have hblank : 10 ∉ String.utf8EncodeChar ' ' := by decide
  unfold BlameRecord.header BlameRecord.headerChars
  cases record.group with
  | none =>
    simp only [encodeChars_append, encodeChars_cons, encodeChars_oid record.canonical,
      mem_append, hoid, hblank, newline_not_mem_digits, encodeChars_nil, not_mem_nil,
      or_self, not_false_eq_true]
  | some lines =>
    simp only [encodeChars_append, encodeChars_cons, encodeChars_oid record.canonical,
      mem_append, hoid, hblank, newline_not_mem_digits, or_self, not_false_eq_true]

theorem newline_not_mem_lines (record : BlameRecord) : ∀ line ∈ record.lines, 10 ∉ line := by
  intro line hline
  unfold BlameRecord.lines at hline
  rw [mem_cons, mem_append, mem_map, mem_singleton] at hline
  rcases hline with rfl | ⟨detail, hdetail, rfl⟩ | rfl
  · exact newline_not_mem_header record
  · exact record.detailLines detail hdetail
  · rw [mem_cons, not_or]
    exact ⟨by decide, record.contentLine⟩

theorem splitAtByte_render (records : List BlameRecord) :
    splitAtByte 10 (renderBlame records) = records.flatMap BlameRecord.lines ++ [[]] := by
  refine splitAtByte_fields fun line hline => ?_
  obtain ⟨record, -, hline⟩ := mem_flatMap.mp hline
  exact newline_not_mem_lines record line hline

theorem stepLine_nil (state : BlameState) : stepLine state [] = .ok state := by
  refine stepLine_other (by decide) (by decide) (by decide) ?_ state
  have hempty : fromUtf8 [] = .ok [] := fromUtf8_encodeChars []
  unfold readHeader
  rw [hempty]
  rfl

theorem between_start (expected : List (Bytes × ℕ)) :
    Between ⟨[], 0, none, false, false, expected⟩ := ⟨rfl, rfl, rfl, rfl, Nat.zero_le _⟩

theorem le_maxRuns_iff : runBytes * n ≤ hunkBytes ↔ n ≤ maxRuns := by
  unfold maxRuns
  rw [Nat.le_div_iff_mul_le (by decide), Nat.mul_comm]

variable {target : BlameTarget}

/-- The runs of an output whose records are the selected lines. -/
theorem blameRuns_records (h : records.map BlameRecord.sourceLine = target.lines) :
    blameRuns target (renderBlame records) =
      if (recordRuns records).length ≤ maxRuns then .ok (recordRuns records)
      else .error (.history .capacityReached) := by
  have hloop : (records.flatMap BlameRecord.lines).foldlM stepLine
      ⟨[], 0, none, false, false, target.expected⟩ =
      if runBytes * (recordRuns records).length ≤ hunkBytes then
        .ok ⟨recordRuns records, runBytes * (recordRuns records).length, none, false, false, []⟩
      else .error (.history .capacityReached) := foldlM_records (between_start target.expected) h
  unfold blameRuns
  rw [splitAtByte_render, foldlM_append, hloop]
  by_cases hfits : (recordRuns records).length ≤ maxRuns
  · rw [if_pos hfits, if_pos (le_maxRuns_iff.mpr hfits)]
    show ([[]].foldlM stepLine _ >>= _) = _
    rw [foldlM_cons, stepLine_nil]
    rfl
  · rw [if_neg hfits, if_neg fun hle => hfits (le_maxRuns_iff.mp hle)]
    rfl

/-- An output that is accepted is one of the selected lines. -/
theorem sourceLines_of_blameRuns {runs : List BlameRun}
    (h : blameRuns target (renderBlame records) = .ok runs) :
    records.map BlameRecord.sourceLine = target.lines := by
  unfold blameRuns at h
  rw [splitAtByte_render, foldlM_append] at h
  obtain ⟨state, hloop, h⟩ := bind_eq_ok.mp h
  obtain ⟨last, hlast, hloop⟩ := bind_eq_ok.mp hloop
  rw [foldlM_cons, stepLine_nil] at hloop
  obtain rfl := Except.ok.inj hloop
  split_ifs at h with hend
  have hlines := sourceLines_of_ok (between_start target.expected) hlast
  rwa [hend.1, map_nil, append_nil] at hlines

/-! ## The selected lines -/

/-- A byte is in one of the lines. -/
theorem lineAt_le {bytes : Bytes} {k : ℕ} (h : k < bytes.length) :
    Search.lineAt bytes k ≤ (byteLines bytes).length := by
  unfold Search.lineAt
  induction bytes generalizing k with
  | nil => exact absurd h (Nat.not_lt_zero k)
  | cons byte rest ih =>
    have hsome : 0 < (byteLines (byte :: rest)).length := by
      unfold byteLines
      split_ifs
      · simp
      · cases byteLines rest with
        | nil => simp
        | cons line lines => simp
    cases k with
    | zero =>
      simp only [take_zero, count_nil]
      omega
    | succ k =>
      rw [length_cons] at h
      have hrest := ih (Nat.lt_of_succ_lt_succ h)
      rw [take_succ_cons]
      unfold byteLines
      by_cases hbyte : byte = 10
      · rw [if_pos hbyte, hbyte, count_cons_self, length_cons]
        omega
      · rw [if_neg hbyte, count_cons_of_ne hbyte]
        cases hlines : byteLines rest with
        | nil =>
          rw [hlines, length_nil] at hrest
          omega
        | cons line lines =>
          rw [hlines] at hrest
          exact hrest

theorem lineAt_mono (bytes : Bytes) {i j : ℕ} (h : i ≤ j) :
    Search.lineAt bytes i ≤ Search.lineAt bytes j :=
  Nat.add_le_add_left ((take_sublist_take_left h).count_le 10) 1

theorem length_byteLines_le (bytes : Bytes) : (byteLines bytes).length ≤ bytes.length := by
  have hflatten := congrArg List.length (flatten_byteLines bytes)
  rw [length_flatten] at hflatten
  have hsum : ((byteLines bytes).map List.length).length ≤
      ((byteLines bytes).map List.length).sum := by
    refine length_le_sum_of_one_le _ fun n hn => ?_
    obtain ⟨line, hline, rfl⟩ := mem_map.mp hn
    exact length_pos_of_ne_nil (byteLines_ne_nil bytes line hline)
  rw [length_map] at hsum
  omega

/-- The numbers of the selected lines. -/
theorem lines_numbers (target : BlameTarget) :
    target.lines.map Prod.fst = List.range' target.lineSpan.1 target.count := by
  obtain ⟨hle, hlength⟩ := target.inside
  have hpos : 1 ≤ target.lineSpan.1 := Nat.le_add_right 1 _
  have hcount : target.count ≤ (byteLines target.bytes).length - (target.lineSpan.1 - 1) := by
    unfold BlameTarget.count
    split_ifs with hempty
    · exact Nat.zero_le _
    · have hlt : target.span.start < target.span.stop := by omega
      have hlast : target.lineSpan.2 ≤ (byteLines target.bytes).length := by
        show Search.lineAt target.bytes (if target.span.start < target.span.stop then _ else _) ≤ _
        rw [if_pos hlt]
        exact lineAt_le (by omega)
      have hfirst : target.lineSpan.1 ≤ target.lineSpan.2 := by
        show _ ≤ Search.lineAt target.bytes (if target.span.start < target.span.stop then _ else _)
        rw [if_pos hlt]
        exact lineAt_mono _ (by omega)
      omega
  have hnumbers : target.lines.map Prod.fst = (target.expected.map Prod.snd).map (· + 1) := by
    unfold BlameTarget.lines
    rw [map_map, map_map]
    rfl
  rw [hnumbers, BlameTarget.expected, map_take, map_drop, zipIdx_map_snd,
    drop_range', take_range'_of_length_ge hcount, ← range'_succ_left]
  congr 1
  omega

/-! ## Any output -/

/-- The numbers of the lines of a run. -/
def BlameRun.numbers (run : BlameRun) : List ℕ := List.range' run.startLine run.lines

/-- The lines that have been read, and those that are expected, are the selected ones. -/
structure Covers (target : BlameTarget) (state : BlameState) : Prop where
  numbers : state.runs.flatMap BlameRun.numbers ++ state.expected.map (fun line => line.2 + 1) =
    target.lines.map Prod.fst
  fits : ∀ run ∈ state.runs, run.startLine + run.lines < 2 ^ 64

theorem numbers_lt (target : BlameTarget) (h : n ∈ target.lines.map Prod.fst) :
    n < 2 ^ 63 + 1 := by
  unfold BlameTarget.lines at h
  rw [map_map] at h
  obtain ⟨line, hline, rfl⟩ := mem_map.mp h
  have hmem := (drop_sublist ..).subset ((take_sublist ..).subset hline)
  have hindex := (mem_zipIdx hmem).2.1
  have hlines := length_byteLines_le target.bytes
  have hfits := target.fits
  show line.2 + 1 < 2 ^ 63 + 1
  omega

variable {next : BlameState}

/-- A line of the source that is accepted. -/
theorem stepContent_ok {content : Bytes} (h : stepContent state content = .ok next) :
    ∃ (entry : ℕ × Attribution) (line : Bytes × ℕ) (expected : List (Bytes × ℕ)),
      state.expected = line :: expected ∧ entry.1 = line.2 + 1 ∧
      next.runs = pushJoin joinRun singleRun state.runs entry ∧ next.expected = expected := by
  unfold stepContent at h
  cases hpending : state.pending with
  | none =>
    rw [hpending] at h
    exact nomatch h
  | some header =>
    cases hexpected : state.expected with
    | nil =>
      rw [hpending, hexpected] at h
      exact nomatch h
    | cons line expected =>
      simp only [hpending, hexpected] at h
      split_ifs at h with hline
      refine ⟨(header.finalLine, ⟨header.commit, header.original, state.ignored, state.unblamable⟩),
        line, expected, rfl, hline.2, ?_⟩
      unfold pushJoin
      split at h
      · next joined hjoined =>
        rw [← Except.ok.inj h, hjoined]
        exact ⟨rfl, rfl⟩
      · next hnone =>
        split at h
        · exact nomatch h
        · rw [← Except.ok.inj h, hnone]
          exact ⟨rfl, rfl⟩

theorem Covers.stepContent {content : Bytes} (hcovers : Covers target state)
    (h : stepContent state content = .ok next) :
    Covers target next := by
  obtain ⟨entry, line, expected, hexpected, hline, hruns, hnext⟩ := stepContent_ok h
  have hnumbers := hcovers.numbers
  rw [hexpected, map_cons] at hnumbers
  have hentry : entry.1 < 2 ^ 63 + 1 := numbers_lt target (by rw [← hnumbers, hline]; simp)
  have hjoin : ∀ run ∈ state.runs, ∀ joined, joinRun run entry = some joined →
      joined = { run with lines := run.lines + 1 } ∧ run.startLine + run.lines = entry.1 := by
    intro run hrun joined hjoin
    unfold joinRun at hjoin
    split_ifs at hjoin with hcan
    exact ⟨(Option.some.inj hjoin).symm, (addU64_eq (hcovers.fits run hrun)).symm.trans hcan.2.2.1⟩
  refine ⟨?_, ?_⟩
  · rw [hruns, hnext, ← hnumbers, flatMap_pushJoin (f := Prod.fst) rfl, append_assoc, hline]
    · rfl
    · intro run hrun joined hjoined
      obtain ⟨rfl, hnumber⟩ := hjoin run hrun joined hjoined
      rw [BlameRun.numbers, range'_concat, Nat.one_mul, hnumber]
      rfl
  · rw [hruns]
    rcases pushJoin_cases joinRun singleRun state.runs entry with
      ⟨before, run, joined, hbefore, hjoined, heq⟩ | ⟨-, heq⟩
    · obtain ⟨rfl, hnumber⟩ := hjoin run (by rw [hbefore]; simp) joined hjoined
      have hfits := hcovers.fits
      rw [hbefore] at hfits
      rw [heq]
      refine forall_mem_append.mpr ⟨(forall_mem_append.mp hfits).1, forall_mem_singleton.mpr ?_⟩
      show run.startLine + (run.lines + 1) < 2 ^ 64
      omega
    · rw [heq]
      refine forall_mem_append.mpr ⟨hcovers.fits, forall_mem_singleton.mpr ?_⟩
      show entry.1 + 1 < 2 ^ 64
      omega

theorem Covers.stepLine (hcovers : Covers target state) (h : stepLine state line = .ok next) :
    Covers target next := by
  unfold History.stepLine at h
  split at h
  · exact hcovers.stepContent h
  · split_ifs at h
    · rw [← Except.ok.inj h]
      exact ⟨hcovers.numbers, hcovers.fits⟩
    · rw [← Except.ok.inj h]
      exact ⟨hcovers.numbers, hcovers.fits⟩
    · split at h
      · exact nomatch h
      · rw [← Except.ok.inj h]
        exact hcovers
      · rw [← Except.ok.inj h]
        exact ⟨hcovers.numbers, hcovers.fits⟩

/-- Whatever output is accepted, its runs are those of the selected lines. -/
theorem blameRuns_covers {output : Bytes} {runs : List BlameRun}
    (h : blameRuns target output = .ok runs) :
    runs.flatMap BlameRun.numbers = target.lines.map Prod.fst := by
  unfold blameRuns at h
  obtain ⟨state, hloop, h⟩ := bind_eq_ok.mp h
  split_ifs at h with hend
  have hstart : Covers target ⟨[], 0, none, false, false, target.expected⟩ := by
    refine ⟨?_, fun run hrun => nomatch hrun⟩
    unfold BlameTarget.lines
    rw [map_map]
    rfl
  have hcovers := foldlM_invariant (Covers target)
    (fun line _ state next hcovers hnext => hcovers.stepLine hnext) hstart hloop
  have hnumbers := hcovers.numbers
  rw [hend.1, map_nil, append_nil] at hnumbers
  rw [← Except.ok.inj h]
  exact hnumbers

/-! ## Replies -/

section Reply

variable {encode : BlameReply → Except String Bytes} {fits : Bytes → Bool}

/-- No reply fits, or one cannot be encoded. -/
def NoReply (encode : BlameReply → Except String Bytes) (fits : Bytes → Bool)
    (runs : List BlameRun) (kept : ℕ) (error : BlameError) : Prop :=
  (∃ n ≤ kept, ∃ message, encode (blameReply runs n) = .error message ∧ error = .encode message) ∨
    error = .budgetTooSmall ∧ ∀ n ≤ kept, n = 0 ∧ runs ≠ [] ∨
      ∃ text, encode (blameReply runs n) = .ok text ∧ fits text = false

variable (encode fits) in
/-- A reply has the first runs. -/
theorem fitRuns_spec (runs : List BlameRun) (kept : ℕ) :
    match fitRuns encode fits runs kept with
    | .ok reply => ∃ n, reply = blameReply runs n
    | .error error => NoReply encode fits runs kept error := by
  induction kept with
  | zero =>
    unfold fitRuns
    cases htext : encode (blameReply runs 0) with
    | error message => exact .inl ⟨0, Nat.le_refl 0, message, htext, rfl⟩
    | ok text =>
      simp only
      split_ifs with hfits
      · exact ⟨0, rfl⟩
      · refine .inr ⟨rfl, fun n hn => ?_⟩
        obtain rfl := Nat.le_zero.mp hn
        by_cases hruns : runs = []
        · refine .inr ⟨text, htext, ?_⟩
          rw [hruns, isEmpty_nil, Bool.and_true] at hfits
          exact Bool.eq_false_iff.mpr hfits
        · exact .inl ⟨rfl, hruns⟩
  | succ kept ih =>
    unfold fitRuns
    cases htext : encode (blameReply runs (kept + 1)) with
    | error message => exact .inl ⟨kept + 1, Nat.le_refl _, message, htext, rfl⟩
    | ok text =>
      simp only
      split_ifs with hfits
      · exact ⟨kept + 1, rfl⟩
      · cases hrest : fitRuns encode fits runs kept with
        | ok reply => rwa [hrest] at ih
        | error error =>
          rw [hrest] at ih
          rcases ih with ⟨n, hn, hrest⟩ | ⟨herror, hall⟩
          · exact .inl ⟨n, Nat.le_succ_of_le hn, hrest⟩
          · refine .inr ⟨herror, fun n hn => ?_⟩
            rcases Nat.le_succ_iff.mp hn with hn | rfl
            · exact hall n hn
            · exact .inr ⟨text, htext, Bool.eq_false_iff.mpr hfits⟩

/-- A reply that attributes the first lines, or all of them if it is not truncated. -/
structure Attributes (records : List BlameRecord) (reply : BlameReply) : Prop where
  lines : reply.runs.flatMap BlameRun.expand <+: records.map BlameRecord.entry
  complete : reply.truncated = false →
    reply.runs.flatMap BlameRun.expand = records.map BlameRecord.entry
  separate : reply.runs.IsChain fun run next => ¬run.Joinable next

theorem attributes_blameReply (records : List BlameRecord) (n : ℕ) :
    Attributes records (blameReply (recordRuns records) n) := by
  have htake : (recordRuns records).take n ++ (recordRuns records).drop n = recordRuns records :=
    take_append_drop ..
  refine ⟨?_, fun htruncated => ?_, (isChain_recordRuns records).take n⟩
  · rw [← expand_recordRuns]
    conv_rhs => rw [← htake, flatMap_append]
    exact prefix_append ..
  · have hall : ¬n < (recordRuns records).length := of_decide_eq_false htruncated
    show ((recordRuns records).take n).flatMap BlameRun.expand = _
    rw [take_of_length_le (by omega), expand_recordRuns]

variable (encode fits)

/-- The reply of a blame: the records of an output that is accepted are the selected lines, which
the runs attribute as the records do; an output of the selected lines is refused for its size
only. Whatever the output, the runs are those of the selected lines. -/
theorem blame_spec (target : BlameTarget) (records : List BlameRecord) :
    target.lines.map Prod.fst = List.range' target.lineSpan.1 target.count ∧
    (match blame encode fits target (renderBlame records) with
      | .ok reply => records.map BlameRecord.sourceLine = target.lines ∧ Attributes records reply
      | .error error => records.map BlameRecord.sourceLine ≠ target.lines ∨
          error = .history .capacityReached ∧ maxRuns < (recordRuns records).length ∨
          NoReply encode fits (recordRuns records) (recordRuns records).length error) ∧
    ∀ output,
      match blameRuns target output with
      | .ok runs => runs.flatMap BlameRun.numbers = target.lines.map Prod.fst
      | .error _ => True := by
  refine ⟨lines_numbers target, ?_, fun output => ?_⟩
  · unfold blame
    by_cases hlines : records.map BlameRecord.sourceLine = target.lines
    · rw [blameRuns_records hlines]
      by_cases hfits : (recordRuns records).length ≤ maxRuns
      · rw [if_pos hfits]
        show match fitRuns encode fits (recordRuns records) (recordRuns records).length with
          | .ok reply => _
          | .error error => _
        have hspec := fitRuns_spec encode fits (recordRuns records) (recordRuns records).length
        cases hreply : fitRuns encode fits (recordRuns records) (recordRuns records).length with
        | error error => exact .inr (.inr (by rwa [hreply] at hspec))
        | ok reply =>
          obtain ⟨n, rfl⟩ : ∃ n, reply = blameReply (recordRuns records) n := by
            rwa [hreply] at hspec
          exact ⟨hlines, attributes_blameReply records n⟩
      · rw [if_neg hfits]
        exact .inr (.inl ⟨rfl, Nat.lt_of_not_le hfits⟩)
    · cases hruns : blameRuns target (renderBlame records) with
      | ok runs => exact absurd (sourceLines_of_blameRuns hruns) hlines
      | error error => exact .inl hlines
  · split
    · next runs hruns => exact blameRuns_covers hruns
    · trivial

end Reply

end Trufflepig.History
