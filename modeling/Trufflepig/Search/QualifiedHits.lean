import Trufflepig.Lib.StableOrder
import Trufflepig.Search.Lanes

/-!
# Definitions of a qualified name (`search/declarations.rs`, `qualified_hits_with_limit`)

The query for a qualified name asks the database only for rows that have the last word of the
qualifier somewhere in their container or path, and the loop over the rows keeps the hits of the
closest tier it has seen. The statement of what comes out has neither: the rows of the closest tier
among all definitions of the name, in the order of the query, as many as the limit allows.

* `hintHolds_of_matchesOwner`: the word is in the container or in the path of each row that the
  qualifier matches.
* `scanTiers_spec`: the loop finds the first rows of the closest tier, whether or not it ends early.
* `qualifiedHitsWithLimit_spec`: both together.
-/

namespace Trufflepig.Search

open List Lib Extract Results

/-! ## Parts of a text

What the parser of owners takes out of a container or a path stands in it as one piece. -/

/-- The parts of a text: each is a piece of it, and the first one its start. -/
structure PartsOf (text : List Char) (parts : List (List Char)) : Prop where
  head : ∀ first rest, parts = first :: rest → first <+: text
  pieces : ∀ part ∈ parts, part <:+: text

namespace PartsOf

variable {text : List Char} {parts : List (List Char)}

theorem nil : PartsOf [] [[]] where
  head first rest h := by rw [(List.cons.inj h).1]
  pieces part h := by rw [mem_singleton.mp h]

/-- A separator starts a new part. -/
theorem cut (h : PartsOf text parts) (separator : List Char) :
    PartsOf (separator ++ text) ([] :: parts) where
  head first rest heq := by
    rw [← (List.cons.inj heq).1]
    exact nil_prefix
  pieces part hpart := by
    rcases mem_cons.mp hpart with rfl | hpart
    · exact nil_infix
    · exact (h.pieces part hpart).trans (suffix_append separator text).isInfix

/-- Any other character goes to the first part. -/
theorem grow {first : List Char} {rest : List (List Char)} (h : PartsOf text (first :: rest))
    (c : Char) : PartsOf (c :: text) ((c :: first) :: rest) where
  head first' rest' heq := by
    rw [← (List.cons.inj heq).1]
    exact prefix_cons_inj c |>.mpr (h.head first rest rfl)
  pieces part hpart := by
    rcases mem_cons.mp hpart with rfl | hpart
    · exact ((prefix_cons_inj c).mpr (h.head first rest rfl)).isInfix
    · exact (h.pieces part (mem_cons_of_mem _ hpart)).trans (suffix_cons c text).isInfix

end PartsOf

theorem partsOf_splitOnP (p : Char → Bool) (text : List Char) :
    PartsOf text (text.splitOnP p) := by
  induction text with
  | nil => exact PartsOf.nil
  | cons c text ih =>
    rw [splitOnP_cons_eq_if_modifyHead]
    split_ifs
    · exact ih.cut [c]
    · obtain ⟨first, rest, hparts⟩ := exists_cons_of_ne_nil (splitOnP_ne_nil p text)
      rw [hparts] at ih ⊢
      exact ih.grow c

theorem splitColons_ne_nil (text : List Char) : splitColons text ≠ [] := by
  fun_cases splitColons text with
  | case1 => exact cons_ne_nil _ _
  | case2 => exact cons_ne_nil _ _
  | case3 => exact cons_ne_nil _ _
  | case4 => exact cons_ne_nil _ _

theorem partsOf_splitColons (text : List Char) : PartsOf text (splitColons text) := by
  fun_induction splitColons text with
  | case1 => exact PartsOf.nil
  | case2 rest ih => exact ih.cut [':', ':']
  | case3 c rest hcolons first others hparts ih =>
    rw [hparts] at ih
    exact ih.grow c
  | case4 c rest hcolons hparts ih => exact absurd hparts (splitColons_ne_nil rest)

variable {text : List Char}

theorem infix_of_mem_splitTerms {separator : Char → Bool} {part : List Char}
    (h : part ∈ splitTerms separator text) : part <:+: text :=
  (partsOf_splitOnP separator text).pieces part (mem_of_mem_filter h)

theorem trimChars_within (text : List Char) : trimChars text <:+: text :=
  (List.rdropWhile_prefix _ _).isInfix.trans (dropWhile_suffix _).isInfix

theorem beforeText_within (needle text : List Char) : beforeText needle text <:+: text := by
  unfold beforeText
  split
  · exact infix_rfl
  · exact (List.take_prefix _ _).isInfix

theorem afterLastText_within (needle text : List Char) : afterLastText needle text <:+: text := by
  have h := reverse_infix.mpr (beforeText_within needle.reverse text.reverse)
  rwa [reverse_reverse] at h

theorem trimStartText_within (needle : List Char) (fuel : ℕ) (text : List Char) :
    trimStartText needle fuel text <:+: text := by
  induction fuel generalizing text with
  | zero => exact infix_rfl
  | succ fuel ih =>
    unfold trimStartText
    split_ifs
    · exact (ih _).trans (drop_suffix _ _).isInfix
    · exact infix_rfl

theorem stripPrefixText_within {needle rest : List Char}
    (h : stripPrefixText needle text = some rest) : rest <:+: text := by
  unfold stripPrefixText at h
  split_ifs at h
  rw [← Option.some.inj h]
  exact (drop_suffix _ _).isInfix

theorem afterClosingAngle_within (depth : ℕ) (text : List Char) :
    afterClosingAngle depth text <:+: text := by
  fun_induction afterClosingAngle depth text with
  | case1 => exact infix_rfl
  | case3 _ rest => exact (suffix_cons _ rest).isInfix
  | case2 _ rest ih | case4 _ rest _ _ ih | case5 _ _ rest _ _ ih =>
    exact ih.trans (suffix_cons _ rest).isInfix

theorem implHeader_within {container header : List Char} (h : implHeader container = some header) :
    header <:+: container := by
  unfold implHeader at h
  obtain ⟨rest, hrest, h⟩ := Option.bind_eq_some_iff.mp h
  obtain ⟨first, hfirst, h⟩ := Option.bind_eq_some_iff.mp h
  have hcontainer : (stripPrefixText "unsafe ".toList container).getD container <:+: container := by
    cases hstrip : stripPrefixText "unsafe ".toList container with
    | none => exact infix_rfl
    | some stripped => exact stripPrefixText_within hstrip
  have hrest' : trimStartChars rest <:+: container :=
    ((dropWhile_suffix _).isInfix.trans (stripPrefixText_within hrest)).trans hcontainer
  by_cases hstart : first ∉ ['<', ' ', '\n', '\t']
  · rw [if_pos hstart] at h
    exact nomatch h
  · rw [if_neg hstart] at h
    simp only at h
    split at h
    · rename_i generics hgenerics
      rw [← Option.some.inj h]
      have hbehind : trimStartChars (afterClosingAngle 1 generics) <:+: trimStartChars rest := by
        rw [hgenerics]
        exact ((dropWhile_suffix _).isInfix.trans (afterClosingAngle_within 1 generics)).trans
          (suffix_cons _ _).isInfix
      exact hbehind.trans hrest'
    · rw [← Option.some.inj h]
      exact hrest'

theorem splitTopLevelFor_within {depth : ℤ} {before first second : List Char}
    (h : splitTopLevelFor depth before text = some (first, second)) :
    first <:+: before.reverse ++ text ∧ second <:+: text := by
  fun_induction splitTopLevelFor depth before text with
  | case1 => exact nomatch h
  | case4 depth before c rest hopen hclose hfor =>
    obtain ⟨rfl, rfl⟩ := Prod.mk.inj (Option.some.inj h)
    exact ⟨(prefix_append _ _).isInfix, (drop_suffix 5 (c :: rest)).isInfix⟩
  | case2 _ _ c rest _ ih | case3 _ _ c rest _ _ ih | case5 _ _ c rest _ _ _ ih =>
    obtain ⟨hfirst, hsecond⟩ := ih h
    rw [reverse_cons, append_assoc] at hfirst
    exact ⟨hfirst, hsecond.trans (suffix_cons c rest).isInfix⟩

/-- A dash in a path is read as an underscore. -/
def dashesRead (path : List Char) : List Char := path.map fun c => if c = '-' then '_' else c

theorem infix_of_mem_moduleSegments {path segment : List Char} (h : segment ∈ moduleSegments path) :
    segment <:+: dashesRead path := by
  unfold moduleSegments at h
  obtain ⟨part, hpart, rfl⟩ := mem_map.mp h
  apply List.IsInfix.map
  refine ((partsOf_splitOnP _ _).pieces part (mem_of_mem_filter hpart)).trans ?_
  split
  · exact infix_rfl
  · rename_i stem extension hsplit
    split_ifs
    · exact infix_rfl
    · rw [(rsplitOnce_eq_some hsplit).1]
      exact (prefix_append stem _).isInfix

/-! ## The hint -/

theorem sublist_of_isSubsequence {needle haystack : List (List Char)}
    (h : isSubsequence needle haystack = true) : needle.Sublist haystack := by
  fun_induction isSubsequence needle haystack with
  | case1 haystack => exact nil_sublist haystack
  | case2 => exact nomatch h
  | case3 needle candidate haystack ih => exact (ih h).cons_cons candidate
  | case4 expected needle candidate haystack hne ih => exact (ih h).cons candidate

theorem QualifierMatch.rank_injective : Function.Injective QualifierMatch.rank := by
  intro a b h
  cases a <;> cases b <;> first | rfl | exact nomatch h

section Names

variable [Unicode]

theorem typeName_within {text name : List Char} (h : typeName text = some name) :
    name <:+: text := by
  simp only [typeName] at h
  split_ifs at h
  rw [← Option.some.inj h]
  refine (trimChars_within _).trans ((afterLastText_within _ _).trans ?_)
  refine (dropWhile_suffix _).isInfix.trans ((trimStartText_within _ _ _).trans ?_)
  refine (trimStartText_within _ _ _).trans ((dropWhile_suffix _).isInfix.trans ?_)
  exact (trimChars_within _).trans ((List.takeWhile_prefix _).isInfix.trans (beforeText_within _ text))

/-- Each word of an owner that a container names is in the container. -/
theorem infix_of_mem_containerScopes {container : List Char} {scope : List (List Char)}
    (hscope : scope ∈ containerScopes (some container)) {word : List Char} (hword : word ∈ scope) :
    word <:+: container := by
  have hempty : ∀ {scope : List (List Char)}, scope ∈ [([] : List (List Char))] → word ∉ scope := by
    intro scope h
    rw [mem_singleton.mp h]
    exact not_mem_nil
  unfold containerScopes at hscope
  split at hscope
  · exact absurd hword (hempty hscope)
  · rename_i trimmed htrimmed
    have htrim : trimmed <:+: container := by
      have h := (Option.filter_eq_some_iff.mp htrimmed).1
      rw [← Option.some.inj h]
      exact trimChars_within container
    split at hscope
    · rename_i header hheader
      have hpart : ∀ {text name : List Char}, text <:+: header → typeName text = some name →
          name <:+: container := fun htext hname =>
        (typeName_within hname).trans (htext.trans ((implHeader_within hheader).trans htrim))
      have hnamed : ∀ {traitPart : Option (List Char)} {typePart : List Char},
          typePart <:+: header → (∀ part, traitPart = some part → part <:+: header) →
          scope ∈ ((typeName typePart).map fun name => [name]).toList ++
            ((traitPart.bind typeName).map fun name => [name]).toList → word <:+: container := by
        intro traitPart typePart htype htrait hscope
        rcases mem_append.mp hscope with hscope | hscope
        · obtain ⟨name, hname, rfl⟩ := Option.map_eq_some_iff.mp (Option.mem_toList.mp hscope)
          rw [mem_singleton.mp hword]
          exact hpart htype hname
        · obtain ⟨name, hname, rfl⟩ := Option.map_eq_some_iff.mp (Option.mem_toList.mp hscope)
          obtain ⟨part, hpart', hname⟩ := Option.bind_eq_some_iff.mp hname
          rw [mem_singleton.mp hword]
          exact hpart (htrait part hpart') hname
      -- both parts of `impl Trait for Type` are pieces of the header
      cases hsplit : splitTopLevelFor 0 [] header with
      | none =>
        rw [hsplit] at hscope
        simp only at hscope
        split_ifs at hscope
        · exact absurd hword (hempty hscope)
        · have hnone : ∀ part : List Char, none = some part → part <:+: header :=
            fun part h => nomatch h
          exact hnamed infix_rfl hnone hscope
      | some parts =>
        obtain ⟨hfirst, hsecond⟩ := splitTopLevelFor_within hsplit
        rw [hsplit] at hscope
        simp only at hscope
        split_ifs at hscope
        · exact absurd hword (hempty hscope)
        · exact hnamed hsecond (fun part h => Option.some.inj h ▸ hfirst) hscope
    · rw [mem_singleton.mp hscope] at hword
      obtain ⟨part, hpart, hword⟩ := mem_flatMap.mp hword
      exact (infix_of_mem_splitTerms hword).trans
        (((partsOf_splitColons trimmed).pieces part hpart).trans htrim)

namespace QualifiedName

variable {name : QualifiedName} {tier : QualifierMatch}

omit [Unicode] in
theorem sublist_of_scopeMatch {owner : List (List Char)} (h : name.scopeMatch owner = some tier) :
    name.qualifier.Sublist owner := by
  unfold scopeMatch at h
  split_ifs at h with hsuffix hsubsequence
  · exact hsuffix.sublist
  · exact sublist_of_isSubsequence hsubsequence

omit [Unicode] in
theorem ownerHint_mem (h : name.isQualified = true) : name.ownerHint ∈ name.qualifier := by
  unfold ownerHint
  have hne : name.qualifier ≠ [] := by
    rintro hnil
    rw [isQualified, hnil] at h
    cases h
  rw [getLastD_eq_getLast?, getLast?_eq_some_getLast hne]
  exact getLast_mem hne

/-- A match comes from one of the owner paths. -/
theorem exists_scope_of_matchesOwner {path : List Char} {container : Option (List Char)}
    (hqualified : name.isQualified = true) (h : name.matchesOwner path container = some tier) :
    ∃ scope ∈ containerScopes container, ∃ found,
      name.scopeMatch (moduleSegments path ++ scope) = some found := by
  have hne : ¬name.qualifier.isEmpty = true := by simpa [isQualified] using hqualified
  rw [matchesOwner, if_neg hne] at h
  by_contra hnone
  push Not at hnone
  -- without a match on any path the fold stays where it starts
  have hfold : (containerScopes container).foldl (fun best scope =>
      better best (name.scopeMatch (moduleSegments path ++ scope))) none = none := by
    refine foldlRecOn (motive := (· = none)) _ _ rfl fun best hbest scope hscope => ?_
    rw [hbest, Option.eq_none_iff_forall_ne_some.mpr (hnone scope hscope)]
    rfl
  rw [hfold] at h
  cases h

/-- The word that the database is asked for is in each row that the qualifier matches. -/
theorem hintHolds_of_matchesOwner {path : Bytes} {container : Option String}
    (h : name.matchesOwner (decodeChars path) (container.map String.toList) = some tier) :
    hintHolds name.ownerHint container path = true := by
  unfold hintHolds
  rw [Bool.or_eq_true]
  cases hqualified : name.isQualified with
  | false =>
    left
    have hempty : name.qualifier = [] := by simpa [isQualified] using hqualified
    rw [ownerHint, hempty]
    rfl
  | true =>
    right
    apply decide_eq_true
    obtain ⟨scope, hscope, found, hfound⟩ := exists_scope_of_matchesOwner hqualified h
    have hmem := (sublist_of_scopeMatch hfound).subset (ownerHint_mem hqualified)
    rcases mem_append.mp hmem with hmodule | hword
    · refine (infix_of_mem_moduleSegments hmodule).trans ?_
      exact ((suffix_cons _ _).trans (suffix_append _ _)).isInfix
    · cases container with
      | none =>
        rw [mem_singleton.mp hscope] at hword
        exact absurd hword not_mem_nil
      | some container =>
        refine (infix_of_mem_containerScopes hscope hword).trans ?_
        exact (prefix_append _ _).isInfix

end QualifiedName

/-! ## The closest tier -/

/-- How the qualifier matches the owner of a hit. -/
def tierOf (name : QualifiedName) (hit : Hit) : Option QualifierMatch :=
  name.matchesOwner (decodeChars hit.path) (hit.container.map String.toList)

/-- The qualifier matches a hit, and no other one more closely. -/
def isClosest (name : QualifiedName) (hits : List Hit) (hit : Hit) : Bool :=
  match tierOf name hit with
  | none => false
  | some tier => hits.all fun other => (tierOf name other).all fun found => tier.rank ≤ found.rank

/-- The hits of the closest tier. -/
def closest (name : QualifiedName) (hits : List Hit) : List Hit := hits.filter (isClosest name hits)

/-- The hits of a tier. -/
def ofTier (name : QualifiedName) (tier : Option QualifierMatch) (hits : List Hit) : List Hit :=
  hits.filter fun hit => (tierOf name hit).isSome && tierOf name hit = tier

/-- The loop over the rows holds the closest tier of the hits it has seen, and the first hits of
that tier. -/
structure Scanned (name : QualifiedName) (resultCap : ℕ) (seen : List Hit) (scan : TierScan) :
    Prop where
  attained : ∀ tier, scan.best = some tier → ∃ hit ∈ seen, tierOf name hit = some tier
  least : ∀ hit ∈ seen, ∀ tier, tierOf name hit = some tier →
    ∃ best, scan.best = some best ∧ best.rank ≤ tier.rank
  hits : scan.hits = (ofTier name scan.best seen).take resultCap
  truncated : scan.truncated = decide (resultCap < (ofTier name scan.best seen).length)

variable {name : QualifiedName} {resultCap : ℕ} {seen rest : List Hit} {scan : TierScan} {hit : Hit}

theorem Scanned.closest_eq (h : Scanned name resultCap seen scan) :
    closest name seen = ofTier name scan.best seen := by
  apply filter_congr
  intro hit hhit
  unfold isClosest
  cases htier : tierOf name hit with
  | none => rfl
  | some tier =>
    obtain ⟨best, hbest, hle⟩ := h.least hit hhit tier htier
    rw [hbest, Option.isSome_some, Bool.true_and, Bool.eq_iff_iff, all_eq_true, decide_eq_true_eq]
    constructor
    · intro hall
      obtain ⟨other, hother, hfound⟩ := h.attained best hbest
      have hrank := hall other hother
      rw [hfound, Option.all_some, decide_eq_true_eq] at hrank
      rw [QualifierMatch.rank_injective (Nat.le_antisymm hrank hle)]
    · intro heq other hother
      cases hfound : tierOf name other with
      | none => rfl
      | some found =>
        obtain ⟨best', hbest', hle'⟩ := h.least other hother found hfound
        rw [hbest] at hbest'
        rw [Option.some.inj heq, Option.some.inj hbest']
        exact decide_eq_true hle'

theorem Scanned.start : Scanned name resultCap [] ⟨[], none, false⟩ where
  attained _ h := nomatch h
  least _ h := absurd h not_mem_nil
  hits := take_nil.symm
  truncated := rfl

/-- One turn of the loop, with the flag that tells whether it goes on. -/
def TierScan.see (name : QualifiedName) (resultCap : ℕ) (scan : TierScan) (hit : Hit) :
    TierScan × Bool :=
  match tierOf name hit with
  | none => (scan, true)
  | some tier =>
    match scan.best with
    | none => TierScan.keep { scan with best := some tier } resultCap name.isQualified tier hit
    | some previous =>
      if previous.rank < tier.rank then (scan, true)
      else if tier.rank < previous.rank then
        TierScan.keep ⟨[], some tier, false⟩ resultCap name.isQualified tier hit
      else scan.keep resultCap name.isQualified tier hit

theorem scanTiers_cons (hits : List Hit) :
    scanTiers name resultCap (hit :: hits) scan =
      if (scan.see name resultCap hit).2 then
        scanTiers name resultCap hits (scan.see name resultCap hit).1
      else (scan.see name resultCap hit).1 := by
  rw [scanTiers]
  unfold TierScan.see tierOf
  cases name.matchesOwner (decodeChars hit.path) (hit.container.map String.toList) with
  | none => rfl
  | some tier =>
    cases hbest : scan.best with
    | none => rfl
    | some previous =>
      simp only
      by_cases hworse : previous.rank < tier.rank
      · simp only [if_pos hworse, if_true]
      · by_cases hbetter : tier.rank < previous.rank
        · simp only [if_neg hworse, if_pos hbetter]
        · simp only [if_neg hworse, if_neg hbetter]

theorem ofTier_append (tier : Option QualifierMatch) (hits others : List Hit) :
    ofTier name tier (hits ++ others) = ofTier name tier hits ++ ofTier name tier others :=
  filter_append ..

theorem ofTier_singleton_of_eq {tier : QualifierMatch} (h : tierOf name hit = some tier) :
    ofTier name (some tier) [hit] = [hit] := by
  simp [ofTier, h]

theorem ofTier_singleton_of_ne {tier : Option QualifierMatch}
    (h : ∀ found, tierOf name hit = some found → tier ≠ some found) :
    ofTier name tier [hit] = [] := by
  cases htier : tierOf name hit with
  | none => simp [ofTier, htier]
  | some found => simp [ofTier, htier, (h found htier).symm]

/-- A row that is not of the closest tier changes nothing. -/
theorem Scanned.pass (h : Scanned name resultCap seen scan)
    (hworse : ∀ tier, tierOf name hit = some tier →
      ∃ best, scan.best = some best ∧ best.rank < tier.rank) :
    Scanned name resultCap (seen ++ [hit]) scan := by
  have hsame : ofTier name scan.best (seen ++ [hit]) = ofTier name scan.best seen := by
    rw [ofTier_append, ofTier_singleton_of_ne, append_nil]
    intro found hfound heq
    obtain ⟨best, hbest, hlt⟩ := hworse found hfound
    rw [hbest] at heq
    rw [Option.some.inj heq] at hlt
    omega
  refine ⟨fun tier htier => ?_, fun other hother tier htier => ?_, ?_, ?_⟩
  · obtain ⟨other, hother, hfound⟩ := h.attained tier htier
    exact ⟨other, mem_append_left _ hother, hfound⟩
  · rcases mem_append.mp hother with hother | hother
    · exact h.least other hother tier htier
    · rw [mem_singleton.mp hother] at htier
      obtain ⟨best, hbest, hlt⟩ := hworse tier htier
      exact ⟨best, hbest, hlt.le⟩
  · rw [hsame, h.hits]
  · rw [hsame, h.truncated]

omit [Unicode] in
/-- A hit is kept or counted. -/
theorem keep_spec (qualified : Bool) (tier : QualifierMatch) {kept : List Hit}
    (hhits : scan.hits = kept.take resultCap)
    (htruncated : scan.truncated = decide (resultCap < kept.length)) :
    let next := (scan.keep resultCap qualified tier hit).1
    next.best = scan.best ∧ next.hits = (kept ++ [hit]).take resultCap ∧
      next.truncated = decide (resultCap < (kept ++ [hit]).length) := by
  have hlength := congrArg List.length hhits
  rw [length_take] at hlength
  rw [length_append, length_singleton]
  unfold TierScan.keep
  by_cases hfull : scan.hits.length = resultCap
  · rw [if_pos hfull]
    refine ⟨rfl, ?_, (decide_eq_true (by omega)).symm⟩
    rw [take_append_of_le_length (by omega)]
    exact hhits
  · rw [if_neg hfull]
    refine ⟨rfl, ?_, htruncated.trans (decide_eq_decide.mpr (by omega))⟩
    show scan.hits ++ [hit] = _
    rw [hhits, take_of_length_le (by omega), take_of_length_le]
    rw [length_append, length_singleton]
    omega

/-- A row of the closest tier is kept or counted, where the state is the one for the rows before
without what they have of other tiers. -/
theorem Scanned.keep {tier : QualifierMatch} (htier : tierOf name hit = some tier)
    (hleast : ∀ other ∈ seen, ∀ found, tierOf name other = some found → tier.rank ≤ found.rank)
    (hbest : scan.best = some tier)
    (hhits : scan.hits = (ofTier name (some tier) seen).take resultCap)
    (htruncated : scan.truncated = decide (resultCap < (ofTier name (some tier) seen).length)) :
    Scanned name resultCap (seen ++ [hit])
      (scan.keep resultCap name.isQualified tier hit).1 := by
  obtain ⟨hbest', hhits', htruncated'⟩ := keep_spec name.isQualified tier hhits htruncated
  rw [hbest] at hbest'
  rw [← ofTier_singleton_of_eq htier, ← ofTier_append] at hhits' htruncated'
  refine ⟨fun t ht => ?_, fun other hother found hfound => ⟨tier, hbest', ?_⟩, ?_, ?_⟩
  · rw [hbest'] at ht
    exact ⟨hit, mem_append_right _ mem_cons_self, htier.trans ht⟩
  · rcases mem_append.mp hother with hother | hother
    · exact hleast other hother found hfound
    · rw [mem_singleton.mp hother, htier] at hfound
      rw [Option.some.inj hfound]
  · rw [hbest']
    exact hhits'
  · rw [hbest']
    exact htruncated'

/-- One turn of the loop. -/
theorem Scanned.see (h : Scanned name resultCap seen scan) (hit : Hit) :
    Scanned name resultCap (seen ++ [hit]) (scan.see name resultCap hit).1 := by
  unfold TierScan.see
  cases htier : tierOf name hit with
  | none => exact h.pass fun tier hsome => nomatch htier.symm.trans hsome
  | some tier =>
    -- no row seen so far is of a tier that is closer than all of them
    have hnew : ∀ {t : QualifierMatch}, (∀ best, scan.best = some best → t.rank < best.rank) →
        ofTier name (some t) seen = [] := by
      intro t hlt
      apply filter_eq_nil_iff.mpr
      intro other hother hfound
      have hfound' : tierOf name other = some t := of_decide_eq_true (Bool.and_elim_right hfound)
      obtain ⟨best, hbest, hle⟩ := h.least other hother t hfound'
      have := hlt best hbest
      omega
    cases hbest : scan.best with
    | none =>
      have hnil : ofTier name (some tier) seen = [] := hnew fun best hsome =>
        nomatch hbest.symm.trans hsome
      have hhits := h.hits
      have htruncated := h.truncated
      have hempty : ofTier name none seen = [] := by
        apply filter_eq_nil_iff.mpr
        intro other hother hfound
        obtain ⟨hsome, hnone⟩ := Bool.and_eq_true_iff.mp hfound
        rw [of_decide_eq_true hnone] at hsome
        exact nomatch hsome
      rw [hbest, hempty] at hhits htruncated
      refine Scanned.keep htier (fun other hother found hfound => ?_) rfl ?_ ?_
      · obtain ⟨best, hsome, -⟩ := h.least other hother found hfound
        exact nomatch hbest.symm.trans hsome
      · rw [hnil]; exact hhits
      · rw [hnil]; exact htruncated
    | some previous =>
      simp only
      by_cases hworse : previous.rank < tier.rank
      · rw [if_pos hworse]
        refine h.pass fun t ht => ⟨previous, hbest, ?_⟩
        rwa [← Option.some.inj (htier.symm.trans ht)]
      · rw [if_neg hworse]
        have hleast : ∀ other ∈ seen, ∀ found, tierOf name other = some found →
            tier.rank ≤ found.rank := by
          intro other hother found hfound
          obtain ⟨best, hsome, hle⟩ := h.least other hother found hfound
          rw [← Option.some.inj (hbest.symm.trans hsome)] at hle
          omega
        by_cases hbetter : tier.rank < previous.rank
        · rw [if_pos hbetter]
          have hnil : ofTier name (some tier) seen = [] := hnew fun best hsome => by
            rwa [← Option.some.inj (hbest.symm.trans hsome)]
          refine Scanned.keep htier hleast rfl ?_ ?_
          · rw [hnil]; exact take_nil.symm
          · rw [hnil]; rfl
        · rw [if_neg hbetter]
          have heq : previous = tier := QualifierMatch.rank_injective (by omega)
          have hhits := h.hits
          have htruncated := h.truncated
          rw [hbest, heq] at hhits htruncated
          exact Scanned.keep htier hleast (by rw [hbest, heq]) hhits htruncated

/-- The loop ends early only at the closest tier there can be, with the hits full. -/
theorem see_stops (h : (scan.see name resultCap hit).2 = false) :
    (scan.see name resultCap hit).1.truncated = true ∧
      (scan.see name resultCap hit).1.best = some .suffix := by
  -- an unqualified name matches each row at that tier
  have hkeep : ∀ {before : TierScan} {tier : QualifierMatch}, tierOf name hit = some tier →
      before.best = some tier →
      (before.keep resultCap name.isQualified tier hit).2 = false →
      (before.keep resultCap name.isQualified tier hit).1.truncated = true ∧
        (before.keep resultCap name.isQualified tier hit).1.best = some .suffix := by
    intro before tier htier hbest hstop
    unfold TierScan.keep at hstop ⊢
    split_ifs at hstop ⊢ with hfull
    refine ⟨rfl, ?_⟩
    show before.best = some .suffix
    rw [hbest]
    cases hqualified : name.isQualified with
    | false =>
      have hsuffix := QualifiedName.matchesOwner_of_unqualified hqualified (decodeChars hit.path)
        (hit.container.map String.toList)
      exact htier.symm.trans hsuffix
    | true =>
      rw [hqualified, Bool.true_and, decide_eq_false_iff_not, not_not] at hstop
      rw [hstop]
  unfold TierScan.see at h ⊢
  cases htier : tierOf name hit with
  | none =>
    rw [htier] at h
    exact nomatch h
  | some tier =>
    rw [htier] at h
    cases hbest : scan.best with
    | none =>
      rw [hbest] at h
      exact hkeep htier rfl h
    | some previous =>
      rw [hbest] at h
      simp only at h ⊢
      split_ifs at h ⊢ with hworse hbetter
      · exact hkeep htier rfl h
      · have heq : previous = tier := QualifierMatch.rank_injective (by omega)
        exact hkeep htier (by rw [hbest, heq]) h

theorem Scanned.extend (h : Scanned name resultCap seen scan) (htruncated : scan.truncated = true)
    (hbest : scan.best = some .suffix) (rest : List Hit) :
    Scanned name resultCap (seen ++ rest) scan := by
  have hlength := h.truncated
  rw [htruncated] at hlength
  have hover := of_decide_eq_true hlength.symm
  refine ⟨fun tier htier => ?_, fun other hother tier htier => ?_, ?_, ?_⟩
  · obtain ⟨other, hother, hfound⟩ := h.attained tier htier
    exact ⟨other, mem_append_left _ hother, hfound⟩
  · exact ⟨.suffix, hbest, Nat.zero_le _⟩
  · rw [ofTier_append, take_append_of_le_length hover.le, h.hits]
  · rw [htruncated, ofTier_append, length_append]
    exact (decide_eq_true (by omega)).symm

/-- The whole loop. -/
theorem Scanned.scanTiers (h : Scanned name resultCap seen scan) (hits : List Hit) :
    Scanned name resultCap (seen ++ hits) (scanTiers name resultCap hits scan) := by
  induction hits generalizing seen scan with
  | nil => rwa [append_nil]
  | cons hit hits ih =>
    have hsee := h.see hit
    rw [scanTiers_cons]
    cases hgoes : (scan.see name resultCap hit).2 with
    | true =>
      rw [if_pos rfl]
      have hrest := ih hsee
      rwa [append_assoc] at hrest
    | false =>
      obtain ⟨htruncated, hbest⟩ := see_stops hgoes
      have hrest := hsee.extend htruncated hbest hits
      rw [append_assoc] at hrest
      exact hrest

theorem scanTiers_spec (name : QualifiedName) (resultCap : ℕ) (hits : List Hit) :
    (scanTiers name resultCap hits ⟨[], none, false⟩).hits = (closest name hits).take resultCap ∧
      (scanTiers name resultCap hits ⟨[], none, false⟩).truncated =
        decide (resultCap < (closest name hits).length) := by
  have h : Scanned name resultCap hits (Search.scanTiers name resultCap hits ⟨[], none, false⟩) :=
    Scanned.start.scanTiers hits
  rw [h.closest_eq]
  exact ⟨h.hits, h.truncated⟩

/-! ## The query -/

/-- Rows that the qualifier does not match have no part in the closest tier. -/
theorem closest_filter {p : Hit → Bool} {hits : List Hit}
    (h : ∀ hit ∈ hits, (tierOf name hit).isSome → p hit = true) :
    closest name (hits.filter p) = closest name hits := by
  unfold closest
  rw [filter_filter]
  apply filter_congr
  intro hit hhit
  unfold isClosest
  cases htier : tierOf name hit with
  | none => rfl
  | some tier =>
    rw [h hit hhit (by rw [htier]; rfl), Bool.and_true, Bool.eq_iff_iff, all_eq_true, all_eq_true]
    constructor
    · intro hall other hother
      cases hfound : tierOf name other with
      | none => rfl
      | some found =>
        have hmem := mem_filter.mpr ⟨hother, h other hother (by rw [hfound]; rfl)⟩
        have hle := hall other hmem
        rwa [hfound] at hle
    · exact fun hall other hother => hall other (mem_of_mem_filter hother)

theorem closest_of_unqualified (h : name.isQualified = false) (hits : List Hit) :
    closest name hits = hits := by
  apply filter_eq_self.mpr
  intro hit _
  have htier : ∀ hit, tierOf name hit = some .suffix := fun hit =>
    QualifiedName.matchesOwner_of_unqualified h _ _
  unfold isClosest
  rw [htier]
  exact all_eq_true.mpr fun other _ => by rw [htier]; rfl

instance : Std.TransCmp FoundDefinition.placeOrder :=
  inferInstanceAs (Std.TransCmp (compareLex _ (compareLex _ _)))

instance : Std.TransCmp FoundDefinition.pathOrder :=
  inferInstanceAs (Std.TransCmp (compareLex _ FoundDefinition.placeOrder))

/-- The definitions with a name that pass the filters, in the order of the query. -/
def namedHits (snapshot : Snapshot) (name : QualifiedName) (paths : BoundPathFilter)
    (language : Option SourceLanguage) (kind : String) : List Hit :=
  (orderBy FoundDefinition.pathOrder (foundDefinitions snapshot paths language kind fun row =>
    row.name.toList = name.name)).map FoundDefinition.hit

theorem hintHolds_of_tierOf (found : FoundDefinition) (h : (tierOf name found.hit).isSome) :
    hintHolds name.ownerHint found.row.container found.source.file.path.1 = true := by
  obtain ⟨tier, htier⟩ := Option.isSome_iff_exists.mp h
  exact QualifiedName.hintHolds_of_matchesOwner htier

/-- The hits of the rows that the database gives for the hint have the same closest tier. -/
theorem closest_hinted (rows : List FoundDefinition) :
    closest name ((orderBy FoundDefinition.pathOrder (rows.filter fun found =>
        hintHolds name.ownerHint found.row.container found.source.file.path.1)).map
          FoundDefinition.hit) =
      closest name ((orderBy FoundDefinition.pathOrder rows).map FoundDefinition.hit) := by
  rw [← filter_orderBy]
  have hfilter : ((orderBy FoundDefinition.pathOrder rows).filter fun found =>
        hintHolds name.ownerHint found.row.container found.source.file.path.1).map
          FoundDefinition.hit =
      ((orderBy FoundDefinition.pathOrder rows).map FoundDefinition.hit).filter fun hit =>
        hintHolds name.ownerHint hit.container hit.path := by
    rw [filter_map]
    rfl
  rw [hfilter]
  apply closest_filter
  intro hit hhit htier
  obtain ⟨found, -, rfl⟩ := mem_map.mp hhit
  exact hintHolds_of_tierOf found htier

/-- What the loop keeps of hits that have the closest tier of others, cut at most behind the
limit. -/
theorem scanTiers_capped {hits all : List Hit} {limit : ℕ}
    (hsame : (closest name hits).take (limit + 1) = (closest name all).take (limit + 1)) :
    let scan := scanTiers name (limit + 1) hits ⟨[], none, false⟩
    (⟨scan.hits.take limit, scan.truncated || decide (limit < scan.hits.length)⟩ : LaneHits) =
      ⟨(closest name all).take limit, decide (limit < (closest name all).length)⟩ := by
  intro scan
  obtain ⟨hhits, htruncated⟩ := scanTiers_spec name (limit + 1) hits
  have hlengths := congrArg List.length hsame
  rw [length_take, length_take] at hlengths
  rw [hhits, htruncated, hsame, take_take, min_eq_left (Nat.le_succ limit), length_take]
  congr 1
  rw [Bool.eq_iff_iff, Bool.or_eq_true, decide_eq_true_eq, decide_eq_true_eq, decide_eq_true_eq]
  omega

/-- The first rows of the closest tier among all definitions of the name, and whether there are
more; the hint for the database costs no row that the qualifier matches. A table has fewer rows
than the greatest limit of a query. -/
theorem qualifiedHitsWithLimit_spec (snapshot : Snapshot) (name : QualifiedName)
    (paths : BoundPathFilter) (language : Option SourceLanguage) (kind : String) (limit : ℕ)
    (hrows : snapshot.definitions.length < 2 ^ 63) :
    let found := closest name (namedHits snapshot name paths language kind)
    qualifiedHitsWithLimit snapshot name paths language kind limit =
        ⟨found.take limit, decide (limit < found.length)⟩ ∧
      ∀ row ∈ snapshot.definitions, ∀ source : SourceRow,
        (name.matchesOwner (decodeChars source.file.path.1)
          (row.container.map String.toList)).isSome →
        hintHolds name.ownerHint row.container source.file.path.1 = true := by
  refine ⟨?_, fun row _ source h => hintHolds_of_tierOf ⟨source, row⟩ h⟩
  set rows := foundDefinitions snapshot paths language kind fun row => row.name.toList = name.name
    with hrowsDef
  have hlength : rows.length ≤ snapshot.definitions.length := length_filterMap_le ..
  unfold qualifiedHitsWithLimit
  apply scanTiers_capped
  rw [← hrowsDef]
  cases hqualified : name.isQualified with
  | true =>
    rw [if_pos rfl]
    have hfit : (orderBy FoundDefinition.pathOrder (rows.filter fun found =>
        hintHolds name.ownerHint found.row.container found.source.file.path.1)).length ≤
          2 ^ 63 - 1 := by
      rw [(orderBy_perm ..).length_eq]
      exact (length_filter_le _ rows).trans (by omega)
    rw [take_of_length_le hfit]
    exact congrArg (List.take (limit + 1)) (closest_hinted rows)
  | false =>
    rw [if_neg Bool.false_ne_true, closest_of_unqualified hqualified,
      closest_of_unqualified hqualified, map_take, take_take, min_self]
    have hall : (rows.filter fun found => hintHolds name.ownerHint found.row.container
        found.source.file.path.1) = rows := by
      apply filter_eq_self.mpr
      intro found _
      apply hintHolds_of_tierOf found
      rw [tierOf, QualifiedName.matchesOwner_of_unqualified hqualified]
      rfl
    rw [hall]
    rfl

end Names

/-- A file with a function `b` in `A` and one outside. -/
def twoNamed : Snapshot where
  files := [⟨1, ⟨ascii "a.rs", by decide⟩, some [1], .rust⟩]
  uniqueIds := nodup_singleton _
  uniquePaths := nodup_singleton _
  contents := [([1], ascii "fn b")]
  uniqueRevisions := nodup_singleton _
  definitions := [⟨1, 1, "b", "function", 0, 4, none⟩, ⟨2, 1, "b", "method", 0, 4, some "impl A"⟩]
  occurrences := []
  regions := []
  fullText := ⟨fun _ _ => false, fun _ _ => 0⟩

theorem twoNamed_spec :
    letI := Unicode.ofAscii
    let name : QualifiedName := ⟨["A".toList], "b".toList⟩
    let found := closest name (namedHits twoNamed name ⟨[], []⟩ none "")
    twoNamed.definitions.length < 2 ^ 63 ∧
      qualifiedHitsWithLimit twoNamed name ⟨[], []⟩ none "" 1 =
        ⟨found.take 1, decide (1 < found.length)⟩ :=
  letI := Unicode.ofAscii
  ⟨by decide, (qualifiedHitsWithLimit_spec twoNamed _ _ none "" 1 (by decide)).1⟩

end Trufflepig.Search
