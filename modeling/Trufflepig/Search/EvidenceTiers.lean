import Trufflepig.Search.FileRanking

/-!
# Identifier tiers through the two fusions

A search fuses its lexical lanes, and then the ranking it has got with the semantic hits
(`search_prepared` in `search.rs`, `append` in `search/semantic_lane.rs`). A lane counts with the first
hit of a file only, and the second fusion sees one hit per file, of the first thousand files.

* `shown_evidence`: what the hit that represents a file shows of its evidence.
* `tiers_hold`: when the files stay in the order of their evidence, whatever the semantic hits, and
  when they do not.
* `phrase_hides_use`: a file that uses the identifier comes behind one that does not have it.
-/

namespace Trufflepig.Search

open List Lib Results

/-! ## Scores of single hits -/

/-- The score of a file with one hit, of a weight and a rank. -/
def soleScore (weight : Float) (rank : ℕ) : Float :=
  0.0 + weight / (rrfK + rank.toUInt64.toFloat + 1.0)

theorem one_mul_one : (1.0 : Float) * 1.0 = 1.0 := by
  decide +kernel

section Fusions

variable [Unicode]

/-- A weight does not bring the second rank before the first one. -/
theorem soleScore_weight_le (prior : PathPrior) (path : Bytes) :
    totalKey (soleScore (1.0 * prior.weight path) 1) ≤ totalKey (soleScore 1.0 0) := by
  rcases prior.weight_cases path with h | h
  · rw [h]
    decide +kernel
  · rw [h]
    decide +kernel

/-! ## The evidence of the lanes -/

omit [Unicode] in
theorem IdentifierEvidence.ne_of_between {e : IdentifierEvidence} (h : e = .used ∨ e = .defined) :
    e ≠ .absent ∧ e ≠ .named := by
  rcases h with rfl | rfl <;> decide

/-- The policy of a second fusion (`search_prepared` in `search.rs`). -/
def FusionPolicy.refusion (policy : FusionPolicy) : FusionPolicy :=
  { policy with laneWeights := false, priorFromLane := 1 }

/-- The ranking of the lexical lanes, fused with semantic hits. -/
def rankWithSemantic (policy : FusionPolicy) (lanes : List (List Hit)) (semantic : List Hit) :
    List Hit :=
  fuseSearchFileLanes [fuseSearchFileLanes lanes policy, semantic] policy.refusion

/-- The strongest evidence that any hit of the lanes gives for a file. -/
def laneEvidence (policy : FusionPolicy) (lanes : List (List Hit)) (path : Bytes) :
    IdentifierEvidence :=
  ((lanes.flatten.filter fun hit => hit.path = path).map fun hit =>
    (FileEvidence.ofHit hit policy).identifierEvidence).foldr max .absent

variable {policy : FusionPolicy} {lanes : List (List Hit)} {path : Bytes} {hit : Hit}

theorem le_laneEvidence (h : hit ∈ lanes.flatten) :
    (FileEvidence.ofHit hit policy).identifierEvidence ≤ laneEvidence policy lanes hit.path :=
  IdentifierEvidence.le_foldr_max (mem_map_of_mem (mem_filter.mpr ⟨h, decide_eq_true rfl⟩))

theorem laneEvidence_le {bound : IdentifierEvidence} (h : ∀ hit ∈ lanes.flatten, hit.path = path →
    (FileEvidence.ofHit hit policy).identifierEvidence ≤ bound) :
    laneEvidence policy lanes path ≤ bound := by
  refine IdentifierEvidence.foldr_max_le (forall_mem_map.mpr fun hit hhit => ?_)
  obtain ⟨hmem, hpath⟩ := mem_filter.mp hhit
  exact h hit hmem (of_decide_eq_true hpath)

theorem exists_hit_of_laneEvidence (h : laneEvidence policy lanes path ≠ .absent) :
    ∃ hit ∈ lanes.flatten, hit.path = path := by
  by_contra hnone
  push Not at hnone
  exact h (le_antisymm (laneEvidence_le fun hit hhit hpath => absurd hpath (hnone hit hhit))
    (IdentifierEvidence.absent_le _))

variable {c : Contribution}

omit [Unicode] in
theorem mem_flatten_of_given (h : c ∈ given lanes path) : c.hit ∈ lanes.flatten := by
  obtain ⟨⟨lane, hlane, hget⟩, -⟩ := mem_given.mp h
  exact mem_flatten.mpr ⟨lane, mem_of_getElem? hlane, (firstByKey_sublist lane).subset
    ((take_sublist ..).subset (mem_of_getElem? hget))⟩

omit [Unicode] in
/-- A lane gives one hit for a file. -/
theorem eq_of_lane {d : Contribution} (hd : d ∈ given lanes path) (hc : c ∈ given lanes path)
    (h : d.lane = c.lane) : d = c := by
  have : Std.Symm fun c d : Contribution => c.lane ≠ d.lane := ⟨fun _ _ => Ne.symm⟩
  by_contra hne
  exact ((pairwise_given lanes path).imp Nat.ne_of_lt).forall hd hc hne h

/-- The hits that are counted are hits of the lanes. -/
theorem strongest_le_laneEvidence :
    strongestEvidence lanes policy path ≤ laneEvidence policy lanes path := by
  refine strongest_le fun c hc => ?_
  rw [← (mem_given.mp hc).2]
  exact le_laneEvidence (mem_flatten_of_given hc)

variable (htier : policy.identifierTier = true)
include htier

theorem ofHit_named : FileEvidence.ofHit hit policy = .named ↔
    policy.prior.namesExactly hit.path = true := by
  rw [FileEvidence.ofHit, htier, Bool.true_and]
  constructor
  · intro h
    by_contra hnot
    rw [if_neg hnot] at h
    split_ifs at h <;> split at h <;> exact nomatch h
  · exact fun h => if_pos h

/-- Only a hit of a file that the query names is evidence that it is named. -/
theorem ofHit_le_defined (h : policy.prior.namesExactly hit.path ≠ true) :
    (FileEvidence.ofHit hit policy).identifierEvidence ≤ .defined := by
  cases hevidence : FileEvidence.ofHit hit policy with
  | named => exact absurd ((ofHit_named htier).mp hevidence) h
  | absent | used | defined | phrase => decide

theorem laneEvidence_of_named (hhit : hit ∈ lanes.flatten)
    (h : policy.prior.namesExactly hit.path = true) :
    laneEvidence policy lanes hit.path = .named := by
  have hle : (FileEvidence.ofHit hit policy).identifierEvidence ≤ _ := le_laneEvidence hhit
  rw [(ofHit_named htier).mpr h] at hle
  exact le_antisymm (IdentifierEvidence.le_named _) hle

theorem named_of_laneEvidence (h : laneEvidence policy lanes path = .named) :
    policy.prior.namesExactly path = true := by
  by_contra hnot
  have hle : laneEvidence policy lanes path ≤ .defined :=
    laneEvidence_le fun hit _ hpath => ofHit_le_defined htier (hpath ▸ hnot)
  rw [h] at hle
  exact absurd hle (by decide)

/-- A file that is counted and that the query names has the strongest evidence. -/
theorem strongest_of_named (hnamed : policy.prior.namesExactly path = true)
    (h : given lanes path ≠ []) : strongestEvidence lanes policy path = .named := by
  obtain ⟨c, hc⟩ := exists_mem_of_ne_nil _ h
  have hle : (c.evidence policy).identifierEvidence ≤ _ := evidence_le_strongest hc
  rw [Contribution.evidence, (ofHit_named htier).mpr (by rwa [(mem_given.mp hc).2])] at hle
  exact le_antisymm (IdentifierEvidence.le_named _) hle

omit htier

/-! ## What the representative shows -/

/-- What is shown of the evidence of a file: nothing if a hit of a phrase comes before every other
hit of the best tier. -/
def shownEvidence (policy : FusionPolicy) (lanes : List (List Hit)) (path : Bytes) :
    IdentifierEvidence :=
  if ((given lanes path).map fun c => c.evidence policy).find? (fun e => e.tier = 0) = some .phrase
  then .absent else strongestEvidence lanes policy path

theorem shown_le_strongest : shownEvidence policy lanes path ≤ strongestEvidence lanes policy path := by
  rw [shownEvidence]
  split_ifs
  · exact IdentifierEvidence.absent_le _
  · exact le_rfl

/-- The first evidence of the best tier is that of the representative, if it is of this tier. -/
theorem find_tier {before after : List Contribution}
    (hsplit : given lanes path = before ++ c :: after)
    (hbefore : ∀ d ∈ before, (c.evidence policy).tier < (d.evidence policy).tier)
    (hafter : ∀ d ∈ after, (c.evidence policy).tier ≤ (d.evidence policy).tier) :
    ((given lanes path).map fun c => c.evidence policy).find? (fun e => e.tier = 0) =
      if (c.evidence policy).tier = 0 then some (c.evidence policy) else none := by
  have hnone : (before.map fun c => c.evidence policy).find? (fun e => e.tier = 0) = none := by
    rw [find?_eq_none]
    intro e he
    obtain ⟨d, hd, rfl⟩ := mem_map.mp he
    have hlt := hbefore d hd
    simp only [decide_eq_true_eq]
    omega
  rw [hsplit, map_append, find?_append, hnone, Option.none_or, map_cons]
  split_ifs with htier
  · exact find?_cons_of_pos (decide_eq_true htier)
  · rw [find?_cons_of_neg (by simpa using htier), find?_eq_none]
    intro e he
    obtain ⟨d, hd, rfl⟩ := mem_map.mp he
    have hle := hafter d hd
    simp only [decide_eq_true_eq]
    omega

omit [Unicode] in
/-- Below the best tier, a worse tier has no more evidence. -/
theorem FileEvidence.le_of_tier {e d : FileEvidence} (hpos : 0 < e.tier) (h : e.tier ≤ d.tier) :
    d.identifierEvidence ≤ e.identifierEvidence := by
  cases e <;> cases d <;> first | decide | exact absurd h (by decide) | exact absurd hpos (by decide)

variable {s : FileScore}

/-- The hit that represents a file shows its evidence, unless it is one of a phrase. -/
theorem shown_evidence (htier : policy.identifierTier = true) (h : s ∈ (files lanes policy).rows) :
    (FileEvidence.ofHit s.representative policy).identifierEvidence =
      shownEvidence policy lanes s.representative.path := by
  obtain ⟨before, c, after, hsplit, hhit, -, -, hbefore, hafter⟩ := (mem_files h).represented
  have hc : c ∈ given lanes s.representative.path :=
    hsplit ▸ mem_append_right before mem_cons_self
  -- Every other hit is of the tier of the representative or a worse one.
  have hall : ∀ d ∈ given lanes s.representative.path,
      (c.evidence policy).tier ≤ (d.evidence policy).tier := by
    intro d hd
    rw [hsplit] at hd
    rcases mem_append.mp hd with hd | hd
    · exact (hbefore d hd).le
    · rcases mem_cons.mp hd with rfl | hd
      · exact le_refl _
      · exact hafter d hd
  have hshown : FileEvidence.ofHit s.representative policy = c.evidence policy := by
    rw [hhit]
    rfl
  rw [hshown, shownEvidence, find_tier hsplit hbefore hafter]
  by_cases hphrase : c.evidence policy = .phrase
  · rw [hphrase]
    rfl
  have hfirst : ¬(if (c.evidence policy).tier = 0 then some (c.evidence policy) else none) =
      some .phrase := by
    split_ifs
    · exact fun h => hphrase (Option.some.inj h)
    · simp
  rw [if_neg hfirst]
  refine le_antisymm (evidence_le_strongest hc) (strongest_le fun d hd => ?_)
  by_cases hpos : 0 < (c.evidence policy).tier
  · exact FileEvidence.le_of_tier hpos (hall d hd)
  · -- A hit that names the file would make this one name it, too.
    cases hevidence : c.evidence policy with
    | named => exact IdentifierEvidence.le_named _
    | defined =>
      refine ofHit_le_defined htier fun hnamed => ?_
      rw [(mem_given.mp hd).2, ← (mem_given.mp hc).2, ← ofHit_named htier] at hnamed
      cases hnamed.symm.trans hevidence
    | phrase => exact absurd hevidence hphrase
    | used | absent => exact absurd (by rw [hevidence]; decide) hpos

/-! ## The second fusion -/

omit [Unicode] in
/-- What the two lanes of a second fusion give for a file. -/
theorem mem_given_pair {first second : List Hit} :
    c ∈ given [first, second] path ↔ c.hit.path = path ∧
      (c.lane = 0 ∧ (laneFiles first)[c.rank]? = some c.hit ∨
        c.lane = 1 ∧ (laneFiles second)[c.rank]? = some c.hit) := by
  obtain ⟨lane, rank, hit⟩ := c
  rw [mem_given, and_comm, Contribution.InLanes]
  rcases lane with _ | _ | lane <;> simp

/-- The first fusion gives its first thousand files. -/
theorem laneFiles_fuse (lanes : List (List Hit)) (policy : FusionPolicy) :
    laneFiles (fuseSearchFileLanes lanes policy) =
      (fuseSearchFileLanes lanes policy).take fileCandidateLimit := by
  rw [laneFiles, firstByKey_of_nodup (fuse_paths_nodup lanes policy)]

theorem exists_of_mem_fuse (h : hit ∈ fuseSearchFileLanes lanes policy) :
    ∃ s ∈ (files lanes policy).rows, s.representative = hit := by
  rw [fuse_eq] at h
  obtain ⟨s, hs, heq⟩ := mem_map.mp h
  exact ⟨s, mem_rankedFiles.mp hs, heq⟩

theorem ofHit_semantic (htier : policy.identifierTier = true)
    (h : hit.provenance = some .semantic) :
    FileEvidence.ofHit hit policy =
      if policy.prior.namesExactly hit.path then .named else .absent := by
  rw [FileEvidence.ofHit, htier, h]
  rfl

/-- The strongest evidence that the second fusion counts for a file. -/
def finalEvidence (policy : FusionPolicy) (lanes : List (List Hit)) (semantic : List Hit)
    (path : Bytes) : IdentifierEvidence :=
  strongestEvidence [fuseSearchFileLanes lanes policy, semantic] policy.refusion path

/-- The semantic hits of files that the query names are hits of files that a lane has found. -/
def NamedFound (policy : FusionPolicy) (lanes : List (List Hit)) (semantic : List Hit) : Prop :=
  ∀ hit ∈ semantic, policy.prior.namesExactly hit.path = true →
    hit.path ∈ lanes.flatten.map Hit.path

variable {semantic : List Hit}

/-- The hit of a file in the first lane of the second fusion shows its evidence. -/
theorem ofHit_fused (htier : policy.identifierTier = true)
    (h : hit ∈ fuseSearchFileLanes lanes policy) :
    (FileEvidence.ofHit hit policy).identifierEvidence = shownEvidence policy lanes hit.path := by
  obtain ⟨s, hs, rfl⟩ := exists_of_mem_fuse h
  exact shown_evidence htier hs

/-- The second fusion adds no evidence. -/
theorem final_le_laneEvidence (htier : policy.identifierTier = true)
    (hsemantic : ∀ hit ∈ semantic, hit.provenance = some .semantic)
    (hnamed : NamedFound policy lanes semantic) :
    finalEvidence policy lanes semantic path ≤ laneEvidence policy lanes path := by
  refine strongest_le fun c hc => ?_
  show (FileEvidence.ofHit c.hit policy).identifierEvidence ≤ _
  obtain ⟨rfl, ⟨-, hget⟩ | ⟨-, hget⟩⟩ := mem_given_pair.mp hc
  · rw [laneFiles_fuse] at hget
    rw [ofHit_fused htier ((take_sublist ..).subset (mem_of_getElem? hget))]
    exact shown_le_strongest.trans strongest_le_laneEvidence
  · have hmem : c.hit ∈ semantic := (firstByKey_sublist semantic).subset
      ((take_sublist ..).subset (mem_of_getElem? hget))
    rw [ofHit_semantic htier (hsemantic _ hmem)]
    split_ifs with hexactly
    · obtain ⟨hit, hhit, hpath⟩ := mem_map.mp (hnamed _ hmem hexactly)
      rw [← hpath] at hexactly ⊢
      rw [laneEvidence_of_named htier hhit hexactly]
      exact le_refl _
    · exact IdentifierEvidence.absent_le _

/-! ## The files with evidence -/

/-- The files for which the lanes give evidence. -/
def strongFiles (policy : FusionPolicy) (lanes : List (List Hit)) : List Bytes :=
  (lanes.flatten.map Hit.path).dedup.filter fun path => strongestEvidence lanes policy path ≠ .absent

/-- Whether a file has evidence. -/
def FileScore.strong (s : FileScore) : Bool := s.identifierEvidence ≠ .absent

theorem given_ne_nil_of_strongest (h : strongestEvidence lanes policy path ≠ .absent) :
    given lanes path ≠ [] := by
  intro hnil
  apply h
  rw [strongestEvidence, hnil]
  rfl

theorem length_strongFiles (policy : FusionPolicy) (lanes : List (List Hit)) :
    (strongFiles policy lanes).length =
      ((rankedFiles lanes policy).filter FileScore.strong).length := by
  have hnodup := fuse_paths_nodup lanes policy
  rw [fuse_eq, map_map] at hnodup
  have hperm : (strongFiles policy lanes).Perm (((rankedFiles lanes policy).filter
      FileScore.strong).map fun s => s.representative.path) := by
    refine (perm_ext_iff_of_nodup ((nodup_dedup _).filter _)
      (hnodup.sublist (filter_sublist.map _))).mpr fun path => ?_
    rw [mem_filter, mem_dedup, mem_map, mem_map]
    constructor
    · rintro ⟨-, hstrong⟩
      have hstrong' : strongestEvidence lanes policy path ≠ .absent := of_decide_eq_true hstrong
      obtain ⟨s, hs, rfl⟩ := (exists_mem_files policy).mpr (given_ne_nil_of_strongest hstrong')
      refine ⟨s, mem_filter.mpr ⟨mem_rankedFiles.mpr hs, ?_⟩, rfl⟩
      rw [FileScore.strong, (mem_files hs).strongest]
      exact hstrong
    · rintro ⟨s, hs, rfl⟩
      obtain ⟨hs, hstrong⟩ := mem_filter.mp hs
      have hrow := mem_rankedFiles.mp hs
      rw [FileScore.strong, (mem_files hrow).strongest] at hstrong
      refine ⟨?_, hstrong⟩
      obtain ⟨lane, hlane, hpath⟩ := given_ne_nil_iff.mp
        (given_ne_nil_of_strongest (of_decide_eq_true hstrong))
      obtain ⟨hit, hhit, heq⟩ := mem_map.mp hpath
      exact ⟨hit, mem_flatten.mpr ⟨lane, hlane, (firstByKey_sublist lane).subset
        ((take_sublist ..).subset hhit)⟩, heq⟩
  rw [hperm.length_eq, length_map]

variable {i : ℕ}

/-- The files with evidence come first. -/
theorem strong_before {j : ℕ} {t : FileScore} (hij : i ≤ j)
    (hs : (rankedFiles lanes policy)[i]? = some s) (ht : (rankedFiles lanes policy)[j]? = some t) :
    t.identifierEvidence ≤ s.identifierEvidence := by
  rcases hij.lt_or_eq with hlt | rfl
  · obtain ⟨hi, rfl⟩ := List.getElem?_eq_some_iff.mp hs
    obtain ⟨hj, rfl⟩ := List.getElem?_eq_some_iff.mp ht
    have hle := pairwise_iff_getElem.mp (pairwise_rankedFiles lanes policy) i j hi hj hlt
    by_contra hnot
    rw [swap_of_isLE (fileOrder_of_evidence (lt_of_not_ge hnot))] at hle
    exact nomatch hle
  · rw [Option.some.inj (hs.symm.trans ht)]

/-- If the files with evidence are few, each of them is among the first thousand. -/
theorem index_lt_of_few (hfew : (strongFiles policy lanes).length ≤ fileCandidateLimit)
    (hs : (rankedFiles lanes policy)[i]? = some s) (hstrong : s.strong = true) :
    i < fileCandidateLimit := by
  have hall : ((rankedFiles lanes policy).take (i + 1)).filter FileScore.strong =
      (rankedFiles lanes policy).take (i + 1) := by
    rw [filter_eq_self]
    intro t ht
    obtain ⟨j, hj, hget⟩ := mem_take_iff_getElem.mp ht
    have hle := strong_before (show j ≤ i by omega) (List.getElem?_eq_some_iff.mpr ⟨_, hget⟩) hs
    have hne : s.identifierEvidence ≠ .absent := of_decide_eq_true hstrong
    refine decide_eq_true fun habsent => hne ?_
    rw [habsent] at hle
    exact le_antisymm hle (IdentifierEvidence.absent_le _)
  have hlength := (List.Sublist.filter FileScore.strong
    (take_sublist (i + 1) (rankedFiles lanes policy))).length_le
  have hi := (List.getElem?_eq_some_iff.mp hs).1
  rw [hall, length_take, ← length_strongFiles] at hlength
  omega

/-- Otherwise one of them is behind the first thousand, and its file is not named by the query
if there is one that is not. -/
theorem exists_cut (hmany : fileCandidateLimit < (strongFiles policy lanes).length)
    (hweak : ∃ path, strongestEvidence lanes policy path ≠ .absent ∧
      strongestEvidence lanes policy path ≠ .named) :
    ∃ s ∈ (rankedFiles lanes policy).drop fileCandidateLimit,
      s.identifierEvidence ≠ .absent ∧ s.identifierEvidence ≠ .named := by
  rw [length_strongFiles] at hmany
  obtain ⟨t, ht, hstrong⟩ :
      ∃ t ∈ (rankedFiles lanes policy).drop fileCandidateLimit, t.strong = true := by
    by_contra hnone
    push Not at hnone
    have hdrop : ((rankedFiles lanes policy).drop fileCandidateLimit).filter FileScore.strong =
        [] := filter_eq_nil_iff.mpr hnone
    rw [← take_append_drop fileCandidateLimit (rankedFiles lanes policy),
      filter_append, hdrop, append_nil] at hmany
    have hle := (filter_sublist (p := FileScore.strong)
      (l := (rankedFiles lanes policy).take fileCandidateLimit)).length_le
    rw [length_take] at hle
    omega
  by_cases hnamed : t.identifierEvidence = .named
  · obtain ⟨path, hpath, hnot⟩ := hweak
    obtain ⟨s, hs, rfl⟩ := (exists_mem_files policy).mpr (given_ne_nil_of_strongest hpath)
    rw [← (mem_files hs).strongest] at hpath hnot
    refine ⟨s, ?_, hpath, hnot⟩
    obtain ⟨i, hi⟩ := mem_iff_getElem?.mp (mem_rankedFiles.mpr hs)
    obtain ⟨j, hj⟩ := mem_iff_getElem?.mp ht
    rw [getElem?_drop] at hj
    -- Before a named file there are only named ones.
    have hbehind : fileCandidateLimit ≤ i := by
      by_contra hbefore
      have hle := strong_before (show i ≤ fileCandidateLimit + j by omega) hi hj
      rw [hnamed] at hle
      exact hnot (le_antisymm (IdentifierEvidence.le_named _) hle)
    refine mem_iff_getElem?.mpr ⟨i - fileCandidateLimit, ?_⟩
    rw [getElem?_drop, Nat.add_sub_cancel' hbehind]
    exact hi
  · exact ⟨t, ht, of_decide_eq_true hstrong, hnamed⟩

/-- What the lanes must show for the tiers to hold: a file that uses or declares the identifier
shows evidence, and the files with evidence are at most a thousand unless the query names them
all. -/
structure ShownTiers (policy : FusionPolicy) (lanes : List (List Hit)) : Prop where
  visible : ∀ path, laneEvidence policy lanes path = .used ∨
    laneEvidence policy lanes path = .defined → .absent < shownEvidence policy lanes path
  few : (strongFiles policy lanes).length ≤ fileCandidateLimit ∨
    ∀ path, strongestEvidence lanes policy path = .absent ∨
      strongestEvidence lanes policy path = .named

/-- A file that declares the identifier shows that, too, or no file only uses it. -/
structure TiersKept (policy : FusionPolicy) (lanes : List (List Hit)) : Prop
    extends ShownTiers policy lanes where
  declared : (∀ path, laneEvidence policy lanes path = .defined →
      shownEvidence policy lanes path = .defined) ∨
    ∀ path, laneEvidence policy lanes path ≠ .used

/-- A file that the lanes name is named in the second fusion. -/
theorem final_of_named (htier : policy.identifierTier = true)
    (hranked : given [fuseSearchFileLanes lanes policy, semantic] path ≠ [])
    (h : laneEvidence policy lanes path = .named) :
    finalEvidence policy lanes semantic path = .named := by
  have htier' : policy.refusion.identifierTier = true := htier
  exact strongest_of_named htier' (named_of_laneEvidence htier h) hranked

/-- Under these conditions the second fusion has what a file shows. -/
theorem shown_le_final (htier : policy.identifierTier = true) (hkept : TiersKept policy lanes)
    (h : laneEvidence policy lanes path = .used ∨ laneEvidence policy lanes path = .defined) :
    shownEvidence policy lanes path ≤ finalEvidence policy lanes semantic path := by
  have hcounted : strongestEvidence lanes policy path ≠ .absent :=
    ((hkept.visible path h).trans_le shown_le_strongest).ne'
  have hunnamed : strongestEvidence lanes policy path ≠ .named := by
    intro hnamed
    have hle : strongestEvidence lanes policy path ≤ _ := strongest_le_laneEvidence
    rw [hnamed] at hle
    exact (IdentifierEvidence.ne_of_between h).2 (le_antisymm (IdentifierEvidence.le_named _) hle)
  have hfew := hkept.few.resolve_right fun hall => (hall path).elim hcounted hunnamed
  obtain ⟨s, hs, rfl⟩ := (exists_mem_files policy).mpr (given_ne_nil_of_strongest hcounted)
  obtain ⟨i, hi⟩ := mem_iff_getElem?.mp (mem_rankedFiles.mpr hs)
  have hstrong : s.strong = true := by
    rw [FileScore.strong, (mem_files hs).strongest]
    exact decide_eq_true hcounted
  have hget : (laneFiles (fuseSearchFileLanes lanes policy))[i]? = some s.representative := by
    rw [laneFiles_fuse, getElem?_take_of_lt (index_lt_of_few hfew hi hstrong), fuse_eq,
      getElem?_map, hi]
    rfl
  have hgiven : (⟨0, i, s.representative⟩ : Contribution) ∈
      given [fuseSearchFileLanes lanes policy, semantic] s.representative.path :=
    mem_given_pair.mpr ⟨rfl, .inl ⟨rfl, hget⟩⟩
  have hle : ((⟨0, i, s.representative⟩ : Contribution).evidence policy.refusion).identifierEvidence ≤
      _ := evidence_le_strongest hgiven
  exact (shown_evidence htier hs).symm.le.trans hle

/-! ## Files that are overtaken -/

/-- A file for which the lanes give one hit only. -/
theorem exists_file_of_sole (policy : FusionPolicy) (hc : c ∈ given lanes path)
    (hsole : ∀ d ∈ given lanes path, d = c) :
    ∃ s ∈ (files lanes policy).rows, s.representative.path = path ∧
      s.identifierEvidence = (c.evidence policy).identifierEvidence ∧
      s.score = 0.0 + contributionScore policy c := by
  obtain ⟨s, hs, rfl⟩ := (exists_mem_files policy).mpr (ne_nil_of_mem hc)
  have hcollected := mem_files hs
  refine ⟨s, hs, rfl, ?_, ?_⟩
  · obtain ⟨d, hd, heq⟩ := hcollected.evidence_mem
    rw [heq, hsole d hd]
  · have hgiven : given lanes s.representative.path = [c] := by
      have hnodup : (given lanes s.representative.path).Nodup :=
        (pairwise_given ..).imp fun hlt heq => hlt.ne (congrArg Contribution.lane heq)
      rw [eq_replicate_of_mem hsole] at hnodup ⊢
      rw [le_antisymm (nodup_replicate.mp hnodup) (length_pos_of_mem hc)]
      rfl
    rw [hcollected.score, hgiven]
    rfl

/-- A hit of a file that no lane finds. -/
def strayHit (path : Bytes) : Hit := .plain path none 0 0 1 1 "" "" none .semantic

omit [Unicode] in
theorem not_sublist_swap {xs : List Bytes} (hnodup : xs.Nodup) {a b : Bytes}
    (hab : [a, b].Sublist xs) (hba : [b, a].Sublist xs) : False := by
  induction xs with
  | nil => exact nomatch hab
  | cons x xs ih =>
    rw [nodup_cons] at hnodup
    cases hab with
    | cons _ hab =>
      cases hba with
      | cons _ hba => exact ih hnodup.2 hab hba
      | cons_cons _ hba => exact hnodup.1 (hab.subset (by simp))
    | cons_cons _ hab =>
      cases hba with
      | cons _ hba => exact hnodup.1 (hba.subset (by simp))
      | cons_cons _ hba => exact hnodup.1 (hab.subset (by simp))

omit [Unicode] in
/-- A lane without repeated files counts whole. -/
theorem laneFiles_of_nodup {lane : List Hit} (hnodup : (lane.map Hit.path).Nodup)
    (hlength : lane.length ≤ fileCandidateLimit) : laneFiles lane = lane := by
  rw [laneFiles, firstByKey_of_nodup hnodup, take_of_length_le hlength]

omit [Unicode] in
/-- A file stands at one place of a list without repeated files. -/
theorem rank_of_path {hits : List Hit} (hnodup : (hits.map Hit.path).Nodup) {j : ℕ} {hit' : Hit}
    (hj : hits[j]? = some hit') (hi : hits[i]? = some hit) (hpath : hit'.path = hit.path) :
    j = i ∧ hit' = hit := by
  have heq : j = i := by
    refine (getElem?_inj ?_ hnodup).mp ?_
    · rw [length_map]
      exact (List.getElem?_eq_some_iff.mp hj).1
    · rw [getElem?_map, getElem?_map, hj, hi, Option.map_some, Option.map_some, hpath]
  rw [heq, hi] at hj
  exact ⟨heq, (Option.some.inj hj).symm⟩

/-- A file that the second fusion finds once, without evidence and with a score that is not
greater, stands behind the file of a stray hit. -/
theorem overtaken {rank : ℕ} (htier : policy.identifierTier = true)
    (hempty : ([] : Bytes) ∉ (fuseSearchFileLanes lanes policy).map Hit.path)
    (hplace : (laneFiles semantic)[rank]? = some (strayHit []))
    (hc : c ∈ given [fuseSearchFileLanes lanes policy, semantic] path) (hne : path ≠ [])
    (hsole : ∀ d ∈ given [fuseSearchFileLanes lanes policy, semantic] path, d = c)
    (hevidence : (c.evidence policy).identifierEvidence = .absent)
    (hscore : totalKey (0.0 + contributionScore policy.refusion c) ≤
      totalKey (soleScore 1.0 rank)) :
    [[], path].Sublist ((rankWithSemantic policy lanes semantic).map Hit.path) := by
  have hstray : (⟨1, rank, strayHit []⟩ : Contribution) ∈
      given [fuseSearchFileLanes lanes policy, semantic] [] :=
    mem_given_pair.mpr ⟨rfl, .inr ⟨rfl, hplace⟩⟩
  have hstraySole : ∀ d ∈ given [fuseSearchFileLanes lanes policy, semantic] [],
      d = ⟨1, rank, strayHit []⟩ := by
    intro d hd
    obtain ⟨hpath, ⟨-, hget⟩ | ⟨hlane, -⟩⟩ := mem_given_pair.mp hd
    · rw [laneFiles_fuse] at hget
      exact absurd (hpath ▸ mem_map_of_mem ((take_sublist ..).subset (mem_of_getElem? hget))) hempty
    · exact eq_of_lane hd hstray hlane
  obtain ⟨u, hu, hupath, huevidence, huscore⟩ :=
    exists_file_of_sole policy.refusion hstray hstraySole
  obtain ⟨t, ht, htpath, htevidence, htscore⟩ :=
    exists_file_of_sole policy.refusion hc hsole
  have hstrayEvidence : FileEvidence.ofHit (strayHit []) policy = .absent := by
    rw [ofHit_semantic htier rfl, if_neg]
    rw [show (strayHit []).path = [] from rfl, PathPrior.namesExactly_nil]
    decide
  have hlt : fileOrder u t = .lt := by
    have huevidence' : u.identifierEvidence = .absent := by
      rw [huevidence]
      show (FileEvidence.ofHit (strayHit []) policy).identifierEvidence = .absent
      rw [hstrayEvidence]
      rfl
    have hutscore : totalKey t.score ≤ totalKey u.score := by
      have hweight : contributionScore policy.refusion ⟨1, rank, strayHit []⟩ =
          1.0 * policy.prior.weight [] / (rrfK + rank.toUInt64.toFloat + 1.0) := rfl
      rw [htscore, huscore, hweight, PathPrior.weight_nil, one_mul_one]
      exact hscore
    have hpath : compare u.representative.path t.representative.path = .lt := by
      rw [hupath, htpath]
      cases path with
      | nil => exact absurd rfl hne
      | cons x xs => rfl
    rw [fileOrder, compareLex, compareLex, compareLex, compareOn, huevidence', htevidence,
      show (c.evidence policy.refusion).identifierEvidence = .absent from hevidence, hpath]
    rcases hutscore.lt_or_eq with hlt | heq
    · rw [show compare (totalKey t.score) (totalKey u.score) = .lt from compare_lt_iff_lt.mpr hlt]
      rfl
    · rw [show compare (totalKey t.score) (totalKey u.score) = .eq from compare_eq_iff_eq.mpr heq]
      rfl
  have hpair := precedes_of_fileOrder hu ht hlt
  rw [hupath, htpath] at hpair
  exact hpair

/-- The files of the ranking are in the order of the evidence that the lanes give for them. -/
def InTiers (policy : FusionPolicy) (lanes : List (List Hit)) (semantic : List Hit) : Prop :=
  ∀ a ∈ (rankWithSemantic policy lanes semantic).map Hit.path,
    ∀ b ∈ (rankWithSemantic policy lanes semantic).map Hit.path,
      laneEvidence policy lanes b < laneEvidence policy lanes a →
        [a, b].Sublist ((rankWithSemantic policy lanes semantic).map Hit.path)

/-- The files stay in this order whatever the semantic hits, as long as the query names no file that
only the semantic lane finds. -/
def TiersHold (policy : FusionPolicy) (lanes : List (List Hit)) : Prop :=
  ∀ semantic, (∀ hit ∈ semantic, hit.provenance = some .semantic) →
    NamedFound policy lanes semantic → InTiers policy lanes semantic

theorem exists_ranked {a : Bytes} (h : a ∈ (rankWithSemantic policy lanes semantic).map Hit.path) :
    ∃ s ∈ (files [fuseSearchFileLanes lanes policy, semantic] policy.refusion).rows,
      s.representative.path = a :=
  (exists_mem_files policy.refusion).mpr (given_ne_nil_iff.mpr (mem_fuse_paths.mp h))

/-- A file with more evidence in the second fusion stands before another one. -/
theorem precedes_of_final {a b : Bytes}
    (ha : a ∈ (rankWithSemantic policy lanes semantic).map Hit.path)
    (hb : b ∈ (rankWithSemantic policy lanes semantic).map Hit.path)
    (hlt : finalEvidence policy lanes semantic b < finalEvidence policy lanes semantic a) :
    [a, b].Sublist ((rankWithSemantic policy lanes semantic).map Hit.path) := by
  obtain ⟨s, hs, rfl⟩ := exists_ranked ha
  obtain ⟨t, ht, rfl⟩ := exists_ranked hb
  rw [finalEvidence, finalEvidence, ← (mem_files hs).strongest, ← (mem_files ht).strongest] at hlt
  exact precedes_of_fileOrder hs ht (fileOrder_of_evidence hlt)

theorem inTiers_of_kept (htier : policy.identifierTier = true) (hkept : TiersKept policy lanes)
    (hsemantic : ∀ hit ∈ semantic, hit.provenance = some .semantic)
    (hnamed : NamedFound policy lanes semantic) : InTiers policy lanes semantic := by
  intro a ha b hb hlt
  refine precedes_of_final ha hb ((final_le_laneEvidence htier hsemantic hnamed).trans_lt ?_)
  have hshown (h : laneEvidence policy lanes a = .used ∨ laneEvidence policy lanes a = .defined) :
      shownEvidence policy lanes a ≤ finalEvidence policy lanes semantic a :=
    shown_le_final htier hkept h
  cases hevidence : laneEvidence policy lanes a with
  | absent => exact absurd (hevidence ▸ hlt) (IdentifierEvidence.absent_le _).not_gt
  | named =>
    rw [final_of_named htier (given_ne_nil_iff.mpr (mem_fuse_paths.mp ha)) hevidence, ← hevidence]
    exact hlt
  | used =>
    -- Less than a use is nothing.
    have hvisible := (hkept.visible a (.inl hevidence)).trans_le (hshown (.inl hevidence))
    rw [hevidence] at hlt
    cases hb : laneEvidence policy lanes b with
    | absent => exact hvisible
    | used | defined | named => exact absurd (hb ▸ hlt) (by decide)
  | defined =>
    have hvisible := (hkept.visible a (.inr hevidence)).trans_le (hshown (.inr hevidence))
    rw [hevidence] at hlt
    rcases hkept.declared with hdeclared | hnone
    · exact (hdeclared a hevidence ▸ hlt).trans_le (hshown (.inr hevidence))
    · cases hb : laneEvidence policy lanes b with
      | absent => exact hvisible
      | used => exact absurd hb (hnone b)
      | defined | named => exact absurd (hb ▸ hlt) (by decide)

omit [Unicode] in
theorem laneFiles_stray (path : Bytes) (h : path ≠ []) :
    laneFiles [strayHit [], strayHit path] = [strayHit [], strayHit path] := by
  have hnodup : ([strayHit [], strayHit path].map Hit.path).Nodup := by
    show [[], path].Nodup
    simpa using Ne.symm h
  exact laneFiles_of_nodup hnodup (show 2 ≤ fileCandidateLimit by decide)

section

variable (hpaths : ∀ lane ∈ lanes, ∀ hit ∈ lane, hit.path ≠ [])
include hpaths

/-- The lanes do not find a file with the empty path, so that a stray hit finds another file. -/
theorem nil_notMem_fuse : ([] : Bytes) ∉ (fuseSearchFileLanes lanes policy).map Hit.path := by
  intro hmem
  obtain ⟨lane, hlane, hpath⟩ := mem_fuse_paths.mp hmem
  obtain ⟨hit, hhit, hempty⟩ := mem_map.mp hpath
  exact hpaths lane hlane hit ((firstByKey_sublist lane).subset
    ((take_sublist ..).subset hhit)) hempty

theorem laneEvidence_nil : laneEvidence policy lanes [] = .absent := by
  by_contra hne
  obtain ⟨hit, hhit, hpath⟩ := exists_hit_of_laneEvidence hne
  obtain ⟨lane, hlane, hhit⟩ := mem_flatten.mp hhit
  exact hpaths lane hlane hit hhit hpath

/-- A file without evidence in the second fusion, that stray hits bring behind another file. -/
theorem not_inTiers_of_overtaken (hstrong : laneEvidence policy lanes path ≠ .absent)
    (h : [[], path].Sublist ((rankWithSemantic policy lanes semantic).map Hit.path)) :
    ¬InTiers policy lanes semantic := by
  intro htiers
  have hlt : laneEvidence policy lanes [] < laneEvidence policy lanes path := by
    rw [laneEvidence_nil hpaths]
    exact lt_of_le_of_ne (IdentifierEvidence.absent_le _) (Ne.symm hstrong)
  exact not_sublist_swap (fuse_paths_nodup ..)
    (htiers path (h.subset (by simp)) [] (h.subset (by simp)) hlt) h

end

/-- Hits of the files before a place of the ranking, and at that place a stray hit. -/
def straysBefore (policy : FusionPolicy) (lanes : List (List Hit)) (place : ℕ) : List Hit :=
  ((fuseSearchFileLanes lanes policy).take place).map (fun hit => strayHit hit.path) ++
    [strayHit []]

theorem paths_straysBefore (place : ℕ) : (straysBefore policy lanes place).map Hit.path =
      ((fuseSearchFileLanes lanes policy).map Hit.path).take place ++ [[]] := by
  rw [straysBefore, map_append, map_map, ← map_take]
  rfl

theorem namedFound_of_mem (h : ∀ hit ∈ semantic, hit.path = [] ∨
    hit.path ∈ lanes.flatten.map Hit.path) : NamedFound policy lanes semantic := by
  intro hit hhit hexactly
  rcases h hit hhit with hempty | hmem
  · rw [hempty, PathPrior.namesExactly_nil] at hexactly
    exact nomatch hexactly
  · exact hmem

theorem mem_straysBefore {place : ℕ} (h : hit ∈ straysBefore policy lanes place) :
    hit.provenance = some .semantic ∧
      (hit.path = [] ∨ hit.path ∈ lanes.flatten.map Hit.path) := by
  rcases mem_append.mp h with hmem | hmem
  · obtain ⟨fused, hfused, rfl⟩ := mem_map.mp hmem
    have hpath : fused.path ∈ (fuseSearchFileLanes lanes policy).map Hit.path :=
      mem_map_of_mem ((take_sublist ..).subset hfused)
    obtain ⟨c, hc⟩ := exists_mem_of_ne_nil _ (given_ne_nil_iff.mpr (mem_fuse_paths.mp hpath))
    exact ⟨rfl, .inr ((mem_given.mp hc).2 ▸ mem_map_of_mem (mem_flatten_of_given hc))⟩
  · rw [mem_singleton.mp hmem]
    exact ⟨rfl, .inl rfl⟩

section

variable (htier : policy.identifierTier = true)
include htier

/-- A file that the query names, and that only the semantic lane finds, comes before the files that
use or declare the identifier. -/
theorem not_inTiers_of_named (hhit : hit ∈ laneFiles semantic)
    (hexactly : policy.prior.namesExactly hit.path = true)
    (hstray : hit.path ∉ lanes.flatten.map Hit.path)
    (hpath : path ∈ (rankWithSemantic policy lanes semantic).map Hit.path)
    (h : laneEvidence policy lanes path = .used ∨ laneEvidence policy lanes path = .defined) :
    ¬InTiers policy lanes semantic := by
  intro htiers
  have hranked : hit.path ∈ (rankWithSemantic policy lanes semantic).map Hit.path :=
    mem_fuse_paths.mpr ⟨semantic, by simp, mem_map_of_mem hhit⟩
  have habsent : laneEvidence policy lanes hit.path = .absent := by
    by_contra hne
    obtain ⟨other, hother, heq⟩ := exists_hit_of_laneEvidence hne
    exact hstray (heq ▸ mem_map_of_mem hother)
  obtain ⟨hstrong, hne⟩ := IdentifierEvidence.ne_of_between h
  have hunnamed : policy.prior.namesExactly path ≠ true := by
    intro hnamed
    obtain ⟨other, hother, rfl⟩ := exists_hit_of_laneEvidence hstrong
    exact hne (laneEvidence_of_named htier hother hnamed)
  have htier' : policy.refusion.identifierTier = true := htier
  have hle : finalEvidence policy lanes semantic path ≤ .defined :=
    strongest_le fun c hc => ofHit_le_defined htier' (by rwa [(mem_given.mp hc).2])
  have hfinal : finalEvidence policy lanes semantic hit.path = .named :=
    strongest_of_named htier' hexactly (given_ne_nil_iff.mpr (mem_fuse_paths.mp hranked))
  refine not_sublist_swap (fuse_paths_nodup ..) (htiers path hpath hit.path hranked ?_)
    (precedes_of_final hranked hpath (hle.trans_lt (by rw [hfinal]; decide)))
  rw [habsent]
  exact lt_of_le_of_ne (IdentifierEvidence.absent_le _) hstrong.symm

variable (hpaths : ∀ lane ∈ lanes, ∀ hit ∈ lane, hit.path ≠ [])
include hpaths

/-- A file whose evidence is hidden is overtaken by a stray hit at its place. -/
theorem not_inTiers_of_hidden
    (hplace : (laneFiles (fuseSearchFileLanes lanes policy))[i]? = some hit)
    (hshown : shownEvidence policy lanes hit.path = .absent)
    (hstrong : laneEvidence policy lanes hit.path ≠ .absent) :
    ¬InTiers policy lanes (straysBefore policy lanes i) := by
  have hget := hplace
  rw [laneFiles_fuse, getElem?_take, Option.ite_none_right_eq_some] at hget
  obtain ⟨hi, hget⟩ := hget
  have hempty : ([] : Bytes) ∉ (fuseSearchFileLanes lanes policy).map Hit.path :=
    nil_notMem_fuse hpaths
  have hpath : hit.path ≠ [] := fun hnil =>
    hempty (hnil ▸ mem_map_of_mem (f := Hit.path) (mem_of_getElem? hget))
  have hlength : ((fuseSearchFileLanes lanes policy).take i).length = i := by
    rw [length_take, min_eq_left (List.getElem?_eq_some_iff.mp hget).1.le]
  have hlane : laneFiles (straysBefore policy lanes i) = straysBefore policy lanes i := by
    apply laneFiles_of_nodup
    · rw [paths_straysBefore, nodup_append]
      refine ⟨(fuse_paths_nodup lanes policy).sublist (take_sublist ..),
        nodup_singleton _, fun a ha b hb heq => ?_⟩
      rw [heq, mem_singleton.mp hb] at ha
      exact hempty ((take_sublist ..).subset ha)
    · rw [straysBefore, length_append, length_map, hlength]
      exact hi
  have hstray : (straysBefore policy lanes i)[i]? = some (strayHit []) := by
    rw [straysBefore, getElem?_append_right (by rw [length_map, hlength]),
      length_map, hlength, Nat.sub_self]
    rfl
  have hscore : contributionScore policy.refusion ⟨0, i, hit⟩ =
      1.0 * 1.0 / (rrfK + i.toUInt64.toFloat + 1.0) := rfl
  have hc : (⟨0, i, hit⟩ : Contribution) ∈ given [fuseSearchFileLanes lanes policy,
      straysBefore policy lanes i] hit.path := mem_given_pair.mpr ⟨rfl, .inl ⟨rfl, hplace⟩⟩
  refine not_inTiers_of_overtaken hpaths hstrong (overtaken htier hempty
    (by rw [hlane]; exact hstray) hc hpath ?_
    ((ofHit_fused htier (mem_of_getElem? hget)).trans hshown)
    (by rw [hscore, one_mul_one]; exact le_rfl))
  intro d hd
  obtain ⟨hdpath, ⟨hlane0, -⟩ | ⟨-, hrank⟩⟩ := mem_given_pair.mp hd
  · exact eq_of_lane hd hc hlane0
  · -- The strays before the place are of other files.
    rw [hlane] at hrank
    have hmem : d.hit.path ∈ (straysBefore policy lanes i).map Hit.path :=
      mem_map_of_mem (mem_of_getElem? hrank)
    rw [paths_straysBefore, hdpath] at hmem
    rcases mem_append.mp hmem with hmem | hmem
    · obtain ⟨j, hj⟩ := mem_iff_getElem?.mp hmem
      rw [getElem?_take, Option.ite_none_right_eq_some, getElem?_map] at hj
      obtain ⟨other, hother, hpathj⟩ := Option.map_eq_some_iff.mp hj.2
      have heq := (rank_of_path (fuse_paths_nodup lanes policy) hother hget hpathj).1
      omega
    · exact absurd (mem_singleton.mp hmem) hpath

/-- A file that is not among the first thousand is found by a semantic hit only, and overtaken. -/
theorem not_inTiers_of_cut
    (hcut : path ∉ (laneFiles (fuseSearchFileLanes lanes policy)).map Hit.path)
    (hstrong : laneEvidence policy lanes path ≠ .absent)
    (hnamed : policy.prior.namesExactly path ≠ true) :
    ¬InTiers policy lanes [strayHit [], strayHit path] := by
  have hpath : path ≠ [] := by
    rintro rfl
    exact hstrong (laneEvidence_nil hpaths)
  have hstray := laneFiles_stray path hpath
  have hc : (⟨1, 1, strayHit path⟩ : Contribution) ∈ given [fuseSearchFileLanes lanes policy,
      [strayHit [], strayHit path]] path :=
    mem_given_pair.mpr ⟨rfl, .inr ⟨rfl, by rw [hstray]; rfl⟩⟩
  refine not_inTiers_of_overtaken hpaths hstrong (overtaken htier (nil_notMem_fuse hpaths)
    (by rw [hstray]; rfl) hc hpath ?_ ?_ (soleScore_weight_le ..))
  · intro d hd
    obtain ⟨hdpath, ⟨-, hrank⟩ | ⟨hlane, -⟩⟩ := mem_given_pair.mp hd
    · exact absurd (hdpath ▸ mem_map_of_mem (mem_of_getElem? hrank)) hcut
    · exact eq_of_lane hd hc hlane
  · show (FileEvidence.ofHit (strayHit path) policy).identifierEvidence = .absent
    rw [ofHit_semantic htier rfl]
    exact congrArg FileEvidence.identifierEvidence (if_neg hnamed)

variable (htiers : TiersHold policy lanes)
include htiers

/-- If the tiers hold for all semantic hits, the files with evidence that the query does not name
are in the first thousand of the ranking. -/
theorem mem_fused_of_inTiers (hstrong : laneEvidence policy lanes path ≠ .absent)
    (hnamed : laneEvidence policy lanes path ≠ .named) :
    path ∈ (laneFiles (fuseSearchFileLanes lanes policy)).map Hit.path := by
  by_contra hcut
  obtain ⟨hit, hhit, rfl⟩ := exists_hit_of_laneEvidence hstrong
  refine not_inTiers_of_cut htier hpaths hcut hstrong
    (fun hexactly => hnamed (laneEvidence_of_named htier hhit hexactly)) (htiers _ ?_ ?_)
  · simp [strayHit, Hit.plain]
  · refine namedFound_of_mem fun stray hstray => ?_
    rcases mem_cons.mp hstray with rfl | hstray
    · exact .inl rfl
    · rw [mem_singleton.mp hstray]
      exact .inr (show hit.path ∈ _ from mem_map_of_mem hhit)

theorem visible_of_inTiers (h : laneEvidence policy lanes path = .used ∨
    laneEvidence policy lanes path = .defined) : .absent < shownEvidence policy lanes path := by
  obtain ⟨hstrong, hnamed⟩ := IdentifierEvidence.ne_of_between h
  obtain ⟨hit, hhit, rfl⟩ := mem_map.mp (mem_fused_of_inTiers htier hpaths htiers hstrong hnamed)
  obtain ⟨i, hi⟩ := mem_iff_getElem?.mp hhit
  by_contra hhidden
  have hshown : shownEvidence policy lanes hit.path = .absent :=
    le_antisymm (not_lt.mp hhidden) (IdentifierEvidence.absent_le _)
  exact not_inTiers_of_hidden htier hpaths hi hshown hstrong (htiers _
    (fun stray hstray => (mem_straysBefore hstray).1)
    (namedFound_of_mem fun stray hstray => (mem_straysBefore hstray).2))

theorem few_of_inTiers : (strongFiles policy lanes).length ≤ fileCandidateLimit ∨
    ∀ path, strongestEvidence lanes policy path = .absent ∨
      strongestEvidence lanes policy path = .named := by
  by_contra hmany
  push Not at hmany
  obtain ⟨s, hs, hstrong, hunnamed⟩ := exists_cut hmany.1 hmany.2
  have hrow := mem_rankedFiles.mp ((drop_sublist ..).subset hs)
  rw [(mem_files hrow).strongest] at hstrong hunnamed
  have hgiven := given_ne_nil_of_strongest hstrong
  have hle : strongestEvidence lanes policy s.representative.path ≤ _ := strongest_le_laneEvidence
  obtain ⟨hit, hhit, hpath⟩ := mem_map.mp (mem_fused_of_inTiers htier hpaths htiers
    (fun habsent => hstrong (le_antisymm (habsent ▸ hle) (IdentifierEvidence.absent_le _)))
    (fun hnamed => hunnamed (strongest_of_named htier (named_of_laneEvidence htier hnamed) hgiven)))
  -- The file is at one place, behind the first thousand.
  obtain ⟨i, hi⟩ := mem_iff_getElem?.mp hhit
  obtain ⟨j, hj⟩ := mem_iff_getElem?.mp hs
  rw [laneFiles_fuse, getElem?_take, Option.ite_none_right_eq_some] at hi
  rw [getElem?_drop] at hj
  have hget : (fuseSearchFileLanes lanes policy)[fileCandidateLimit + j]? =
      some s.representative := by
    rw [fuse_eq, getElem?_map, hj]
    rfl
  have heq := (rank_of_path (fuse_paths_nodup lanes policy) hi.2 hget hpath).1
  omega

end

/-- The policy of a search (`search_prepared` in `search.rs`). -/
def FusionPolicy.forQuery (query : Query) : FusionPolicy where
  laneWeights := true
  identifierTier := (ConceptQuery.parse query.text.toList).identifier.isSome
  prior := .forQuery query
  priorFromLane := 0

/-- In a search for an identifier, the files stay in the order of the evidence that the lanes give
for them, if the lanes keep the tiers and the query names no file that only the semantic lane
finds. What the lanes must show is needed for this; and a named file that only the semantic
lane finds comes before the files that use or declare the identifier. -/
theorem tiers_hold (query : Query)
    (hidentifier : (ConceptQuery.parse query.text.toList).identifier.isSome = true)
    (lanes : List (List Hit)) :
    (TiersKept (.forQuery query) lanes → TiersHold (.forQuery query) lanes) ∧
    ((∀ lane ∈ lanes, ∀ hit ∈ lane, hit.path ≠ []) →
      TiersHold (.forQuery query) lanes → ShownTiers (.forQuery query) lanes) ∧
    ∀ semantic, (∃ hit ∈ laneFiles semantic,
        (PathPrior.forQuery query).namesExactly hit.path = true ∧
          hit.path ∉ lanes.flatten.map Hit.path) →
      (∃ path ∈ (rankWithSemantic (.forQuery query) lanes semantic).map Hit.path,
        laneEvidence (.forQuery query) lanes path = .used ∨
          laneEvidence (.forQuery query) lanes path = .defined) →
      ¬InTiers (.forQuery query) lanes semantic := by
  have htier : (FusionPolicy.forQuery query).identifierTier = true := hidentifier
  refine ⟨fun hkept semantic hsemantic hnamed => inTiers_of_kept htier hkept hsemantic hnamed,
    fun hpaths htiers => ⟨fun path => visible_of_inTiers htier hpaths htiers,
      few_of_inTiers htier hpaths htiers⟩, ?_⟩
  rintro semantic ⟨hit, hhit, hexactly, hstray⟩ ⟨path, hpath, hevidence⟩ htiers
  exact not_inTiers_of_named htier hhit hexactly hstray hpath hevidence htiers

end Fusions

/-! ## A use behind a phrase -/

/-- The query `Store::open`. -/
def openQuery : Query := ⟨"Store::open", .default, none, "", false, false⟩

def disk : Bytes := ascii "src/disk.rs"

def cache : Bytes := ascii "src/cache.rs"

/-- The lanes of the query (`concept_query.rs`) in a store where `src/disk.rs` has
the text `Store::open`: no definition, an occurrence, and the text itself. -/
def openLanes : List (List Hit) :=
  let hit := Hit.plain disk none 0 20 1 1 "main" "function" none
  [[], [], [hit .identifierOccurrence], [hit .phrase], [hit .allTerms], [hit .lexical], []]

/-- A hit near the query in a file without the name. -/
def cacheHits : List Hit := [Hit.plain cache none 0 40 1 2 "load" "function" none .semantic]

/-- The lanes in a store where `src/disk.rs` declares the name and `src/cache.rs` uses it. -/
def declaredLanes : List (List Hit) :=
  let hit := fun path => Hit.plain path none 0 20 1 1 "open" "function" none
  [[hit disk .exactIdentifier], [], [hit cache .identifierOccurrence], [], [hit cache .lexical], []]

/-- A hit in a file whose name is the query, before one in the file that declares the name. -/
def strayHits : List Hit := [strayHit (ascii "src/store_open.rs"), strayHit disk]

theorem tiersKept_declared :
    letI := Unicode.ofAscii
    TiersKept (.forQuery openQuery) declaredLanes := by
  let _ := Unicode.ofAscii
  have hshown : ∀ hit ∈ declaredLanes.flatten,
      shownEvidence (.forQuery openQuery) declaredLanes hit.path =
        laneEvidence (.forQuery openQuery) declaredLanes hit.path := by decide +kernel
  have hall : ∀ path, laneEvidence (.forQuery openQuery) declaredLanes path ≠ .absent →
      shownEvidence (.forQuery openQuery) declaredLanes path =
        laneEvidence (.forQuery openQuery) declaredLanes path := by
    intro path hne
    obtain ⟨hit, hhit, rfl⟩ := exists_hit_of_laneEvidence hne
    exact hshown hit hhit
  refine ⟨⟨fun path h => ?_, .inl (by decide +kernel)⟩, .inl fun path h => ?_⟩
  · have hstrong := (IdentifierEvidence.ne_of_between h).1
    rw [hall path hstrong]
    exact lt_of_le_of_ne (IdentifierEvidence.absent_le _) hstrong.symm
  · rw [hall path (by rw [h]; decide), h]

theorem tiers_hold_declared :
    letI := Unicode.ofAscii
    (ConceptQuery.parse openQuery.text.toList).identifier.isSome = true ∧
    TiersKept (.forQuery openQuery) declaredLanes ∧
    NamedFound (.forQuery openQuery) declaredLanes cacheHits ∧
    InTiers (.forQuery openQuery) declaredLanes cacheHits ∧
    ¬NamedFound (.forQuery openQuery) declaredLanes strayHits ∧
    ¬InTiers (.forQuery openQuery) declaredLanes strayHits := by
  let _ := Unicode.ofAscii
  have hidentifier : (ConceptQuery.parse openQuery.text.toList).identifier.isSome = true := by
    decide +kernel
  have hfound : NamedFound (.forQuery openQuery) declaredLanes cacheHits := by
    unfold NamedFound
    decide +kernel
  obtain ⟨hkept, -, hnamed⟩ := tiers_hold openQuery hidentifier declaredLanes
  refine ⟨hidentifier, tiersKept_declared, hfound,
    hkept tiersKept_declared cacheHits (by decide +kernel) hfound,
    by unfold NamedFound; decide +kernel, hnamed strayHits (by decide +kernel) ?_⟩
  exact ⟨disk, mem_fuse_paths.mpr ⟨strayHits, by simp, by decide +kernel⟩, .inr (by decide +kernel)⟩

/-- The file that uses the name comes behind the one that does not have it, since its text is
found as a phrase, too. -/
theorem phrase_hides_use :
    letI := Unicode.ofAscii
    (rankWithSemantic (.forQuery openQuery) openLanes cacheHits).map Hit.path = [cache, disk] ∧
    laneEvidence (.forQuery openQuery) openLanes disk = .used ∧
    laneEvidence (.forQuery openQuery) openLanes cache = .absent ∧
    ¬(PathPrior.forQuery openQuery).namesExactly cache ∧
    ¬InTiers (.forQuery openQuery) openLanes cacheHits := by
  let _ := Unicode.ofAscii
  have hranking : (rankWithSemantic (.forQuery openQuery) openLanes cacheHits).map Hit.path =
      [cache, disk] := by
    -- The files are in the order of the paths already, which the sort leaves as they are.
    rw [rankWithSemantic, fuse_eq, rankedFiles, mergeSort_of_pairwise (by decide +kernel)]
    decide +kernel
  have hdisk : laneEvidence (.forQuery openQuery) openLanes disk = .used := by decide +kernel
  have hcache : laneEvidence (.forQuery openQuery) openLanes cache = .absent := by decide +kernel
  refine ⟨hranking, hdisk, hcache, by decide +kernel, fun htiers => ?_⟩
  have hpair := htiers disk (hranking ▸ by decide) cache (hranking ▸ by decide)
    (by rw [hdisk, hcache]; decide)
  rw [hranking] at hpair
  exact absurd hpair (by decide)

/-- A lane counts with the import of a name that stands before its declaration. -/
example :
    letI := Unicode.ofAscii
    let lane := ["import", "function"].map fun kind =>
      Hit.plain disk none 0 20 1 1 "open" kind none .exactIdentifier
    laneEvidence (.forQuery openQuery) [lane] disk = .defined ∧
      shownEvidence (.forQuery openQuery) [lane] disk = .used := by
  decide +kernel

end Trufflepig.Search
