import Trufflepig.Search.FileRanking

/-!
# Fusion with exact scores

`fuse_search_file_lanes` with rational numbers for its `f64` scores: the same table of files, in
which the sum of the contributions is kept exactly, and the same sort by evidence, score and
path. The evidence and the hit of a file do not depend on the scores, so the exact fusion is about
the files of `Trufflepig.Search.FileRanking`.

* `find_exactFiles`: what is collected for a file.
* `Collected.first`: its hit is the first by tier, lane and rank.
* `fuseExactly_spec`: the files of the fusion, their hits and their order.
-/

namespace Trufflepig.Search

open List Lib Results

section Fusion

variable [Unicode]

/-! ## Scores -/

/-- `lane_weight`. -/
def exactLaneWeight (hit : Hit) (policy : FusionPolicy) : ℚ :=
  match hit.provenance with
  | some .exactIdentifier => if policy.identifierTier && !isLocalKind hit.kind then 3 else 1
  | some .phrase | some .filenameExact => 2
  | some .filenamePartial => 1 / 2
  | _ => 1

/-- `PathPrior::weight` (`path_prior.rs`). -/
def PathPrior.exactWeight (prior : PathPrior) (path : Bytes) : ℚ :=
  let demoted := (prior.demoteTests && isTestPath path) ||
    (prior.demoteDocs && isDocPointerPath path)
  if demoted && !(prior.exemptNamed && prior.names path) then 7 / 10 else 1

variable (lanes : List (List Hit)) (policy : FusionPolicy)

/-- The score of one hit. -/
def exactContribution (c : Contribution) : ℚ :=
  let weight := if policy.laneWeights then exactLaneWeight c.hit policy else 1
  let prior := if policy.priorFromLane ≤ c.lane then policy.prior.exactWeight c.hit.path else 1
  weight * prior / (60 + c.rank + 1)

/-! ## Files -/

/-- `struct FileScore` with an exact score beside the one of its own. -/
structure ExactScore where
  file : FileScore
  score : ℚ

/-- What a file has before its first hit is counted. -/
def ExactScore.start (c : Contribution) : ExactScore :=
  ⟨.start policy c, 0⟩

/-- A hit is counted for its file (in `fuse_search_file_lanes`). -/
def ExactScore.add (c : Contribution) (score : ExactScore) : ExactScore :=
  ⟨score.file.add policy c, score.score + exactContribution policy c⟩

/-- The order of the files. -/
def exactOrder (left right : ExactScore) : Ordering :=
  compareLex
    (fun a b : ExactScore => compare b.file.identifierEvidence.rank a.file.identifierEvidence.rank)
    (compareLex (fun a b => compare b.score a.score)
      (compareLex (compareOn fun f => f.file.representative.path)
        (compareLex (compareOn fun f => f.file.representative.start)
          (compareLex (compareOn fun f => f.file.representative.stop)
            (compareOn fun f => f.file.representative.kind))))) left right

abbrev ExactTable := SortedTable (fun f : ExactScore => f.file.representative.path) (· < ·)

/-- A hit is entered under its file. -/
def ExactTable.enter (files : ExactTable) (c : Contribution) : ExactTable :=
  files.upsert c.hit.path fun score => (score.getD (.start policy c)).add policy c

/-- The files of the lanes. -/
def exactFiles : ExactTable :=
  (laneContributions lanes).foldl (ExactTable.enter policy) .empty

/-- `fuse_search_file_lanes`. -/
def fuseExactly (lanes : List (List Hit)) (policy : FusionPolicy) : List Hit :=
  ((exactFiles lanes policy).rows.mergeSort fun a b => (exactOrder a b).isLE).map
    (·.file.representative)

/-! ## What is collected for a file -/

/-- What is collected from some hits. -/
def exactCollect (cs : List Contribution) : Option ExactScore :=
  cs.foldl (fun score c => some ((score.getD (.start policy c)).add policy c)) none

theorem find_exactFiles (path : Bytes) :
    (exactFiles lanes policy).find path = exactCollect policy (given lanes path) := by
  refine SortedTable.find_foldl_upsert (fun c : Contribution => c.hit.path)
    (fun c score => (score.getD (.start policy c)).add policy c) ?_
    (laneContributions lanes) (.empty : ExactTable) path
  intro c score hscore
  apply path_add
  cases score with
  | none => rfl
  | some score => exact hscore score rfl

/-- The exact score is the sum of the contributions; the rest is what the fusion collects. -/
theorem exactCollect_eq (cs : List Contribution) : exactCollect policy cs =
      (collect policy cs).map fun file => ⟨file, (cs.map (exactContribution policy)).sum⟩ := by
  induction cs using List.reverseRecOn with
  | nil => rfl
  | append_singleton cs c ih =>
    have hexact : exactCollect policy (cs ++ [c]) =
        some (((exactCollect policy cs).getD (.start policy c)).add policy c) := by
      rw [exactCollect, foldl_append]
      rfl
    have hcollect : collect policy (cs ++ [c]) =
        some (((collect policy cs).getD (.start policy c)).add policy c) := by
      rw [collect, foldl_append]
      rfl
    rw [hexact, hcollect, ih]
    cases hcs : collect policy cs with
    | some file =>
      rw [map_append, sum_append]
      simp [ExactScore.add]
    | none =>
      -- only the empty list collects nothing
      rcases eq_nil_or_concat cs with rfl | ⟨before, last, rfl⟩
      · simp [ExactScore.add, ExactScore.start]
      · rw [collect, concat_eq_append, foldl_append] at hcs
        cases hcs

/-! ## What the lanes give for a file -/

/-- The tier of a hit, then its lane, then its rank. -/
def Contribution.place (c : Contribution) : ℕ ×ₗ ℕ ×ₗ ℕ :=
  toLex ((c.evidence policy).tier, toLex (c.lane, c.rank))

/-- The total score of a file. -/
def exactScore (path : Bytes) : ℚ :=
  ((given lanes path).map (exactContribution policy)).sum

variable {lanes policy} {path : Bytes}

/-- The hit of a file is the first by tier, lane and rank of those that the lanes give for it. -/
theorem Collected.first {file : FileScore} (h : Collected policy (given lanes path) file) :
    ∃ c ∈ given lanes path, file.representative = c.hit ∧
      ∀ d ∈ given lanes path, c.place policy ≤ d.place policy := by
  obtain ⟨before, c, after, hsplit, hhit, -, -, hbefore, hafter⟩ := h.represented
  have hlanes := pairwise_given lanes path
  rw [hsplit, pairwise_append, pairwise_cons] at hlanes
  rw [hsplit]
  refine ⟨c, mem_append_right before mem_cons_self, hhit, fun d hd => ?_⟩
  rw [Contribution.place, Contribution.place, Prod.Lex.toLex_le_toLex]
  rcases mem_append.mp hd with hd | hd
  · exact .inl (hbefore d hd)
  · rcases mem_cons.mp hd with rfl | hd
    · exact .inr ⟨rfl, le_rfl⟩
    · -- the lanes of the hits after it are later
      have hlane := hlanes.2.1.1 d hd
      rcases (hafter d hd).lt_or_eq with hlt | heq
      · exact .inl hlt
      · exact .inr ⟨heq, Prod.Lex.toLex_le_toLex.mpr (.inl hlane)⟩

/-! ## The table of files -/

theorem mem_exactFiles {s : ExactScore} (h : s ∈ (exactFiles lanes policy).rows) :
    Collected policy (given lanes s.file.representative.path) s.file ∧
      s.score = exactScore lanes policy s.file.representative.path := by
  have hfind := (find_exactFiles lanes policy s.file.representative.path).symm.trans
    (SortedTable.find_of_mem h)
  rw [exactCollect_eq] at hfind
  obtain ⟨file, hfile, hs⟩ := Option.map_eq_some_iff.mp hfind
  have hne : given lanes s.file.representative.path ≠ [] := by
    intro hnil
    rw [hnil] at hfile
    exact nomatch hfile
  obtain ⟨t, ht, hcollected⟩ := collect_spec policy hne (pairwise_given lanes _)
  have hsfile : file = s.file := congrArg ExactScore.file hs
  rw [hfile, hsfile] at ht
  exact ⟨Option.some.inj ht ▸ hcollected, (congrArg ExactScore.score hs).symm⟩

theorem exists_mem_exactFiles (policy : FusionPolicy) :
    (∃ s ∈ (exactFiles lanes policy).rows, s.file.representative.path = path) ↔
      given lanes path ≠ [] := by
  constructor
  · rintro ⟨s, hs, rfl⟩ hnil
    obtain ⟨c, hc, -⟩ := (mem_exactFiles hs).1.evidence_mem
    rw [hnil] at hc
    exact nomatch hc
  · intro hne
    obtain ⟨file, hfile, -⟩ := collect_spec policy hne (pairwise_given lanes path)
    have hfind := find_exactFiles lanes policy path
    rw [exactCollect_eq, hfile] at hfind
    exact ⟨_, SortedTable.mem_of_find hfind⟩

/-! ## The ranking -/

instance : Std.TransCmp fun a b : ExactScore =>
    compare b.file.identifierEvidence.rank a.file.identifierEvidence.rank :=
  @Std.TransCmp.opposite _ (compareOn fun f : ExactScore => f.file.identifierEvidence.rank) _

instance : Std.TransCmp fun a b : ExactScore => compare b.score a.score :=
  @Std.TransCmp.opposite _ (compareOn fun f : ExactScore => f.score) _

instance : Std.TransCmp exactOrder := by
  unfold exactOrder
  infer_instance

/-- The order of the ranking: the strongest evidence first, then the greatest score, then the
path. -/
def RankedBefore (lanes : List (List Hit)) (policy : FusionPolicy) (a b : Hit) : Prop :=
  strongestEvidence lanes policy b.path < strongestEvidence lanes policy a.path ∨
    strongestEvidence lanes policy a.path = strongestEvidence lanes policy b.path ∧
      (exactScore lanes policy b.path < exactScore lanes policy a.path ∨
        exactScore lanes policy a.path = exactScore lanes policy b.path ∧ a.path < b.path)

theorem rankedBefore_of_exactOrder {s t : ExactScore} (hs : s ∈ (exactFiles lanes policy).rows)
    (ht : t ∈ (exactFiles lanes policy).rows)
    (hpath : s.file.representative.path ≠ t.file.representative.path)
    (hle : (exactOrder s t).isLE = true) :
    RankedBefore lanes policy s.file.representative t.file.representative := by
  obtain ⟨hscollected, hsscore⟩ := mem_exactFiles hs
  obtain ⟨htcollected, htscore⟩ := mem_exactFiles ht
  rw [RankedBefore, ← hscollected.strongest, ← htcollected.strongest, ← hsscore, ← htscore]
  rw [exactOrder, compareLex] at hle
  rcases lt_trichotomy t.file.identifierEvidence s.file.identifierEvidence with hlt | heq | hgt
  · exact .inl hlt
  · refine .inr ⟨heq.symm, ?_⟩
    rw [heq, Nat.compare_eq_eq.mpr rfl, Ordering.eq_then, compareLex] at hle
    rcases lt_trichotomy t.score s.score with hlt | heq | hgt
    · exact .inl hlt
    · refine .inr ⟨heq.symm, ?_⟩
      rw [heq, compare_eq_iff_eq.mpr rfl, Ordering.eq_then, compareLex, compareOn] at hle
      -- two files of the table have two paths
      cases hcompare : compare s.file.representative.path t.file.representative.path with
      | lt => exact compare_bytes_eq_lt.mp hcompare
      | eq => exact absurd (Std.compare_eq_iff_eq.mp hcompare) hpath
      | gt =>
        rw [hcompare] at hle
        exact nomatch hle
    · rw [compare_gt_iff_gt.mpr hgt] at hle
      exact nomatch hle
  · rw [Nat.compare_eq_gt.mpr hgt] at hle
    exact nomatch hle

/-- The fusion with exact scores: one hit for each of the first thousand files of some lane, the
first by tier, lane and rank of the hits that the lanes give for the file; ordered by the
strongest evidence, the total score and the path. -/
theorem fuseExactly_spec (lanes : List (List Hit)) (policy : FusionPolicy) :
    ((fuseExactly lanes policy).map Hit.path).Nodup ∧
    (∀ path, path ∈ (fuseExactly lanes policy).map Hit.path ↔
      ∃ lane ∈ lanes, path ∈ (laneFiles lane).map Hit.path) ∧
    (∀ hit ∈ fuseExactly lanes policy, ∃ c : Contribution, c.InLanes lanes ∧ c.hit = hit ∧
      ∀ d : Contribution, d.InLanes lanes → d.hit.path = hit.path →
        c.place policy ≤ d.place policy) ∧
    (fuseExactly lanes policy).Pairwise (RankedBefore lanes policy) := by
  have hperm := mergeSort_perm (exactFiles lanes policy).rows fun a b => (exactOrder a b).isLE
  have hnodup : ((exactFiles lanes policy).rows.map fun s => s.file.representative.path).Nodup :=
    nodup_of_sorted (exactFiles lanes policy)
  refine ⟨?_, ?_, ?_, ?_⟩
  · rw [fuseExactly, map_map]
    exact (hperm.map _).nodup_iff.mpr hnodup
  · intro path
    rw [← given_ne_nil_iff, ← exists_mem_exactFiles policy, fuseExactly, map_map, mem_map]
    refine exists_congr fun s => ?_
    rw [hperm.mem_iff]
    rfl
  · intro hit hhit
    obtain ⟨s, hs, rfl⟩ := mem_map.mp hhit
    obtain ⟨c, hc, hhit, hfirst⟩ := (mem_exactFiles (hperm.mem_iff.mp hs)).1.first
    exact ⟨c, (mem_given.mp hc).1, hhit.symm,
      fun d hd hpath => hfirst d (mem_given.mpr ⟨hd, hpath⟩)⟩
  · rw [fuseExactly, pairwise_map]
    have hsorted := pairwise_sortByCmp (c := exactOrder) (exactFiles lanes policy).rows
    have hdistinct := (hperm.map fun s => s.file.representative.path).nodup_iff.mpr hnodup
    rw [nodup_iff_pairwise_ne, pairwise_map] at hdistinct
    refine (hsorted.and hdistinct).imp_of_mem fun hs ht hst => ?_
    exact rankedBefore_of_exactOrder (hperm.mem_iff.mp hs) (hperm.mem_iff.mp ht) hst.2 hst.1

end Fusion

end Trufflepig.Search
