import Trufflepig.Lib.FirstByKey
import Trufflepig.Lib.Sorting
import Trufflepig.Results.Hit
import Trufflepig.Search.Query

/-!
# Fusion of lanes of hits (`search/file_ranking.rs`)

Every lane is collapsed to one hit per file and cut; a file collects a score over the lanes,
the strongest evidence that a hit of it shows, and the hit that represents it.

* `representatives_eq`: a lane gives the first hit of each of its first thousand files.
* `find_files`: what is collected for a file is a fold over the hits that the lanes give for it.
* `collect_spec`: its evidence is the greatest, its hit the first of the best tier.
* `fuse_paths_nodup`, `mem_fuse_paths`, `pairwise_rankedFiles`: the files of the ranking, and its
  order.
-/

namespace Trufflepig.Search

open List Lib Results

/-- `FILE_CANDIDATE_LIMIT`. -/
def fileCandidateLimit : ℕ := 1000

/-- `RRF_K`. -/
def rrfK : Float := 60.0

/-- `struct FusionPolicy`. -/
structure FusionPolicy where
  laneWeights : Bool
  identifierTier : Bool
  prior : PathPrior
  priorFromLane : ℕ

/-- `enum IdentifierEvidence`, in its order. -/
inductive IdentifierEvidence where
  | absent | used | defined | named
  deriving DecidableEq, Repr

/-- `enum FileEvidence`. -/
inductive FileEvidence where
  | absent | used | defined | named | phrase
  deriving DecidableEq, Repr

namespace IdentifierEvidence

def rank : IdentifierEvidence → ℕ
  | absent => 0
  | used => 1
  | defined => 2
  | named => 3

theorem rank_injective : Function.Injective rank := by
  intro a b h
  cases a <;> cases b <;> first | rfl | exact absurd h (by decide)

instance : LinearOrder IdentifierEvidence := LinearOrder.lift' rank rank_injective

theorem absent_le (e : IdentifierEvidence) : absent ≤ e := Nat.zero_le _

theorem le_named (e : IdentifierEvidence) : e ≤ named := by
  cases e <;> decide

theorem le_foldr_max {es : List IdentifierEvidence} {e : IdentifierEvidence} (h : e ∈ es) :
    e ≤ es.foldr max absent := by
  induction es with
  | nil => exact nomatch h
  | cons d es ih =>
    rcases mem_cons.mp h with rfl | h
    · exact le_max_left ..
    · exact (ih h).trans (le_max_right ..)

theorem foldr_max_le {es : List IdentifierEvidence} {bound : IdentifierEvidence}
    (h : ∀ e ∈ es, e ≤ bound) : es.foldr max absent ≤ bound := by
  induction es with
  | nil => exact absent_le bound
  | cons e es ih =>
    exact max_le (h e mem_cons_self) (ih fun d hd => h d (mem_cons_of_mem e hd))

end IdentifierEvidence

/-! ## Lanes -/

/-- The order of the representatives: by rank, then by place. -/
def rankOrder (a b : ℕ × Hit) : Ordering :=
  compareLex (compareOn Prod.fst) (compareLex (compareOn fun e : ℕ × Hit => e.2.path)
    (compareLex (compareOn fun e : ℕ × Hit => e.2.start)
      (compareOn fun e : ℕ × Hit => e.2.stop))) a b

/-- The hits of a lane by file, and the first thousand files (in `fuse_search_file_lanes`). -/
def representatives (lane : List Hit) : List (ℕ × Hit) :=
  let table : SortedTable (fun e : ℕ × Hit => e.2.path) (· < ·) :=
    (lane.zipIdx.map Prod.swap).foldl SortedTable.orInsert .empty
  (table.rows.mergeSort fun a b => (rankOrder a b).isLE).take fileCandidateLimit

/-- A hit with its lane and its rank among the files of the lane. -/
structure Contribution where
  lane : ℕ
  rank : ℕ
  hit : Hit

/-- What a lane gives to the fusion. -/
def contributions (lane : ℕ) (hits : List Hit) : List Contribution :=
  (representatives hits).zipIdx.map fun e => ⟨lane, e.2, e.1.2⟩

/-- What the lanes give, one after another. -/
def laneContributions (lanes : List (List Hit)) : List Contribution :=
  lanes.zipIdx.flatMap fun e => contributions e.2 e.1

/-! ## What a lane gives -/

instance : Std.TransCmp rankOrder := by
  unfold rankOrder
  infer_instance

theorem rankOrder_of_lt {a b : ℕ × Hit} (h : a.1 < b.1) : rankOrder a b = .lt := by
  rw [rankOrder, compareLex, compareOn, Nat.compare_eq_lt.mpr h]
  rfl

/-- The files of a lane that count, each with its first hit. -/
def laneFiles (lane : List Hit) : List Hit :=
  (firstByKey Hit.path lane).take fileCandidateLimit

theorem pairwise_fst_zipIdx (lane : List Hit) :
    (lane.zipIdx.map Prod.swap).Pairwise fun a b => a.1 < b.1 := by
  have hfst : (lane.zipIdx.map Prod.swap).map Prod.fst = List.range' 0 lane.length := by
    rw [map_map, show Prod.fst ∘ Prod.swap = (Prod.snd : Hit × ℕ → ℕ) from rfl, zipIdx_map_snd]
  have hrange := pairwise_lt_range' (s := 0) (n := lane.length)
  rw [← hfst] at hrange
  exact pairwise_map.mp hrange

theorem representatives_eq (lane : List Hit) :
    (representatives lane).map Prod.snd = laneFiles lane := by
  have hsort : ((((lane.zipIdx.map Prod.swap).foldl SortedTable.orInsert
      (.empty : SortedTable (fun e : ℕ × Hit => e.2.path) (· < ·))).rows).mergeSort
        fun a b => (rankOrder a b).isLE) =
      firstByKey (fun e : ℕ × Hit => e.2.path) (lane.zipIdx.map Prod.swap) :=
    sortByCmp_eq_of_perm (SortedTable.perm_rows_foldl_orInsert _)
      (((pairwise_fst_zipIdx lane).sublist (firstByKey_sublist _)).imp rankOrder_of_lt)
  have hsnd : (lane.zipIdx.map Prod.swap).map Prod.snd = lane := by
    rw [map_map, show Prod.snd ∘ Prod.swap = (Prod.fst : Hit × ℕ → Hit) from rfl, zipIdx_map_fst]
  rw [representatives, hsort, map_take, laneFiles,
    ← firstByKey_map Prod.snd (lane.zipIdx.map Prod.swap), hsnd]

theorem map_hit_contributions (lane : ℕ) (hits : List Hit) :
    (contributions lane hits).map Contribution.hit = laneFiles hits := by
  rw [contributions, map_map, ← representatives_eq]
  conv_rhs => rw [← zipIdx_map_fst 0 (representatives hits), map_map]
  rfl

theorem nodup_laneFiles (lane : List Hit) : ((laneFiles lane).map Hit.path).Nodup :=
  (nodup_firstByKey lane).sublist ((take_sublist ..).map Hit.path)

variable {lane : ℕ} {hits : List Hit} {c : Contribution}

theorem lane_of_mem (h : c ∈ contributions lane hits) : c.lane = lane := by
  obtain ⟨e, -, rfl⟩ := mem_map.mp h
  rfl

theorem mem_contributions :
    c ∈ contributions lane hits ↔ c.lane = lane ∧ (laneFiles hits)[c.rank]? = some c.hit := by
  rw [← representatives_eq, getElem?_map, contributions, mem_map]
  constructor
  · rintro ⟨⟨e, rank⟩, he, rfl⟩
    have hget := mem_zipIdx_iff_getElem?.mp he
    exact ⟨rfl, by rw [hget]; rfl⟩
  · rintro ⟨rfl, hget⟩
    obtain ⟨e, he, hhit⟩ := Option.map_eq_some_iff.mp hget
    exact ⟨(e, c.rank), mem_zipIdx_iff_getElem?.mpr he, by rw [hhit]⟩

/-! ## What the lanes give for a file -/

/-- The hits that the lanes give for a file, in the order of the lanes. -/
def given (lanes : List (List Hit)) (path : Bytes) : List Contribution :=
  (laneContributions lanes).filter fun c => c.hit.path = path

/-- The lanes give at most one hit for a file, in the order of their numbers. -/
theorem pairwise_given (lanes : List (List Hit)) (path : Bytes) :
    (given lanes path).Pairwise fun c d => c.lane < d.lane := by
  rw [given, pairwise_filter, laneContributions, pairwise_flatMap]
  refine ⟨fun e he => ?_, ?_⟩
  · have hnodup := nodup_laneFiles e.1
    rw [← map_hit_contributions e.2, map_map, nodup_iff_pairwise_ne, pairwise_map] at hnodup
    refine hnodup.imp fun {c d} hne hc hd => ?_
    rw [decide_eq_true_eq] at hc hd
    exact absurd (hc.trans hd.symm) hne
  · have hlanes : (lanes.zipIdx.map Prod.snd).Pairwise (· < ·) := by
      rw [zipIdx_map_snd]
      exact pairwise_lt_range'
    refine (pairwise_map.mp hlanes).imp fun hlt c hc d hd _ _ => ?_
    rw [lane_of_mem hc, lane_of_mem hd]
    exact hlt

/-- A hit is the first one of its file in its lane, at its rank among the files of the lane. -/
def Contribution.InLanes (lanes : List (List Hit)) (c : Contribution) : Prop :=
  ∃ lane, lanes[c.lane]? = some lane ∧ (laneFiles lane)[c.rank]? = some c.hit

variable {path : Bytes} {lanes : List (List Hit)}

theorem mem_given : c ∈ given lanes path ↔ c.InLanes lanes ∧ c.hit.path = path := by
  rw [given, mem_filter, decide_eq_true_iff, laneContributions, mem_flatMap]
  refine and_congr_left fun _ => ?_
  constructor
  · rintro ⟨⟨lane, i⟩, hlane, hc⟩
    obtain ⟨hi, hget⟩ := mem_contributions.mp hc
    exact ⟨lane, by rw [hi]; exact mem_zipIdx_iff_getElem?.mp hlane, hget⟩
  · rintro ⟨lane, hlane, hget⟩
    exact ⟨(lane, c.lane), mem_zipIdx_iff_getElem?.mpr hlane, mem_contributions.mpr ⟨rfl, hget⟩⟩

theorem given_ne_nil_iff :
    given lanes path ≠ [] ↔ ∃ lane ∈ lanes, path ∈ (laneFiles lane).map Hit.path := by
  constructor
  · intro hne
    obtain ⟨c, hc⟩ := exists_mem_of_ne_nil _ hne
    obtain ⟨⟨lane, hlane, hget⟩, rfl⟩ := mem_given.mp hc
    exact ⟨lane, mem_of_getElem? hlane, mem_map_of_mem (mem_of_getElem? hget)⟩
  · rintro ⟨lane, hlane, hpath⟩
    obtain ⟨i, hi⟩ := mem_iff_getElem?.mp hlane
    obtain ⟨hit, hhit, rfl⟩ := mem_map.mp hpath
    obtain ⟨rank, hrank⟩ := mem_iff_getElem?.mp hhit
    exact ne_nil_of_mem (a := ⟨i, rank, hit⟩) (mem_given.mpr ⟨⟨lane, hi, hrank⟩, rfl⟩)

/-- `is_local_kind`. -/
def isLocalKind (kind : String) : Bool := kind ∈ ["variable", "parameter", "import"]

section Fusion

variable [Unicode]

namespace FileEvidence

/-- `FileEvidence::of`. -/
def ofHit (hit : Hit) (policy : FusionPolicy) : FileEvidence :=
  if policy.identifierTier && policy.prior.namesExactly hit.path then .named
  else if hit.provenance = some .phrase then .phrase
  else if !policy.identifierTier then .absent
  else
    match hit.provenance with
    | some .exactIdentifier => if isLocalKind hit.kind then .used else .defined
    | some .identifierOccurrence => .used
    | _ => .absent

/-- `identifier_evidence`. -/
def identifierEvidence : FileEvidence → IdentifierEvidence
  | .used => .used
  | .defined => .defined
  | .named => .named
  | .absent | .phrase => .absent

/-- `tier`. -/
def tier : FileEvidence → ℕ
  | .named | .defined | .phrase => 0
  | .used => 1
  | .absent => 2

end FileEvidence

/-- `lane_weight`. -/
def laneWeight (hit : Hit) (policy : FusionPolicy) : Float :=
  match hit.provenance with
  | some .exactIdentifier => if policy.identifierTier && !isLocalKind hit.kind then 3.0 else 1.0
  | some .phrase | some .filenameExact => 2.0
  | some .filenamePartial => 0.5
  | _ => 1.0

/-- `struct FileScore`. -/
structure FileScore where
  score : Float
  identifierEvidence : IdentifierEvidence
  representativeEvidence : FileEvidence
  representative : Hit
  representativeLane : ℕ
  representativeRank : ℕ

/-! ## Files -/

variable (lanes) (policy : FusionPolicy)

/-- What a file has before its first hit is counted. -/
def FileScore.start (c : Contribution) : FileScore where
  score := 0.0
  identifierEvidence := .absent
  representativeEvidence := .ofHit c.hit policy
  representative := c.hit
  representativeLane := c.lane
  representativeRank := c.rank

/-- The score of one hit. -/
def contributionScore (c : Contribution) : Float :=
  let weight := if policy.laneWeights then laneWeight c.hit policy else 1.0
  let prior := if policy.priorFromLane ≤ c.lane then policy.prior.weight c.hit.path else 1.0
  weight * prior / (rrfK + c.rank.toUInt64.toFloat + 1.0)

/-- The evidence of a hit. -/
def Contribution.evidence (c : Contribution) : FileEvidence :=
  .ofHit c.hit policy

/-- A hit is counted for its file. -/
def FileScore.add (c : Contribution) (score : FileScore) : FileScore :=
  let evidence := c.evidence policy
  let counted := { score with
    score := score.score + contributionScore policy c
    identifierEvidence := max score.identifierEvidence evidence.identifierEvidence }
  let betterEvidence := evidence.tier < score.representativeEvidence.tier
  let tiedEvidence := evidence.tier = score.representativeEvidence.tier
  let earlierHit := c.lane < score.representativeLane ∨
    c.lane = score.representativeLane ∧ c.rank < score.representativeRank
  if betterEvidence ∨ tiedEvidence ∧ earlierHit then
    { counted with
      representativeEvidence := evidence
      representative := c.hit
      representativeLane := c.lane
      representativeRank := c.rank }
  else counted

/-- The place of `f64` values in the order of `f64::total_cmp`. -/
def totalKey (x : Float) : ℤ :=
  let bits := x.toBits.toNat
  if bits < 2 ^ 63 then bits else 2 ^ 63 - 1 - bits

/-- The order of the files. -/
def fileOrder (left right : FileScore) : Ordering :=
  compareLex (fun a b : FileScore => compare b.identifierEvidence.rank a.identifierEvidence.rank)
    (compareLex (fun a b => compare (totalKey b.score) (totalKey a.score))
      (compareLex (compareOn fun f => f.representative.path)
        (compareLex (compareOn fun f => f.representative.start)
          (compareLex (compareOn fun f => f.representative.stop)
            (compareOn fun f => f.representative.kind))))) left right

abbrev FileTable := SortedTable (fun f : FileScore => f.representative.path) (· < ·)

/-- A hit is entered under its file. -/
def FileTable.enter (files : FileTable) (c : Contribution) : FileTable :=
  files.upsert c.hit.path fun score => (score.getD (.start policy c)).add policy c

/-- `fuse_search_file_lanes`. -/
def fuseSearchFileLanes (lanes : List (List Hit)) (policy : FusionPolicy) : List Hit :=
  let files : FileTable := (laneContributions lanes).foldl (FileTable.enter policy) .empty
  (files.rows.mergeSort fun a b => (fileOrder a b).isLE).map (·.representative)

/-! ## What is collected for a file -/

/-- What is collected from some hits. -/
def collect (cs : List Contribution) : Option FileScore :=
  cs.foldl (fun score c => some ((score.getD (.start policy c)).add policy c)) none

/-- The files of the lanes. -/
def files : FileTable :=
  (laneContributions lanes).foldl (FileTable.enter policy) .empty

theorem path_add (c : Contribution) (score : FileScore)
    (h : score.representative.path = c.hit.path) :
    (score.add policy c).representative.path = c.hit.path := by
  rw [FileScore.add]
  dsimp only
  split_ifs
  · rfl
  · exact h

theorem find_files (path : Bytes) :
    (files lanes policy).find path = collect policy (given lanes path) := by
  have hfold := SortedTable.find_foldl_upsert (fun c : Contribution => c.hit.path)
    (fun c score => (score.getD (.start policy c)).add policy c)
    (fun c score hscore => by
      apply path_add
      cases score with
      | none => rfl
      | some score => exact hscore score rfl)
    (laneContributions lanes) (.empty : FileTable) path
  exact hfold

/-- What is known of a file whose hits are `cs`. -/
structure Collected (cs : List Contribution) (s : FileScore) : Prop where
  evidence_le : ∀ c ∈ cs, (c.evidence policy).identifierEvidence ≤ s.identifierEvidence
  evidence_mem : ∃ c ∈ cs, s.identifierEvidence = (c.evidence policy).identifierEvidence
  score : s.score = (cs.map (contributionScore policy)).foldl (· + ·) 0.0
  represented : ∃ before c after, cs = before ++ c :: after ∧ s.representative = c.hit ∧
    s.representativeEvidence = c.evidence policy ∧ s.representativeLane = c.lane ∧
    (∀ d ∈ before, (c.evidence policy).tier < (d.evidence policy).tier) ∧
    ∀ d ∈ after, (c.evidence policy).tier ≤ (d.evidence policy).tier

theorem collected_start (c : Contribution) :
    Collected policy [c] ((FileScore.start policy c).add policy c) := by
  have hadd : (FileScore.start policy c).add policy c =
      { FileScore.start policy c with
        score := 0.0 + contributionScore policy c
        identifierEvidence := max .absent (c.evidence policy).identifierEvidence } := by
    rw [FileScore.add]
    refine if_neg ?_
    rintro (hbetter | ⟨-, hearlier | ⟨-, hearlier⟩⟩)
    · exact lt_irrefl _ hbetter
    · exact lt_irrefl _ hearlier
    · exact lt_irrefl _ hearlier
  have hmax : max .absent (c.evidence policy).identifierEvidence =
      (c.evidence policy).identifierEvidence := max_eq_right (IdentifierEvidence.absent_le _)
  rw [hadd, hmax]
  exact {
    evidence_le := fun d hd => by rw [mem_singleton.mp hd]
    evidence_mem := ⟨c, mem_singleton_self c, rfl⟩
    score := rfl
    represented := ⟨[], c, [], rfl, rfl, rfl, rfl, fun d hd => (nomatch hd),
      fun d hd => (nomatch hd)⟩ }

variable {lanes policy} {s : FileScore} {cs : List Contribution}

theorem Collected.add (h : Collected policy cs s) (hlane : ∀ d ∈ cs, d.lane < c.lane) :
    Collected policy (cs ++ [c]) (s.add policy c) := by
  obtain ⟨before, r, after, hsplit, hhit, hevidence, hrepLane, hbefore, hafter⟩ := h.represented
  have hr : r ∈ cs := hsplit ▸ mem_append_right before mem_cons_self
  have hcounted : (s.add policy c).identifierEvidence =
        max s.identifierEvidence (c.evidence policy).identifierEvidence ∧
      (s.add policy c).score = s.score + contributionScore policy c := by
    rw [FileScore.add]
    dsimp only
    split_ifs
    · exact ⟨rfl, rfl⟩
    · exact ⟨rfl, rfl⟩
  constructor
  · intro d hd
    rw [hcounted.1]
    rcases mem_append.mp hd with hd | hd
    · exact (h.evidence_le d hd).trans (le_max_left ..)
    · exact mem_singleton.mp hd ▸ le_max_right ..
  · rw [hcounted.1]
    rcases max_choice s.identifierEvidence (c.evidence policy).identifierEvidence with hmax | hmax
    · obtain ⟨d, hd, heq⟩ := h.evidence_mem
      exact ⟨d, mem_append_left _ hd, hmax.trans heq⟩
    · exact ⟨c, mem_append_right _ (mem_singleton_self c), hmax⟩
  · rw [hcounted.2, h.score, map_append, foldl_append]
    rfl
  · -- A later hit takes over only if its tier is better, since its lane is behind.
    rw [FileScore.add]
    by_cases hbetter : (c.evidence policy).tier < s.representativeEvidence.tier
    · refine ⟨cs, c, [], rfl, ?_⟩
      rw [if_pos (.inl hbetter)]
      refine ⟨rfl, rfl, rfl, fun d hd => ?_, fun d hd => (nomatch hd)⟩
      rw [hevidence] at hbetter
      rw [hsplit] at hd
      rcases mem_append.mp hd with hd | hd
      · exact hbetter.trans (hbefore d hd)
      · rcases mem_cons.mp hd with rfl | hd
        · exact hbetter
        · exact lt_of_lt_of_le hbetter (hafter d hd)
    · have hkept : ¬((c.evidence policy).tier < s.representativeEvidence.tier ∨
          (c.evidence policy).tier = s.representativeEvidence.tier ∧
            (c.lane < s.representativeLane ∨
              c.lane = s.representativeLane ∧ c.rank < s.representativeRank)) := by
        have hbehind := hlane r hr
        rw [hrepLane]
        rintro (hlt | ⟨-, hlt | ⟨heq, -⟩⟩)
        · exact hbetter hlt
        · omega
        · omega
      refine ⟨before, r, after ++ [c], by rw [hsplit, append_assoc, cons_append], ?_⟩
      rw [if_neg hkept]
      refine ⟨hhit, hevidence, hrepLane, hbefore, fun d hd => ?_⟩
      rcases mem_append.mp hd with hd | hd
      · exact hafter d hd
      · rw [mem_singleton.mp hd, ← hevidence]
        exact Nat.le_of_not_lt hbetter

theorem collect_spec (policy : FusionPolicy) (hne : cs ≠ [])
    (hlanes : cs.Pairwise fun c d => c.lane < d.lane) :
    ∃ s, collect policy cs = some s ∧ Collected policy cs s := by
  induction cs using List.reverseRecOn with
  | nil => exact absurd rfl hne
  | append_singleton cs c ih =>
    rw [pairwise_append] at hlanes
    rw [collect, foldl_append]
    by_cases hcs : cs = []
    · subst hcs
      exact ⟨_, rfl, collected_start policy c⟩
    · obtain ⟨s, hs, hcollected⟩ := ih hcs hlanes.1
      rw [collect] at hs
      rw [hs]
      exact ⟨_, rfl, hcollected.add fun d hd => hlanes.2.2 d hd c (mem_singleton_self c)⟩

theorem mem_files (h : s ∈ (files lanes policy).rows) :
    Collected policy (given lanes s.representative.path) s := by
  have hfind := (find_files lanes policy s.representative.path).symm.trans
    (SortedTable.find_of_mem h)
  have hne : given lanes s.representative.path ≠ [] := by
    intro hnil
    rw [hnil] at hfind
    exact nomatch hfind
  obtain ⟨t, ht, hcollected⟩ := collect_spec policy hne (pairwise_given lanes _)
  rw [ht] at hfind
  exact Option.some.inj hfind ▸ hcollected

/-- The strongest evidence of the hits for a file. -/
def strongestEvidence (lanes : List (List Hit)) (policy : FusionPolicy) (path : Bytes) :
    IdentifierEvidence :=
  ((given lanes path).map fun c => (c.evidence policy).identifierEvidence).foldr max .absent

theorem evidence_le_strongest (h : c ∈ given lanes path) :
    (c.evidence policy).identifierEvidence ≤ strongestEvidence lanes policy path :=
  IdentifierEvidence.le_foldr_max (mem_map_of_mem h)

theorem strongest_le {bound : IdentifierEvidence}
    (h : ∀ c ∈ given lanes path, (c.evidence policy).identifierEvidence ≤ bound) :
    strongestEvidence lanes policy path ≤ bound :=
  IdentifierEvidence.foldr_max_le (forall_mem_map.mpr h)

theorem Collected.strongest (h : Collected policy (given lanes path) s) :
    s.identifierEvidence = strongestEvidence lanes policy path := by
  obtain ⟨c, hc, heq⟩ := h.evidence_mem
  exact le_antisymm (heq ▸ evidence_le_strongest hc) (strongest_le h.evidence_le)

theorem exists_mem_files (policy : FusionPolicy) :
    (∃ s ∈ (files lanes policy).rows, s.representative.path = path) ↔ given lanes path ≠ [] := by
  constructor
  · rintro ⟨s, hs, rfl⟩ hnil
    obtain ⟨c, hc, -⟩ := (mem_files hs).evidence_mem
    rw [hnil] at hc
    exact nomatch hc
  · intro hne
    obtain ⟨s, hs, -⟩ := collect_spec policy hne (pairwise_given lanes path)
    exact ⟨s, SortedTable.mem_of_find ((find_files lanes policy path).trans hs)⟩

/-! ## The ranking -/

instance : Std.TransCmp fun a b : FileScore =>
    compare b.identifierEvidence.rank a.identifierEvidence.rank :=
  @Std.TransCmp.opposite _ (compareOn fun f : FileScore => f.identifierEvidence.rank) _

instance : Std.TransCmp fun a b : FileScore => compare (totalKey b.score) (totalKey a.score) :=
  @Std.TransCmp.opposite _ (compareOn fun f : FileScore => totalKey f.score) _

instance : Std.TransCmp fileOrder := by
  unfold fileOrder
  infer_instance

/-- The files in the order of the ranking. -/
def rankedFiles (lanes : List (List Hit)) (policy : FusionPolicy) : List FileScore :=
  (files lanes policy).rows.mergeSort fun a b => (fileOrder a b).isLE

theorem fuse_eq (lanes : List (List Hit)) (policy : FusionPolicy) :
    fuseSearchFileLanes lanes policy = (rankedFiles lanes policy).map (·.representative) := rfl

theorem mem_rankedFiles :
    s ∈ rankedFiles lanes policy ↔ s ∈ (files lanes policy).rows :=
  (mergeSort_perm _ _).mem_iff

theorem pairwise_rankedFiles (lanes : List (List Hit)) (policy : FusionPolicy) :
    (rankedFiles lanes policy).Pairwise fun a b => (fileOrder a b).isLE = true :=
  pairwise_sortByCmp _

theorem fuse_paths_nodup (lanes : List (List Hit)) (policy : FusionPolicy) :
    ((fuseSearchFileLanes lanes policy).map Hit.path).Nodup := by
  rw [fuse_eq, map_map]
  exact ((mergeSort_perm _ _).map _).nodup_iff.mpr (nodup_of_sorted (files lanes policy))

theorem mem_fuse_paths :
    path ∈ (fuseSearchFileLanes lanes policy).map Hit.path ↔
      ∃ lane ∈ lanes, path ∈ (laneFiles lane).map Hit.path := by
  rw [← given_ne_nil_iff, ← exists_mem_files policy, fuse_eq, map_map, mem_map]
  simp only [mem_rankedFiles, Function.comp]

variable {t : FileScore}

/-- A file that is before another one in the order stands before it in the ranking. -/
theorem precedes_of_fileOrder (hs : s ∈ (files lanes policy).rows)
    (ht : t ∈ (files lanes policy).rows) (hlt : fileOrder s t = .lt) :
    [s.representative.path, t.representative.path].Sublist
      ((fuseSearchFileLanes lanes policy).map Hit.path) := by
  have hpair := sublist_pair_of_lt (pairwise_rankedFiles lanes policy) (mem_rankedFiles.mpr hs)
    (mem_rankedFiles.mpr ht) hlt
  rw [fuse_eq, map_map]
  exact hpair.map fun s => s.representative.path

omit [Unicode] in
theorem fileOrder_of_evidence (h : t.identifierEvidence < s.identifierEvidence) :
    fileOrder s t = .lt := by
  rw [fileOrder, compareLex, Nat.compare_eq_lt.mpr h]
  rfl

end Fusion

end Trufflepig.Search
