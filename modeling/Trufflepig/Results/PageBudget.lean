import Trufflepig.Results.Page

/-!
# What a page shows under its budget

* `fitPage_fits`: a page that is returned fits.
* `fitPage_largest`: where fitting is monotone, which number that is.
* `page_budget`: both for the pages of a repository and of a workspace.

The search tests a page before it moves to it, so the first result needs no monotonicity.
-/

namespace Trufflepig.Results

open Lib

/-! ## Tests of pages -/

theorem largestFitting_le {max n : ℕ} {test : ℕ → Except PageError Bool}
    (h : largestFitting max test = .ok n) : n ≤ max := (lastPassing_le h (Nat.zero_le max)).2

section Fit

variable {budget : OutputBudget} {maxCount available : ℕ}
  {render : ℕ → HitDetail → Except PageError Bytes}
  {shorten : Bool → Except PageError (Option Bytes)} {tooSmall : PageError} {text : Bytes}

/-- The number of entries that the search ends with was tested. -/
theorem largestFitting_fits {detail : HitDetail} {count : ℕ}
    (h : largestFitting maxCount (fun count => fitsPage budget (render count detail)) = .ok count)
    (hpos : 0 < count) (htext : render count detail = .ok text) : budget.fits text = true := by
  rcases lastPassing_passes h with hzero | hpass
  · omega
  · rw [htext] at hpass
    exact Except.ok.inj hpass

theorem snippetPage_fits (h : snippetPage budget maxCount render = .ok (some text)) :
    budget.fits text = true := by
  unfold snippetPage at h
  dsimp only at h
  split_ifs at h with hfloor
  · exact nomatch h
  · obtain ⟨count, hcount, h⟩ := bind_eq_ok.mp h
    split_ifs at h with hge
    · obtain ⟨found, hfound, h⟩ := bind_eq_ok.mp h
      obtain rfl := Option.some.inj (Except.ok.inj h)
      exact largestFitting_fits hcount (by omega) hfound
    · exact nomatch h

section Shorten

variable (hshorten : ∀ names text, shorten names = .ok (some text) → budget.fits text = true)
include hshorten

theorem namesPage_fits {names : Bool}
    (h : namesPage budget maxCount render shorten names = .ok (some text)) :
    budget.fits text = true := by
  unfold namesPage at h
  obtain ⟨low, hlow, h⟩ := bind_eq_ok.mp h
  split_ifs at h with hpos
  · obtain ⟨named, hnamed, h⟩ := bind_eq_ok.mp h
    split_ifs at h with hfits
    · obtain rfl := Option.some.inj (Except.ok.inj h)
      exact hfits
    · obtain ⟨found, hfound, h⟩ := bind_eq_ok.mp h
      obtain rfl := Option.some.inj (Except.ok.inj h)
      exact largestFitting_fits hlow hpos hfound
  · exact hshorten names text h

/-- A page that is returned was tested, if the pages with shorter candidates are. -/
theorem fitPage_fits (h : fitPage budget maxCount available render shorten tooSmall = .ok text) :
    budget.fits text = true := by
  unfold fitPage at h
  obtain ⟨snippets, hsnippets, h⟩ := bind_eq_ok.mp h
  cases snippets with
  | some found =>
    obtain rfl := Except.ok.inj h
    exact snippetPage_fits hsnippets
  | none =>
    obtain ⟨plain, hplain, h⟩ := bind_eq_ok.mp h
    cases plain with
    | some found =>
      obtain rfl := Except.ok.inj h
      exact namesPage_fits hshorten hplain
    | none =>
      obtain ⟨named, hnamed, h⟩ := bind_eq_ok.mp h
      cases named with
      | some found =>
        obtain rfl := Except.ok.inj h
        exact namesPage_fits hshorten hnamed
      | none =>
        dsimp only at h
        split_ifs at h with hempty
        obtain ⟨found, hfound, h⟩ := bind_eq_ok.mp h
        split_ifs at h with hfits
        obtain rfl := Except.ok.inj h
        exact hfits

end Shorten

/-! ## Monotone fitting -/

/-- Every page is written, `fit` says which fit, and with fewer entries they still do. -/
structure MonotoneFit (budget : OutputBudget) (maxCount : ℕ)
    (render : ℕ → HitDetail → Except PageError Bytes) (fit : HitDetail → ℕ → Bool) : Prop where
  written : ∀ detail count, count ≤ maxCount →
    fitsPage budget (render count detail) = .ok (fit detail count)
  mono : ∀ detail j k, 0 < j → j ≤ k → k ≤ maxCount → fit detail k = true → fit detail j = true

variable {fit : HitDetail → ℕ → Bool}

/-- The numbers of entries that fit. -/
def fitting (fit : HitDetail → ℕ → Bool) (maxCount : ℕ) (detail : HitDetail) : Set ℕ :=
  {count | 0 < count ∧ count ≤ maxCount ∧ fit detail count = true}

theorem isGreatest_fitting {detail : HitDetail} {n : ℕ} (hpos : 0 < n) (hle : n ≤ maxCount)
    (hiff : ∀ k, 0 < k → k ≤ maxCount → (fit detail k = true ↔ k ≤ n)) :
    IsGreatest (fitting fit maxCount detail) n :=
  ⟨⟨hpos, hle, (hiff n hpos hle).mpr le_rfl⟩, fun k hk => (hiff k hk.1 hk.2.1).mp hk.2.2⟩

/-- Enough entries fit with names and snippets: eight, or all that the page may show. -/
def SnippetsFit (fit : HitDetail → ℕ → Bool) (maxCount : ℕ) : Prop :=
  0 < maxCount ∧ ∃ count ∈ fitting fit maxCount .full, min snippetPageFloor maxCount ≤ count

variable (hfit : MonotoneFit budget maxCount render fit)
include hfit

theorem MonotoneFit.exists_text (detail : HitDetail) {count : ℕ} (hcount : count ≤ maxCount) :
    ∃ text, render count detail = .ok text ∧ budget.fits text = fit detail count := by
  obtain ⟨text, htext, h⟩ := bind_eq_ok.mp (hfit.written detail count hcount)
  exact ⟨text, htext, Except.ok.inj h⟩

/-- The search returns the greatest number of entries that fit, or none. -/
theorem MonotoneFit.largestFitting (detail : HitDetail) :
    ∃ n, Results.largestFitting maxCount (fun count => fitsPage budget (render count detail)) =
        .ok n ∧ n ≤ maxCount ∧ ∀ k, 0 < k → k ≤ maxCount → (fit detail k = true ↔ k ≤ n) := by
  obtain ⟨n, hn, hiff⟩ := lastPassing_greatest (fit detail)
    (fun k _ hk => hfit.written detail k hk) (fun j k => hfit.mono detail j k) (Nat.zero_le maxCount)
  exact ⟨n, hn, largestFitting_le hn, hiff⟩

theorem snippetPage_of_fit (hsnippets : SnippetsFit fit maxCount) :
    ∃ count text, IsGreatest (fitting fit maxCount .full) count ∧ render count .full = .ok text ∧
      snippetPage budget maxCount render = .ok (some text) := by
  obtain ⟨n, hn, hle, hiff⟩ := hfit.largestFitting .full
  obtain ⟨hpos, count, ⟨hcount, hcountle, hcountfit⟩, henough⟩ := hsnippets
  have hcountn := (hiff count hcount hcountle).mp hcountfit
  obtain ⟨text, htext, -⟩ := hfit.exists_text .full hle
  refine ⟨n, text, isGreatest_fitting (by omega) hle hiff, htext, ?_⟩
  have hfloor : 0 < snippetPageFloor := by decide
  unfold snippetPage
  dsimp only
  rw [if_neg (by omega), hn]
  show (if n ≥ min maxCount snippetPageFloor then _ else _) = _
  rw [if_pos (by omega), htext]
  rfl

theorem snippetPage_of_not_fit (hsnippets : ¬ SnippetsFit fit maxCount) :
    snippetPage budget maxCount render = .ok none := by
  have hfloor : 0 < snippetPageFloor := by decide
  unfold snippetPage
  dsimp only
  by_cases hzero : min maxCount snippetPageFloor = 0
  · rw [if_pos hzero]
    rfl
  · obtain ⟨n, hn, hle, hiff⟩ := hfit.largestFitting .full
    rw [if_neg hzero, hn]
    show (if n ≥ min maxCount snippetPageFloor then _ else _) = _
    rw [if_neg]
    · rfl
    · intro henough
      have hpos : 0 < n := by omega
      exact hsnippets ⟨by omega, n, ⟨hpos, hle, (hiff n hpos hle).mpr le_rfl⟩, by omega⟩

theorem namesPage_of_fit (shorten : Bool → Except PageError (Option Bytes))
    (hplain : (fitting fit maxCount (.ofNames false)).Nonempty) :
    ∃ count text, IsGreatest (fitting fit maxCount (.ofNames false)) count ∧
      render count (.ofNames (fit (.ofNames true) count)) = .ok text ∧
      namesPage budget maxCount render shorten false = .ok (some text) := by
  obtain ⟨n, hn, hle, hiff⟩ := hfit.largestFitting (.ofNames false)
  obtain ⟨count, hcount, hcountle, hcountfit⟩ := hplain
  have hpos : 0 < n := hcount.trans_le ((hiff count hcount hcountle).mp hcountfit)
  have hgreatest := isGreatest_fitting hpos hle hiff
  obtain ⟨named, hnamed, hnamedfit⟩ := hfit.exists_text (.ofNames true) hle
  obtain ⟨plain, hplain, -⟩ := hfit.exists_text (.ofNames false) hle
  unfold namesPage
  rw [hn]
  cases hfits : fit (.ofNames true) n with
  | true =>
    refine ⟨n, named, hgreatest, by rw [hfits]; exact hnamed, ?_⟩
    show (if n > 0 then _ else _) = _
    rw [if_pos hpos, hnamed]
    show (if budget.fits named = true then _ else _) = _
    rw [if_pos (hnamedfit.trans hfits)]
    rfl
  | false =>
    refine ⟨n, plain, hgreatest, by rw [hfits]; exact hplain, ?_⟩
    show (if n > 0 then _ else _) = _
    rw [if_pos hpos, hnamed]
    show (if budget.fits named = true then _ else _) = _
    rw [if_neg (by rw [hnamedfit, hfits]; exact Bool.false_ne_true), hplain]
    rfl

/-- What a page shows where fitting is monotone. -/
structure ShowsLargest (budget : OutputBudget) (maxCount : ℕ)
    (render : ℕ → HitDetail → Except PageError Bytes) (fit : HitDetail → ℕ → Bool)
    (result : Except PageError Bytes) : Prop where
  snippets_iff : (∃ text, snippetPage budget maxCount render = .ok (some text)) ↔
    SnippetsFit fit maxCount
  snippets : SnippetsFit fit maxCount →
    ∃ count text, IsGreatest (fitting fit maxCount .full) count ∧
      render count .full = .ok text ∧ result = .ok text
  plain : ¬ SnippetsFit fit maxCount → (fitting fit maxCount (.ofNames false)).Nonempty →
    ∃ count text, IsGreatest (fitting fit maxCount (.ofNames false)) count ∧
      render count (.ofNames (fit (.ofNames true) count)) = .ok text ∧ result = .ok text

theorem fitPage_largest :
    ShowsLargest budget maxCount render fit
      (fitPage budget maxCount available render shorten tooSmall) where
  snippets_iff := by
    constructor
    · rintro ⟨text, htext⟩
      by_contra hnot
      rw [snippetPage_of_not_fit hfit hnot] at htext
      exact nomatch htext
    · intro hsnippets
      obtain ⟨_, text, -, -, htext⟩ := snippetPage_of_fit hfit hsnippets
      exact ⟨text, htext⟩
  snippets hsnippets := by
    obtain ⟨count, text, hgreatest, hrender, htext⟩ := snippetPage_of_fit hfit hsnippets
    refine ⟨count, text, hgreatest, hrender, ?_⟩
    unfold fitPage
    rw [htext]
    rfl
  plain hsnippets hplain := by
    obtain ⟨count, text, hgreatest, hrender, htext⟩ := namesPage_of_fit hfit shorten hplain
    refine ⟨count, text, hgreatest, hrender, ?_⟩
    unfold fitPage
    rw [snippetPage_of_not_fit hfit hsnippets]
    show (namesPage budget maxCount render shorten false >>= _) = _
    rw [htext]
    rfl

end Fit

/-! ## Both implementations -/

variable (writer : PageWriter) {call : PageCall} {budget : OutputBudget}

theorem shortenCandidates_some {set : StoredResultSet} {maxCount : ℕ} {names : Bool}
    {text : Bytes} (h : shortenCandidates writer set call budget maxCount names = .ok (some text)) :
    budget.fits text = true := by
  unfold shortenCandidates at h
  split_ifs at h with hjson
  · obtain ⟨value, hvalue, h⟩ := bind_eq_ok.mp h
    obtain ⟨limit, hlimit, h⟩ := bind_eq_ok.mp h
    split_ifs at h with htotal
    · obtain ⟨found, hfound, h⟩ := bind_eq_ok.mp h
      have hsome := Except.ok.inj h
      split_ifs at hsome with hfits
      obtain rfl := Option.some.inj hsome
      exact hfits
    · exact nomatch h
  · exact nomatch h

/-- A page that is returned fits its budget. Where fitting is monotone in the number of entries
it has snippets exactly if enough entries fit with them, and then as many as fit; else it has
as many entries as fit without names, and their names if they fit too. -/
theorem page_budget (budget : OutputBudget) (call : PageCall) :
    (∀ set text, page writer set call budget = .ok text → budget.fits text = true) ∧
    (∀ set text, workspacePage writer set call budget = .ok text → budget.fits text = true) ∧
    (∀ set fit, call.offset ≤ set.hits.length →
      MonotoneFit budget (call.maxCount set.hits.length budget)
        (fun count detail => renderDetail writer set call budget count detail none) fit →
      ShowsLargest budget (call.maxCount set.hits.length budget)
        (fun count detail => renderDetail writer set call budget count detail none) fit
        (page writer set call budget)) ∧
    (∀ set fit, call.offset ≤ set.hits.length →
      MonotoneFit budget (call.maxCount set.hits.length budget)
        (renderWorkspace writer set call budget) fit →
      ShowsLargest budget (call.maxCount set.hits.length budget)
        (renderWorkspace writer set call budget) fit (workspacePage writer set call budget)) := by
  refine ⟨?_, ?_, ?_, ?_⟩
  · intro set text h
    unfold page at h
    split_ifs at h
    exact fitPage_fits (fun _ _ => shortenCandidates_some writer) h
  · intro set text h
    unfold workspacePage at h
    split_ifs at h
    exact fitPage_fits (by simp) h
  · intro set fit hoffset hfit
    unfold page
    rw [if_neg (by omega)]
    exact fitPage_largest hfit
  · intro set fit hoffset hfit
    unfold workspacePage
    rw [if_neg (by omega)]
    exact fitPage_largest hfit

/-- A set of three commits. -/
def threeCommits : StoredResultSet where
  generation := 1
  coverage := .null
  truncated := false
  hits := [ascii "a:1", ascii "a:2", ascii "a:3"].map fun handle =>
    .commit ⟨handle, [], ⟨List.replicate 40 48, .inl rfl⟩, none, ascii "first", 0⟩

/-- A writer of empty texts. -/
def emptyWriter : PageWriter := ⟨fun _ => [], fun _ => .null, fun _ => [], fun _ => [], id⟩

/-- A page in lines under a budget of 180 bytes, which two of the three commits fit. -/
theorem page_budget_threeCommits :
    let budget : OutputBudget := ⟨100, .lines, fun text => text.length ≤ 180⟩
    let call : PageCall := ⟨ascii "a", [], 0, 5⟩
    ∃ text, page emptyWriter threeCommits call budget = .ok text ∧ text.length ≤ 180 ∧
      renderDetail emptyWriter threeCommits call budget 2 (.ofNames true) none = .ok text := by
  intro budget call
  have hlength : ∀ detail, ∀ count ≤ 3, decide ((pageText
      ((call.shown threeCommits.hits count).map fun entry => (none, entry)) detail []
      ((nextCursor call.id 0 count 3).map fun cursor => moreCommand cursor 0 count 5)
      false).length ≤ 180) = decide (count ≤ 2) := by
    rintro ⟨names, snippets⟩ count hcount
    interval_cases count <;> cases names <;> cases snippets <;> decide +kernel
  have hfit : MonotoneFit budget 3
      (fun count detail => renderDetail emptyWriter threeCommits call budget count detail none)
      (fun _ count => decide (count ≤ 2)) := by
    refine ⟨fun detail count hcount => congrArg Except.ok (hlength detail count hcount), ?_⟩
    intro _ j k _ hjk _ hk
    exact decide_eq_true (hjk.trans (of_decide_eq_true hk))
  obtain ⟨hfits, -, hlargest, -⟩ := page_budget emptyWriter budget call
  have hcut : ¬SnippetsFit (fun _ count => decide (count ≤ 2)) 3 := by
    rintro ⟨-, count, ⟨-, -, hle⟩, hall⟩
    exact absurd (hall.trans (of_decide_eq_true hle)) (by decide)
  obtain ⟨count, text, hgreatest, hrender, htext⟩ :=
    (hlargest threeCommits _ (Nat.zero_le 3) hfit).plain hcut ⟨1, by decide, by decide, rfl⟩
  have htwo : count = 2 :=
    hgreatest.unique ⟨⟨by decide, by decide, rfl⟩, fun _ h => of_decide_eq_true h.2.2⟩
  rw [htwo] at hrender
  exact ⟨text, htext, of_decide_eq_true (hfits threeCommits text htext), hrender⟩

end Trufflepig.Results
