import Trufflepig.Lib.Tiling
import Trufflepig.Store.Regions

/-!
# The definition forest is crossing free

The sweep of `definition_forest` keeps a stack of open nodes, each inside the
one below it, over the roots closed so far. `OpenStack` states what holds of
the two at a position `p` of the sweep; one step keeps it (`sweepSpan_open`),
and closing the stack leaves a forest whose siblings are disjoint and whose
children lie inside their parents (`definitionForest_spaced`).

* `Outermost.mem_collect`: the outermost nodes of at most `REGION_BYTES` bytes are
  preferred spans.
* `Nested.collect`: there are no others, and they are disjoint and ascending.
-/

namespace Trufflepig.Store

open List Lib

/-- Disjoint ascending sibling nodes between `a` and `b`. -/
abbrev SpacedNodes : ℕ → List DefinitionNode → ℕ → Prop :=
  Spaced (fun node => node.span.start) (fun node => node.span.stop)

/-- Disjoint ascending spans between `a` and `b`. -/
abbrev SpacedSpans : ℕ → List RegionSpan → ℕ → Prop :=
  Spaced RegionSpan.start RegionSpan.stop

/-- A closed node: a non-empty span satisfying `P`, with disjoint ascending
children inside it that are closed in turn. -/
inductive Nested (P : DefinitionSpan → Prop) : DefinitionNode → Prop
  | mk {span : DefinitionSpan} {children : List DefinitionNode} : P span → span.start < span.stop →
      SpacedNodes span.start children span.stop → (∀ child ∈ children, Nested P child) →
      Nested P (.mk span children)

/-- The sweep at position `p`: `stack` holds the open nodes, innermost first,
each ending inside the next; what is attached to an open node ends before
the node opened after it. -/
def OpenStack (P : DefinitionSpan → Prop) (p : ℕ) (roots : List DefinitionNode) :
    List DefinitionNode → Prop
  | [] => SpacedNodes 0 roots p ∧ ∀ root ∈ roots, Nested P root
  | node :: stack =>
    P node.span ∧ node.span.start < node.span.stop ∧
      SpacedNodes node.span.start node.children (min p node.span.stop) ∧
      (∀ child ∈ node.children, Nested P child) ∧
      (∀ parent ∈ stack.head?, node.span.stop ≤ parent.span.stop) ∧
      OpenStack P node.span.start roots stack

section Sweep

variable {P : DefinitionSpan → Prop} {p : ℕ} {roots stack : List DefinitionNode}

theorem OpenStack.mono {q : ℕ} (h : OpenStack P p roots stack) (hpq : p ≤ q) :
    OpenStack P q roots stack := by
  cases stack with
  | nil => exact ⟨h.1.mono le_rfl hpq, h.2⟩
  | cons node stack =>
    obtain ⟨h1, h2, h3, h4⟩ := h
    exact ⟨h1, h2, h3.mono le_rfl (min_le_min_right _ hpq), h4⟩

/-- An open node is closed as it stands. -/
theorem OpenStack.nested {node : DefinitionNode} (h : OpenStack P p roots (node :: stack)) :
    Nested P node := by
  obtain ⟨h1, h2, h3, h4, -⟩ := h
  obtain ⟨span, children⟩ := node
  exact .mk h1 h2 (h3.mono le_rfl (min_le_right _ _)) h4

/-- Popping the innermost node and attaching it moves the sweep to its end. -/
theorem attachDefinitionNode_open {node : DefinitionNode}
    (h : OpenStack P p roots (node :: stack)) :
    OpenStack P node.span.stop (attachDefinitionNode roots stack node).1
      (attachDefinitionNode roots stack node).2 := by
  have hnode := h.nested
  obtain ⟨-, hlt, -, -, hparent, hrest⟩ := h
  cases stack with
  | nil =>
    refine ⟨hrest.1.append (.cons le_rfl hlt.le (.nil le_rfl)), ?_⟩
    exact forall_mem_append.mpr ⟨hrest.2, forall_mem_singleton.mpr hnode⟩
  | cons parent stack =>
    obtain ⟨h1, h2, h3, h4, h5, h6⟩ := hrest
    have hle : node.span.stop ≤ parent.span.stop := hparent parent rfl
    have hmin : min node.span.stop parent.span.stop = node.span.stop := min_eq_left hle
    refine ⟨h1, h2, ?_, ?_, h5, h6⟩
    · rw [DefinitionNode.span_push, DefinitionNode.children_push, hmin]
      exact h3.append (.cons (min_le_left _ _) hlt.le (.nil le_rfl))
    · exact forall_mem_append.mpr ⟨h4, forall_mem_singleton.mpr hnode⟩

/-- `closeBefore start` moves the sweep to `start`. -/
theorem closeBefore_open {start : ℕ} :
    ∀ {p : ℕ}, p ≤ start → OpenStack P p roots stack →
      OpenStack P start (closeBefore start roots stack).1 (closeBefore start roots stack).2 := by
  induction roots, stack using closeBefore.induct start with
  | case1 roots =>
    intro p hp h
    rw [closeBefore]
    exact h.mono hp
  | case2 roots node stack hge ih =>
    intro p hp h
    rw [closeBefore, if_pos hge]
    exact ih hge (attachDefinitionNode_open h)
  | case3 roots node stack hlt =>
    intro p hp h
    rw [closeBefore, if_neg hlt]
    exact h.mono hp

/-- One iteration of the sweep keeps the invariant. -/
theorem sweepSpan_open {span : DefinitionSpan} (hp : p ≤ span.start) (hP : P span)
    (hlt : span.start < span.stop) (h : OpenStack P p roots stack) :
    OpenStack P span.start (sweepSpan (roots, stack) span).1 (sweepSpan (roots, stack) span).2 := by
  have hclosed := closeBefore_open hp h
  have hempty : SpacedNodes span.start [] (min span.start span.stop) := .nil (by omega)
  unfold sweepSpan
  dsimp only
  split
  next node stack hstack =>
    rw [hstack] at hclosed
    split_ifs with hcross
    · rw [hstack]; exact hclosed
    · refine ⟨hP, hlt, hempty, by simp [DefinitionNode.children], ?_, hclosed⟩
      rintro parent ⟨⟩
      exact not_lt.mp hcross
  next hstack =>
    rw [hstack] at hclosed
    exact ⟨hP, hlt, hempty, by simp [DefinitionNode.children], by simp, hclosed⟩

theorem sweepSpans_open {n : ℕ} (hn : ∀ span, P span → span.stop ≤ n) :
    ∀ (spans : List DefinitionSpan) {p : ℕ} {roots stack : List DefinitionNode},
      spans.Pairwise (fun a b => a.start ≤ b.start) → (∀ span ∈ spans, p ≤ span.start) →
      (∀ span ∈ spans, P span ∧ span.start < span.stop) → p ≤ n → OpenStack P p roots stack →
      ∃ q ≤ n, OpenStack P q (spans.foldl sweepSpan (roots, stack)).1
        (spans.foldl sweepSpan (roots, stack)).2 := by
  intro spans
  induction spans with
  | nil => intro p roots stack _ _ _ hpn h; exact ⟨p, hpn, h⟩
  | cons span spans ih =>
    intro p roots stack hsort hp hP _ h
    obtain ⟨hfirst, hrest⟩ := pairwise_cons.mp hsort
    obtain ⟨hspan, hlt⟩ := hP span mem_cons_self
    have hstop := hn span hspan
    exact ih hrest hfirst (fun s hs => hP s (mem_cons_of_mem _ hs)) (by omega)
      (sweepSpan_open (hp span mem_cons_self) hspan hlt h)

/-- Closing the whole stack leaves closed disjoint roots. -/
theorem closeAll_spaced {n : ℕ} (hn : ∀ span, P span → span.stop ≤ n) :
    ∀ {p : ℕ}, p ≤ n → OpenStack P p roots stack →
      SpacedNodes 0 (closeAll roots stack) n ∧ ∀ root ∈ closeAll roots stack, Nested P root := by
  induction roots, stack using closeAll.induct with
  | case1 roots =>
    intro p hp h
    rw [closeAll]
    exact ⟨h.1.mono le_rfl hp, h.2⟩
  | case2 roots node stack ih =>
    intro p _ h
    rw [closeAll]
    exact ih (hn _ h.1) (attachDefinitionNode_open h)

end Sweep

/-- **The forest is crossing free.** For spans sorted by their start, every
node satisfies what the spans satisfy, children are disjoint and lie inside
their parent, and so are the roots inside `[0, n)`. -/
theorem definitionForest_spaced {P : DefinitionSpan → Prop} {n : ℕ} {spans : List DefinitionSpan}
    (hsort : spans.Pairwise (fun a b => a.start ≤ b.start))
    (hP : ∀ span ∈ spans, P span ∧ span.start < span.stop) (hn : ∀ span, P span → span.stop ≤ n) :
    SpacedNodes 0 (definitionForest spans) n ∧ ∀ root ∈ definitionForest spans, Nested P root := by
  have hempty : OpenStack P 0 ([] : List DefinitionNode) [] := ⟨.nil le_rfl, by simp⟩
  obtain ⟨q, hqn, hq⟩ := sweepSpans_open hn spans hsort (fun _ _ => Nat.zero_le _) hP
    (Nat.zero_le n) hempty
  exact closeAll_spaced hn hqn hq

/-! ## Preferred spans -/

/-- `span` is the span of a node below (or at) `node` of at most `REGION_BYTES`
bytes, every node above it being larger. -/
inductive Outermost : DefinitionNode → DefinitionSpan → Prop
  | self {span : DefinitionSpan} {children : List DefinitionNode} :
      span.stop - span.start ≤ regionBytes → Outermost (.mk span children) span
  | inside {span s : DefinitionSpan} {children : List DefinitionNode} {child : DefinitionNode} :
      ¬ span.stop - span.start ≤ regionBytes → child ∈ children → Outermost child s →
      Outermost (.mk span children) s

/-- The `RegionSpan` pushed for a preferred span. -/
def preferredRegion (span : DefinitionSpan) : RegionSpan :=
  ⟨span.start, span.stop, some span.definition⟩

theorem collectPreferredList_eq (nodes : List DefinitionNode) :
    collectPreferredList nodes = nodes.flatMap collectPreferredSpans := by
  induction nodes with
  | nil => simp [collectPreferredList]
  | cons node nodes ih => rw [collectPreferredList, flatMap_cons, ih]

variable {node : DefinitionNode}

theorem Outermost.small {span : DefinitionSpan} (h : Outermost node span) :
    span.stop - span.start ≤ regionBytes := by
  induction h with
  | self hsmall => exact hsmall
  | inside _ _ _ ih => exact ih

theorem Outermost.mem_collect {span : DefinitionSpan} (h : Outermost node span) :
    preferredRegion span ∈ collectPreferredSpans node := by
  induction h with
  | self hsmall => rw [collectPreferredSpans, if_pos hsmall]; exact mem_singleton.mpr rfl
  | inside hlarge hchild _ ih =>
    rw [collectPreferredSpans, if_neg hlarge, collectPreferredList_eq]
    exact mem_flatMap.mpr ⟨_, hchild, ih⟩

/-- A closed node yields disjoint ascending preferred spans inside it, each the
span of a node of at most `REGION_BYTES` bytes. -/
theorem Nested.collect {P : DefinitionSpan → Prop} (h : Nested P node) :
    SpacedSpans node.span.start (collectPreferredSpans node) node.span.stop ∧
      ∀ region ∈ collectPreferredSpans node, ∃ span, Outermost node span ∧ P span ∧
        span.start < span.stop ∧ region = preferredRegion span := by
  induction h with
  | @mk span children hP hlt hspaced hchildren ih =>
    rw [collectPreferredSpans, collectPreferredList_eq]
    split_ifs with hsmall
    · refine ⟨.cons le_rfl hlt.le (.nil le_rfl), ?_⟩
      intro region hregion
      exact ⟨span, .self hsmall, hP, hlt, mem_singleton.mp hregion⟩
    · refine ⟨hspaced.flatMap fun child hchild => (ih child hchild).1, ?_⟩
      intro region hregion
      obtain ⟨child, hchild, hr⟩ := mem_flatMap.mp hregion
      obtain ⟨s, hout, hs⟩ := (ih child hchild).2 region hr
      exact ⟨s, .inside hsmall hchild hout, hs⟩

/-- `definition_forest` of the valid spans of a source. -/
def sourceForest (source : Bytes) (definitions : List Extract.Definition) : List DefinitionNode :=
  definitionForest (validDefinitionSpans source definitions)

/-- An outermost node of at most `REGION_BYTES` bytes of the source's forest. -/
def Preferred (source : Bytes) (definitions : List Extract.Definition) (span : DefinitionSpan) :
    Prop :=
  ∃ root ∈ sourceForest source definitions, Outermost root span

end Trufflepig.Store
