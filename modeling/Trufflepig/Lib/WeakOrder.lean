import Trufflepig.Lib.Sorting

/-!
# Linear extensions of a weak order

The elements of a list are ordered by a key that several may share. An arrangement of
them is a permutation sorted by the key; elements with one key stand in any order.

* `exists_adjacent_iff`: one element can stand immediately before another iff no key
  lies strictly between theirs.
* `exists_first_iff`: an element can stand first iff its key is the least.
* `Chunks`: the runs of equal keys of a list; `Chunks.strict`: in a sorted list their
  keys increase.
-/

namespace Trufflepig.Lib

open List

variable {ι κ : Type} [LinearOrder κ] {key : ι → κ} {xs : List ι} {p c : ι}

/-- An order of `xs` that respects the key. -/
structure IsArrangement (key : ι → κ) (xs order : List ι) : Prop where
  perm : order.Perm xs
  sorted : order.Pairwise fun a b => key a ≤ key b

/-- `p` can stand immediately before `c`. -/
structure Precedes (key : ι → κ) (xs : List ι) (p c : ι) : Prop where
  before : p ∈ xs
  after : c ∈ xs
  ne : p ≠ c
  le : key p ≤ key c
  gap : ∀ i ∈ xs, ¬ (key p < key i ∧ key i < key c)

theorem sort_isArrangement (key : ι → κ) (xs : List ι) :
    IsArrangement key xs (xs.mergeSort fun a b => key a ≤ key b) :=
  ⟨mergeSort_perm xs _,
    pairwise_sortBy (r := fun a b => key a ≤ key b) (fun _ _ _ => le_trans)
      (fun a b => le_total (key a) (key b)) xs⟩

theorem IsArrangement.precedes (hnodup : xs.Nodup) {order before after : List ι}
    (h : IsArrangement key xs order) (heq : order = before ++ p :: c :: after) :
    Precedes key xs p c := by
  subst heq
  have hmem : ∀ {i}, i ∈ xs ↔ i ∈ before ++ p :: c :: after := h.perm.mem_iff.symm
  obtain ⟨-, hright, hcross⟩ := pairwise_append.mp h.sorted
  obtain ⟨hp, hright⟩ := pairwise_cons.mp hright
  obtain ⟨hc, -⟩ := pairwise_cons.mp hright
  refine ⟨hmem.mpr (by simp), hmem.mpr (by simp), ?_, hp c mem_cons_self, ?_⟩
  · have hnodup' := (nodup_append.mp (h.perm.nodup_iff.mpr hnodup)).2.1
    exact fun heq => (nodup_cons.mp hnodup').1 (heq ▸ mem_cons_self)
  · rintro i hi ⟨hlow, hhigh⟩
    rcases mem_append.mp (hmem.mp hi) with hi | hi
    · exact absurd (hcross i hi p mem_cons_self) (not_le.mpr hlow)
    · rcases mem_cons.mp hi with rfl | hi
      · exact lt_irrefl _ hlow
      · rcases mem_cons.mp hi with rfl | hi
        · exact lt_irrefl _ hhigh
        · exact absurd (hc i hi) (not_le.mpr hhigh)

/-- Where `p` can stand before `c`: the elements with keys up to that of `p` go before
the two, the others after them. -/
theorem Precedes.exists_isArrangement [DecidableEq ι] (h : Precedes key xs p c) :
    ∃ before after, IsArrangement key xs (before ++ p :: c :: after) := by
  let others := (xs.erase p).erase c
  have hothers : (p :: c :: others).Perm xs :=
    ((perm_cons_erase ((mem_erase_of_ne h.ne.symm).mpr h.after)).symm.cons p).trans
      (perm_cons_erase h.before).symm
  have hmem : ∀ {i}, i ∈ others → i ∈ xs :=
    fun hi => mem_of_mem_erase (mem_of_mem_erase hi)
  let low := (others.filter fun i => key i ≤ key p).mergeSort fun a b => key a ≤ key b
  let high := (others.filter fun i => !decide (key i ≤ key p)).mergeSort fun a b => key a ≤ key b
  have hlow : IsArrangement key _ low := sort_isArrangement key _
  have hhigh : IsArrangement key _ high := sort_isArrangement key _
  have hle : ∀ i ∈ low, key i ≤ key p := fun i hi =>
    of_decide_eq_true (mem_filter.mp (hlow.perm.mem_iff.mp hi)).2
  have hge : ∀ i ∈ high, key c ≤ key i := by
    intro i hi
    obtain ⟨hi, hnot⟩ := mem_filter.mp (hhigh.perm.mem_iff.mp hi)
    have hlt : key p < key i := not_le.mp (by simpa using hnot)
    exact not_lt.mp fun hlt' => h.gap i (hmem hi) ⟨hlt, hlt'⟩
  refine ⟨low, high, ?_, ?_⟩
  · calc (low ++ p :: c :: high).Perm (p :: (low ++ c :: high)) := perm_middle
      _ |>.Perm (p :: c :: (low ++ high)) := perm_middle.cons p
      _ |>.Perm (p :: c :: others) :=
        (((hlow.perm.append hhigh.perm).trans (filter_append_perm _ others)).cons c).cons p
      _ |>.Perm xs := hothers
  · refine pairwise_append.mpr ⟨hlow.sorted, ?_, ?_⟩
    · refine pairwise_cons.mpr ⟨?_, pairwise_cons.mpr ⟨hge, hhigh.sorted⟩⟩
      exact forall_mem_cons.mpr ⟨h.le, fun i hi => h.le.trans (hge i hi)⟩
    · intro i hi j hj
      rcases mem_cons.mp hj with rfl | hj
      · exact hle i hi
      · rcases mem_cons.mp hj with rfl | hj
        · exact (hle i hi).trans h.le
        · exact ((hle i hi).trans h.le).trans (hge j hj)

/-- Which elements can stand next to each other. -/
theorem exists_adjacent_iff [DecidableEq ι] (hnodup : xs.Nodup) :
    (∃ order, IsArrangement key xs order ∧ ∃ before after, order = before ++ p :: c :: after) ↔
      Precedes key xs p c := by
  constructor
  · rintro ⟨order, horder, before, after, heq⟩
    exact horder.precedes hnodup heq
  · intro h
    obtain ⟨before, after, horder⟩ := h.exists_isArrangement
    exact ⟨_, horder, before, after, rfl⟩

/-- Which elements can stand first. -/
theorem exists_first_iff [DecidableEq ι] :
    (∃ order, IsArrangement key xs order ∧ ∃ after, order = c :: after) ↔
      c ∈ xs ∧ ∀ i ∈ xs, key c ≤ key i := by
  constructor
  · rintro ⟨order, horder, after, rfl⟩
    refine ⟨horder.perm.mem_iff.mp mem_cons_self, fun i hi => ?_⟩
    rcases mem_cons.mp (horder.perm.mem_iff.mpr hi) with rfl | hi
    · exact le_rfl
    · exact (pairwise_cons.mp horder.sorted).1 i hi
  · rintro ⟨hc, hleast⟩
    have hrest := sort_isArrangement key (xs.erase c)
    refine ⟨_, ⟨(hrest.perm.cons c).trans (perm_cons_erase hc).symm, ?_⟩, _, rfl⟩
    refine pairwise_cons.mpr ⟨fun i hi => ?_, hrest.sorted⟩
    exact hleast i (mem_of_mem_erase (hrest.perm.mem_iff.mp hi))

/-! ## Runs of equal keys -/

/-- The list `xs` cut where the key changes. -/
inductive Chunks (key : ι → κ) : List ι → List (List ι) → Prop where
  | nil : Chunks key [] []
  | cons {first : ι} {same rest : List ι} {groups : List (List ι)}
      (hsame : ∀ i ∈ same, key i = key first) (hrest : ∀ i ∈ rest.head?, key i ≠ key first)
      (h : Chunks key rest groups) :
      Chunks key (first :: same ++ rest) ((first :: same) :: groups)

variable {groups : List (List ι)}

omit [LinearOrder κ] in
theorem Chunks.flatten (h : Chunks key xs groups) :
    groups.flatten = xs := by
  induction h with
  | nil => rfl
  | cons _ _ _ ih => rw [flatten_cons, ih]

/-- In a sorted list the keys after a run are greater. -/
theorem head_lt_of_sorted {first : ι} {same rest : List ι}
    (hsorted : (first :: same ++ rest).Pairwise fun a b => key a ≤ key b)
    (hrest : ∀ i ∈ rest.head?, key i ≠ key first) : ∀ i ∈ rest, key first < key i := by
  obtain ⟨-, hsortedRest, hcross⟩ := pairwise_append.mp hsorted
  rcases rest with _ | ⟨next, rest⟩
  · exact fun i hi => absurd hi not_mem_nil
  · have hnext : key first < key next :=
      lt_of_le_of_ne (hcross first mem_cons_self next mem_cons_self)
        (hrest next rfl).symm
    exact forall_mem_cons.mpr
      ⟨hnext, fun i hi => hnext.trans_le ((pairwise_cons.mp hsortedRest).1 i hi)⟩

omit [LinearOrder κ] in
theorem Chunks.ne_nil (h : Chunks key xs groups) :
    ∀ group ∈ groups, group ≠ [] := by
  induction h with
  | nil => exact fun _ h => absurd h not_mem_nil
  | cons _ _ _ ih =>
    exact forall_mem_cons.mpr ⟨cons_ne_nil _ _, ih⟩

omit [LinearOrder κ] in
/-- A run has one key. -/
theorem Chunks.same (h : Chunks key xs groups) :
    ∀ group ∈ groups, ∀ i ∈ group, ∀ j ∈ group, key i = key j := by
  induction h with
  | nil => exact fun _ h => absurd h not_mem_nil
  | @cons first same rest groups hsame hrest _ ih =>
    intro group hgroup
    rcases mem_cons.mp hgroup with rfl | hgroup
    · have hfirst : ∀ i ∈ first :: same, key i = key first := by
        intro i hi
        rcases mem_cons.mp hi with rfl | hi
        · rfl
        · exact hsame i hi
      exact fun i hi j hj => (hfirst i hi).trans (hfirst j hj).symm
    · exact ih group hgroup

/-- In a sorted list the keys of the runs increase. -/
theorem Chunks.strict (h : Chunks key xs groups) (hsorted : xs.Pairwise fun a b => key a ≤ key b) :
    groups.Pairwise fun g h => ∀ i ∈ g, ∀ j ∈ h, key i < key j := by
  induction h with
  | nil => exact List.Pairwise.nil
  | @cons first same rest groups hsame hrest h ih =>
    refine pairwise_cons.mpr ⟨fun group hgroup i hi j hj => ?_, ?_⟩
    · have hlt := head_lt_of_sorted hsorted hrest j (h.flatten ▸ mem_flatten_of_mem hgroup hj)
      rcases mem_cons.mp hi with rfl | hi
      · exact hlt
      · exact (hsame i hi).symm ▸ hlt
    · exact ih (pairwise_append.mp hsorted).2.1

section Runs

variable {groups : List (List ι)} (hchunks : Chunks key xs groups)
  (hsorted : xs.Pairwise fun a b => key a ≤ key b)

include hchunks hsorted

/-- The run of an element is between the runs of the smaller and of the greater
keys. -/
theorem Chunks.split (hp : p ∈ xs) :
    ∃ lower group upper, groups = lower ++ group :: upper ∧ p ∈ group ∧
      (∀ i ∈ lower.flatten, key i < key p) ∧ (∀ i ∈ group, key i = key p) ∧
      ∀ i ∈ upper.flatten, key p < key i := by
  rw [← hchunks.flatten] at hp
  obtain ⟨group, hgroup, hp⟩ := mem_flatten.mp hp
  obtain ⟨lower, upper, heq⟩ := append_of_mem hgroup
  have hstrict := hchunks.strict hsorted
  rw [heq] at hstrict
  obtain ⟨-, hupper, hlower⟩ := pairwise_append.mp hstrict
  refine ⟨lower, group, upper, heq, hp, ?_, fun i hi => hchunks.same group hgroup i hi p hp, ?_⟩
  · intro i hi
    obtain ⟨g, hg, hi⟩ := mem_flatten.mp hi
    exact hlower g hg group mem_cons_self i hi p hp
  · intro i hi
    obtain ⟨g, hg, hi⟩ := mem_flatten.mp hi
    exact (pairwise_cons.mp hupper).1 g hg p hp i hi

/-- An element stands immediately before another iff they share a run, or their runs
follow each other. -/
theorem Chunks.precedes_iff :
    Precedes key xs p c ↔ (∃ group ∈ groups, p ∈ group ∧ c ∈ group ∧ p ≠ c) ∨
      ∃ lower previous group upper, groups = lower ++ previous :: group :: upper ∧
        p ∈ previous ∧ c ∈ group := by
  have hmem : ∀ {i}, i ∈ xs ↔ i ∈ groups.flatten := by rw [hchunks.flatten]
  constructor
  · intro h
    obtain ⟨lower, group, upper, heq, hp, hlower, hgroup, hupper⟩ :=
      hchunks.split hsorted h.before
    have hc := hmem.mp h.after
    rw [heq, flatten_append, flatten_cons, mem_append, mem_append] at hc
    rcases hc with hc | hc | hc
    · exact absurd h.le (not_le.mpr (hlower c hc))
    · exact Or.inl ⟨group, heq ▸ by simp, hp, hc, h.ne⟩
    · rcases upper with _ | ⟨next, upper⟩
      · exact absurd hc not_mem_nil
      · right
        refine ⟨lower, group, next, upper, heq, hp, ?_⟩
        by_contra hnext
        -- a member of the run between would have a key between the two
        obtain ⟨i, hi⟩ := exists_mem_of_ne_nil next (hchunks.ne_nil next (heq ▸ by simp))
        have hc' : c ∈ upper.flatten := (mem_append.mp hc).resolve_left hnext
        obtain ⟨g, hg, hc'⟩ := mem_flatten.mp hc'
        have hstrict := hchunks.strict hsorted
        rw [heq] at hstrict
        have htail := (pairwise_cons.mp (pairwise_append.mp hstrict).2.1).2
        refine h.gap i (hmem.mpr (heq ▸ ?_)) ⟨hupper i ?_, ?_⟩
        · exact mem_flatten_of_mem (by simp) hi
        · exact mem_flatten_of_mem mem_cons_self hi
        · exact (pairwise_cons.mp htail).1 g hg i hi c hc'
  · rintro (⟨group, hgroup, hp, hc, hne⟩ | ⟨lower, previous, group, upper, heq, hp, hc⟩)
    · have hkey := hchunks.same group hgroup p hp c hc
      refine ⟨hmem.mpr (mem_flatten_of_mem hgroup hp),
        hmem.mpr (mem_flatten_of_mem hgroup hc), hne, hkey.le, ?_⟩
      rintro i - ⟨hlow, hhigh⟩
      exact lt_irrefl _ ((hkey ▸ hlow).trans hhigh)
    · have hstrict := hchunks.strict hsorted
      have hsame := hchunks.same
      have hflatten : groups.flatten = lower.flatten ++ (previous ++ (group ++ upper.flatten)) := by
        rw [heq, flatten_append, flatten_cons, flatten_cons]
      rw [heq] at hstrict hsame
      obtain ⟨-, hright, hcross⟩ := pairwise_append.mp hstrict
      obtain ⟨hprevious, hright⟩ := pairwise_cons.mp hright
      have hlt : key p < key c := hprevious group mem_cons_self p hp c hc
      refine ⟨hmem.mpr (by rw [hflatten]; simp [hp]), hmem.mpr (by rw [hflatten]; simp [hc]),
        fun h => absurd (h ▸ hlt) (lt_irrefl _), hlt.le, ?_⟩
      rintro i hi ⟨hlow, hhigh⟩
      rw [hmem, hflatten] at hi
      simp only [mem_append] at hi
      rcases hi with hi | hi | hi | hi
      · obtain ⟨g, hg, hi⟩ := mem_flatten.mp hi
        exact lt_asymm hlow (hcross g hg previous mem_cons_self i hi p hp)
      · exact absurd (hsame previous (by simp) i hi p hp) hlow.ne'
      · exact absurd (hsame group (by simp) i hi c hc) hhigh.ne
      · obtain ⟨g, hg, hi⟩ := mem_flatten.mp hi
        exact lt_asymm hhigh ((pairwise_cons.mp hright).1 g hg c hc i hi)

/-- The first run holds the elements with the least key. -/
theorem Chunks.first_iff :
    (c ∈ xs ∧ ∀ i ∈ xs, key c ≤ key i) ↔ ∃ group upper, groups = group :: upper ∧ c ∈ group := by
  have hmem : ∀ {i}, i ∈ xs ↔ i ∈ groups.flatten := by rw [hchunks.flatten]
  constructor
  · rintro ⟨hc, hleast⟩
    obtain ⟨lower, group, upper, heq, hc, hlower, -, -⟩ := hchunks.split hsorted hc
    rcases lower with _ | ⟨first, lower⟩
    · exact ⟨group, upper, heq, hc⟩
    · obtain ⟨i, hi⟩ := exists_mem_of_ne_nil first (hchunks.ne_nil first (heq ▸ by simp))
      have hlt := hlower i (mem_flatten_of_mem mem_cons_self hi)
      exact absurd (hleast i (hmem.mpr (heq ▸ mem_flatten_of_mem (by simp) hi))) (not_le.mpr hlt)
  · rintro ⟨group, upper, heq, hc⟩
    have hstrict := hchunks.strict hsorted
    have hsame := hchunks.same
    rw [heq] at hstrict hsame
    refine ⟨hmem.mpr (heq ▸ mem_flatten_of_mem mem_cons_self hc), fun i hi => ?_⟩
    rw [hmem, heq, flatten_cons, mem_append] at hi
    rcases hi with hi | hi
    · exact (hsame group mem_cons_self c hc i hi).le
    · obtain ⟨g, hg, hi⟩ := mem_flatten.mp hi
      exact ((pairwise_cons.mp hstrict).1 g hg c hc i hi).le

/-- A run with two members is a key that two elements share. -/
theorem Chunks.exists_group_iff :
    (∃ group ∈ groups, p ∈ group ∧ c ∈ group) ↔ p ∈ xs ∧ c ∈ xs ∧ key p = key c := by
  constructor
  · rintro ⟨group, hgroup, hp, hc⟩
    rw [← hchunks.flatten]
    exact ⟨mem_flatten_of_mem hgroup hp, mem_flatten_of_mem hgroup hc,
      hchunks.same group hgroup p hp c hc⟩
  · rintro ⟨hp, hc, hkey⟩
    obtain ⟨lower, group, upper, heq, hp, hlower, -, hupper⟩ := hchunks.split hsorted hp
    rw [← hchunks.flatten, heq, flatten_append, flatten_cons, mem_append, mem_append] at hc
    rcases hc with hc | hc | hc
    · exact absurd hkey (hlower c hc).ne'
    · exact ⟨group, heq ▸ by simp, hp, hc⟩
    · exact absurd hkey (hupper c hc).ne

end Runs

end Trufflepig.Lib
