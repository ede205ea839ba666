import Trufflepig.Lib.Encoding

/-!
# Unambiguous concatenation

Texts written one after the other, without separators, can be told apart when
no text is a prefix of another, or when what follows a text is marked: it has a
known byte at a known offset, where a longer text has another.

* `append_ne_of_diverges`: texts that differ at a common position.
* `append_ne_of_mark`: a text against a longer one, the first followed by a mark.
* `text_append_inj`: a family of texts that are pairwise `Separated` can be read
  off the front of a byte string.
-/

namespace Trufflepig.Lib

variable {σ : Type}

/-- The texts differ at a position that both have. -/
def Diverges (a b : Bytes) : Bool := (a.zip b).any fun p => p.1 != p.2

/-- The byte at offset `k` is `z`. -/
def Marked (k : ℕ) (z : UInt8) (x : Bytes) : Prop := x[k]? = some z

variable {a b : Bytes}

theorem append_ne_of_diverges (h : Diverges a b) (x y : Bytes) :
    a ++ x ≠ b ++ y := by
  induction a generalizing b with
  | nil => simp [Diverges] at h
  | cons c a ih =>
    cases b with
    | nil => simp [Diverges] at h
    | cons d b =>
      intro heq
      rw [List.cons_append, List.cons_append, List.cons.injEq] at heq
      apply ih ?_ heq.2
      simpa [Diverges, heq.1] using h

variable {k : ℕ} {z : UInt8} {x : Bytes}

theorem append_ne_of_mark {c : UInt8} (hx : Marked k z x) (hb : b[a.length + k]? = some c)
    (hc : c ≠ z) (y : Bytes) : a ++ x ≠ b ++ y := by
  intro heq
  have hleft : (a ++ x)[a.length + k]? = some z := by
    rw [List.getElem?_append_right (by omega), Nat.add_sub_cancel_left]
    exact hx
  rw [heq, List.getElem?_append_left (List.getElem?_eq_some_iff.mp hb).1, hb] at hleft
  exact hc (Option.some.inj hleft)

/-- The texts diverge, or the longer one lacks the mark that follows the other. -/
def Separated (k : ℕ) (z : UInt8) (a b : Bytes) : Bool :=
  Diverges a b || b[a.length + k]?.any (· != z) || a[b.length + k]?.any (· != z)

theorem append_ne_of_separated {y : Bytes} (h : Separated k z a b) (hx : Marked k z x)
    (hy : Marked k z y) : a ++ x ≠ b ++ y := by
  simp only [Separated, Bool.or_eq_true, Option.any_eq_true, bne_iff_ne] at h
  rcases h with (h | ⟨c, hb, hc⟩) | ⟨c, ha, hc⟩
  · exact append_ne_of_diverges h x y
  · exact append_ne_of_mark hx hb hc y
  · exact (append_ne_of_mark hy ha hc x).symm

theorem text_append_inj {text : σ → Bytes} (hsep : ∀ s t, s ≠ t → Separated k z (text s) (text t))
    {s t : σ} {y : Bytes} (hx : Marked k z x) (hy : Marked k z y) (h : text s ++ x = text t ++ y) :
    s = t ∧ x = y := by
  have hst : s = t := by
    by_contra hne
    exact append_ne_of_separated (hsep s t hne) hx hy h
  subst hst
  exact ⟨rfl, List.append_cancel_left h⟩

theorem marked_leBytes {i n : ℕ} (hi : i < k) (hn : n < 256 ^ i) (y : Bytes) :
    Marked i 0 (leBytes k n ++ y) := by
  rw [Marked, List.getElem?_append_left (by rw [length_leBytes]; exact hi), getElem?_leBytes hi,
    Nat.div_eq_of_lt hn]
  rfl

end Trufflepig.Lib
