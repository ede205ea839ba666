import Trufflepig.History.Traversal

/-!
# Reading the log of commits

* `splitAtByte_log`: the log splits into the fields of its commits and an empty rest.
* `splitWhitespace_parents`: the first name among the parents is the first parent.
* `parseI64_digits`: a time that fits is read back.
-/

namespace Trufflepig.History

open List Lib

/-! ## Texts -/

theorem fromUtf8_encodeChars (cs : List Char) : fromUtf8 (encodeChars cs) = .ok cs := by
  have hencode : ByteArray.mk (encodeChars cs).toArray = cs.utf8Encode := by
    apply ByteArray.ext
    rw [List.utf8Encode, data_toByteArray]
    rfl
  rw [fromUtf8, hencode, utf8Decode?_utf8Encode]

theorem isHexDigit_ascii : ∀ b : UInt8, isHexDigit b = true →
    b < 128 ∧ b ≠ 0 ∧ isWhitespace (Char.ofNat b.toNat) = false := by
  apply forall_byte
  decide +kernel

variable {oid : GitOid}

section

variable (h : GitOid.parse oid.text = .ok oid)
include h

theorem isHexDigit_of_canonical :
    ∀ b ∈ oid.text, isHexDigit b = true := by
  unfold GitOid.parse at h
  split_ifs at h with hvalid
  exact all_eq_true.mp hvalid.2

theorem encodeChars_oid :
    encodeChars (asciiChars oid.text) = oid.text :=
  encodeChars_asciiChars fun b hb => (isHexDigit_ascii b (isHexDigit_of_canonical h b hb)).1

theorem fromUtf8_oid :
    fromUtf8 oid.text = .ok (asciiChars oid.text) := by
  conv_lhs => rw [← encodeChars_oid h]
  exact fromUtf8_encodeChars _

theorem zero_notMem_oid : 0 ∉ oid.text :=
  fun hmem => (isHexDigit_ascii 0 (isHexDigit_of_canonical h 0 hmem)).2.1 rfl

end

/-! ## Times -/

theorem digits_all (n : ℕ) : (Nat.toDigits 10 n).all Char.isDigit = true := by
  rw [all_eq_true]
  exact fun c hc => Nat.isDigit_of_mem_toDigits (by omega) (by omega) hc

theorem toNat_digits {n : ℕ} {c : Char} (h : c ∈ Nat.toDigits 10 n) :
    48 ≤ c.toNat ∧ c.toNat ≤ 57 := by
  have hdigit := all_eq_true.mp (digits_all n) c h
  simpa [Char.isDigit, UInt32.le_iff_toNat_le] using hdigit

/-- The bytes of a number are digits. -/
theorem mem_encodeDigits {n : ℕ} {b : UInt8} (h : b ∈ encodeChars (Nat.toDigits 10 n)) :
    48 ≤ b.toNat ∧ b.toNat ≤ 57 := by
  obtain ⟨c, hc, hb⟩ := mem_flatMap.mp h
  have hrange := toNat_digits hc
  have hone : String.utf8EncodeChar c = [UInt8.ofNat c.toNat] := by
    unfold String.utf8EncodeChar
    exact if_pos (show c.toNat ≤ 127 by omega)
  rw [hone, mem_singleton] at hb
  rw [hb, UInt8.toNat_ofNat']
  omega

theorem parseI64_digits (n : ℕ) :
    parseI64 (Nat.toDigits 10 n) = if n < 2 ^ 63 then .ok (n : ℤ) else .error .invalidNumber := by
  have hdigit : ∀ c ∈ Nat.toDigits 10 n, c ≠ '-' ∧ c ≠ '+' := by
    intro c hc
    have := all_eq_true.mp (digits_all n) c hc
    constructor
    · rintro rfl
      exact absurd this (by decide)
    · rintro rfl
      exact absurd this (by decide)
  have hvalue : (if Nat.toDigits 10 n ≠ [] ∧ (Nat.toDigits 10 n).all Char.isDigit then
      some (Nat.ofDigitChars 10 (Nat.toDigits 10 n) 0) else none) = some n := by
    rw [if_pos ⟨Nat.toDigits_ne_nil, digits_all n⟩, Nat.ofDigitChars_ten_toDigits]
  unfold parseI64
  split
  · rename_i rest heq
    exact absurd rfl (hdigit '-' (heq ▸ mem_cons_self)).1
  · rename_i rest heq
    exact absurd rfl (hdigit '+' (heq ▸ mem_cons_self)).2
  · simp only [hvalue]
    show (if -2 ^ 63 ≤ (n : ℤ) ∧ (n : ℤ) < 2 ^ 63 then _ else _) = _
    by_cases hn : n < 2 ^ 63
    · rw [if_pos hn, if_pos (by omega)]
    · rw [if_neg hn, if_neg (by omega)]

/-! ## Parents -/

theorem isWhitespace_oid (h : GitOid.parse oid.text = .ok oid) :
    ∀ c ∈ asciiChars oid.text, isWhitespace c = false := by
  intro c hc
  obtain ⟨b, hb, rfl⟩ := mem_map.mp hc
  exact (isHexDigit_ascii b (isHexDigit_of_canonical h b hb)).2.2

/-- The characters of `%P`. -/
def parentsChars (commit : Commit) : List Char :=
  [' '].intercalate (commit.parents.map fun p => asciiChars p.text)

theorem encodeChars_intercalate : ∀ names : List (List Char),
    encodeChars ([' '].intercalate names) = [32].intercalate (names.map encodeChars)
  | [] => rfl
  | [name] => by simp [List.intercalate]
  | name :: name' :: names => by
    have ih := encodeChars_intercalate (name' :: names)
    have hcons : ∀ {α : Type} (sep x y : List α) (zs : List (List α)),
        sep.intercalate (x :: y :: zs) = x ++ sep ++ sep.intercalate (y :: zs) := by
      intro α sep x y zs
      simp [List.intercalate]
    rw [hcons, encodeChars_append, encodeChars_append, ih]
    simp only [map_cons, hcons]
    rfl

variable {commit : Commit}

theorem encodeChars_parents (h : ∀ p ∈ commit.parents, GitOid.parse p.text = .ok p) :
    encodeChars (parentsChars commit) = parentsText commit := by
  rw [parentsChars, encodeChars_intercalate, map_map, parentsText]
  congr 1
  exact map_congr_left fun p hp => encodeChars_oid (h p hp)

/-- The first name in `%P` is the first parent. -/
theorem splitWhitespace_parents (h : ∀ p ∈ commit.parents, GitOid.parse p.text = .ok p) :
    (splitWhitespace (parentsChars commit)).head? = commit.parents.head?.map (·.text) := by
  have hnonempty : ∀ p : GitOid, asciiChars p.text ≠ [] := by
    rintro ⟨text, hlength⟩ hnil
    have : text = [] := map_eq_nil_iff.mp hnil
    simp [this] at hlength
  unfold splitWhitespace parentsChars
  rcases hparents : commit.parents with _ | ⟨p, _ | ⟨q, rest⟩⟩
  · rfl
  · have hp := h p (by simp [hparents])
    rw [show [' '].intercalate ([p].map fun p => asciiChars p.text) = asciiChars p.text by
      simp [List.intercalate], splitOnP_eq_singleton (isWhitespace_oid hp)]
    simp [hnonempty, encodeChars_oid hp]
  · have hp := h p (by simp [hparents])
    rw [show [' '].intercalate ((p :: q :: rest).map fun p => asciiChars p.text) =
        asciiChars p.text ++ ' ' :: [' '].intercalate ((q :: rest).map fun p => asciiChars p.text) by
      simp [List.intercalate],
      splitOnP_append_cons_of_forall_mem (isWhitespace_oid hp) ' ' (by decide)]
    simp [hnonempty, encodeChars_oid hp]

/-! ## Fields -/

theorem splitAtByte_field {separator : UInt8} {field : Bytes} (h : separator ∉ field)
    (rest : Bytes) :
    splitAtByte separator (field ++ separator :: rest) = field :: splitAtByte separator rest := by
  induction field with
  | nil => simp [splitAtByte]
  | cons b field ih =>
    rw [mem_cons, not_or] at h
    rw [cons_append, splitAtByte, if_neg (Ne.symm h.1), ih h.2]

theorem splitAtByte_fields {separator : UInt8} {fields : List Bytes}
    (h : ∀ field ∈ fields, separator ∉ field) :
    splitAtByte separator (fields.flatMap (· ++ [separator])) = fields ++ [[]] := by
  induction fields with
  | nil => rfl
  | cons field fields ih =>
    rw [flatMap_cons, append_assoc, singleton_append,
      splitAtByte_field (h field mem_cons_self), ih fun f hf => h f (mem_cons_of_mem _ hf)]
    rfl

theorem mem_intercalate {α : Type} {x : α} {sep : List α} :
    ∀ {parts : List (List α)}, x ∈ sep.intercalate parts → x ∈ sep ∨ ∃ part ∈ parts, x ∈ part
  | [], h => by simp [List.intercalate] at h
  | [part], h => by
    rw [show sep.intercalate [part] = part by simp [List.intercalate]] at h
    exact Or.inr ⟨part, mem_cons_self, h⟩
  | part :: part' :: parts, h => by
    rw [show sep.intercalate (part :: part' :: parts) = part ++ sep ++ sep.intercalate (part' :: parts)
      by simp [List.intercalate], mem_append, mem_append] at h
    rcases h with (h | h) | h
    · exact Or.inr ⟨part, mem_cons_self, h⟩
    · exact Or.inl h
    · rcases mem_intercalate h with h | ⟨p, hp, h⟩
      · exact Or.inl h
      · exact Or.inr ⟨p, mem_cons_of_mem _ hp, h⟩

theorem zero_notMem_parents (h : ∀ p ∈ commit.parents, GitOid.parse p.text = .ok p) :
    0 ∉ parentsText commit := by
  intro hmem
  rcases mem_intercalate hmem with hsep | ⟨text, htext, hmem⟩
  · exact absurd hsep (by decide)
  · obtain ⟨p, hp, rfl⟩ := mem_map.mp htext
    exact zero_notMem_oid (h p hp) hmem

theorem zero_notMem_time (commit : Commit) : 0 ∉ timeText commit :=
  fun hmem => absurd (mem_encodeDigits hmem).1 (by decide)

variable {graph : CommitGraph} {oids : List GitOid}

/-- The fields of a commit of the repository. -/
def recordFields (graph : CommitGraph) (oid : GitOid) : List Bytes :=
  match graph.commit oid with
  | none => []
  | some commit => logFields oid commit

theorem canonical_parents (h : graph.commit oid = some commit) :
    ∀ p ∈ commit.parents, GitOid.parse p.text = .ok p := by
  intro p hp
  obtain ⟨c, hc⟩ := Option.isSome_iff_exists.mp (graph.parent_mem oid commit h p hp)
  exact graph.canonical p c hc

theorem zero_notMem_recordFields (oid : GitOid) :
    ∀ field ∈ recordFields graph oid, 0 ∉ field := by
  intro field hfield
  unfold recordFields at hfield
  cases hcommit : graph.commit oid with
  | none => simp [hcommit] at hfield
  | some commit =>
    simp only [hcommit, logFields, mem_cons, not_mem_nil, or_false] at hfield
    rcases hfield with rfl | rfl | rfl | rfl
    · exact zero_notMem_oid (graph.canonical oid commit hcommit)
    · exact zero_notMem_parents (canonical_parents hcommit)
    · exact zero_notMem_time commit
    · exact graph.summary_text oid commit hcommit

/-- The log splits into the fields of its commits and an empty rest. -/
theorem splitAtByte_log (graph : CommitGraph) (oids : List GitOid) :
    splitAtByte 0 (oids.flatMap (logRecord graph)) = oids.flatMap (recordFields graph) ++ [[]] := by
  have hrecord : ∀ oid, logRecord graph oid = (recordFields graph oid).flatMap (· ++ [0]) := by
    intro oid
    unfold logRecord recordFields
    cases graph.commit oid <;> rfl
  rw [funext hrecord, ← flatMap_assoc]
  apply splitAtByte_fields
  intro field hfield
  obtain ⟨oid, -, hfield⟩ := mem_flatMap.mp hfield
  exact zero_notMem_recordFields oid field hfield

theorem length_recordFields (h : ∀ oid ∈ oids, (graph.commit oid).isSome) :
    (oids.flatMap (recordFields graph)).length = oids.length * 4 := by
  induction oids with
  | nil => rfl
  | cons oid oids ih =>
    obtain ⟨commit, hcommit⟩ := Option.isSome_iff_exists.mp (h oid mem_cons_self)
    have hfour : (recordFields graph oid).length = 4 := by simp [recordFields, hcommit, logFields]
    rw [flatMap_cons, length_append, hfour, ih fun o ho => h o (mem_cons_of_mem _ ho), length_cons]
    omega

/-- The four fields at a commit's place are its own. -/
theorem drop_recordFields (h : ∀ oid ∈ oids, (graph.commit oid).isSome) (rest : List Bytes)
    {i : ℕ} (hi : oids[i]? = some oid) (hcommit : graph.commit oid = some commit) :
    ((oids.flatMap (recordFields graph) ++ rest).drop (i * 4)).take 4 = logFields oid commit := by
  induction oids generalizing i with
  | nil => simp at hi
  | cons o oids ih =>
    obtain ⟨c, hc⟩ := Option.isSome_iff_exists.mp (h o mem_cons_self)
    have hfields : recordFields graph o = logFields o c := by simp [recordFields, hc]
    rw [flatMap_cons, hfields, append_assoc]
    cases i with
    | zero =>
      obtain rfl : o = oid := by simpa using hi
      obtain rfl : c = commit := Option.some.inj (hc.symm.trans hcommit)
      rfl
    | succ i =>
      have hdrop : (logFields o c ++ (oids.flatMap (recordFields graph) ++ rest)).drop ((i + 1) * 4) =
          (oids.flatMap (recordFields graph) ++ rest).drop (i * 4) := by
        rw [show (i + 1) * 4 = (logFields o c).length + i * 4 by simp [logFields]; omega,
          drop_append]
        simp
      rw [hdrop]
      exact ih (fun o ho => h o (mem_cons_of_mem _ ho)) (by simpa using hi)

end Trufflepig.History
