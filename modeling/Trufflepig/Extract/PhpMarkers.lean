import Trufflepig.Extract.Extraction
import Trufflepig.Identity

/-!
# PHP markers (`extract/php_markers.rs`)

Facts of the PHP extractor travel to the resolver as relationships of a kind of their own. The
provenance of such a relationship is the marker as a text: fields between colons, with the name
of a parent in hexadecimal digits.

* `decodePayload_encodePayload`: what was written is read back.
* `decodePayload_iff`: what is read is what is written for it, up to the case of the digits.
* `marker_round_trip`: both, with the other fields of the relationship.
-/

namespace Trufflepig.Extract

open List Lib

/-- `MARKER_KIND`. -/
def markerKind : String := "__trufflepig_php_marker_v1"

inductive ClassRole where
  | ordinary | proxy | unknown
  deriving DecidableEq, Repr

inductive ParentKind where
  | ordinary | proxy | unknown
  deriving DecidableEq, Repr

inductive Visibility where
  | isPublic | isProtected | isPrivate | unknown
  deriving DecidableEq, Repr

/-- `enum Marker`. -/
inductive Marker where
  | classFact (role : ClassRole) (conditional : Bool)
  | parent (kind : ParentKind) (conditional : Bool) (resolvedName : Option String)
  | traitUse (conditional : Bool)
  | method (visibility : Visibility) (abstractMethod conditional : Bool)
  | parentCall
  deriving DecidableEq, Repr

/-- `struct DecodedMarker`. -/
structure DecodedMarker where
  source : ℤ
  target : Option ℤ
  start : ℤ
  stop : ℤ
  marker : Marker
  deriving DecidableEq

/-- `matches!(&marker, Marker::Method { .. } | Marker::ParentCall)`. -/
def Marker.hasTarget : Marker → Bool
  | .method .. | .parentCall => true
  | _ => false

/-! ## Names of the enumerations -/

/-- The value with a name. -/
def parseNamed {α : Type} (values : List α) (name : α → String) (text : List Char) : Option α :=
  values.find? fun value => (name value).toList = text

def classRoleName : ClassRole → String
  | .ordinary => "ordinary"
  | .proxy => "proxy"
  | .unknown => "unknown"

def parseClassRole : List Char → Option ClassRole :=
  parseNamed [.ordinary, .proxy, .unknown] classRoleName

def parentKindName : ParentKind → String
  | .ordinary => "ordinary"
  | .proxy => "proxy"
  | .unknown => "unknown"

def parseParentKind : List Char → Option ParentKind :=
  parseNamed [.ordinary, .proxy, .unknown] parentKindName

def visibilityName : Visibility → String
  | .isPublic => "public"
  | .isProtected => "protected"
  | .isPrivate => "private"
  | .unknown => "unknown"

def parseVisibility : List Char → Option Visibility :=
  parseNamed [.isPublic, .isProtected, .isPrivate, .unknown] visibilityName

def flagName (flag : Bool) : String := if flag then "1" else "0"

def parseFlag : List Char → Option Bool := parseNamed [false, true] flagName

/-! ## Encoding -/

/-- `push_flag`. -/
def pushFlag (payload : String) (flag : Bool) : String := payload ++ ":" ++ flagName flag

/-- `str::as_bytes`. -/
def asBytes (text : String) : Bytes := text.toByteArray.data.toList

/-- `push_hex`. -/
def pushHex (payload : String) (bytes : Bytes) : String :=
  payload ++ String.ofList (asciiChars (hexBytes bytes))

/-- `encode_payload`. -/
def encodePayload (marker : Marker) : String :=
  let payload := "php_fact_v1:"
  match marker with
  | .classFact role conditional =>
    pushFlag (payload ++ "class:" ++ classRoleName role) conditional
  | .parent kind conditional resolvedName =>
    let payload := pushFlag (payload ++ "parent:" ++ parentKindName kind) conditional ++ ":"
    match resolvedName with
    | some name => pushHex payload (asBytes name)
    | none => payload ++ "-"
  | .traitUse conditional => pushFlag (payload ++ "trait_use") conditional
  | .method visibility abstractMethod conditional =>
    pushFlag (pushFlag (payload ++ "method:" ++ visibilityName visibility) abstractMethod)
      conditional
  | .parentCall => payload ++ "parent_call"

/-- `encode`. -/
def encode (sourceDef : ℕ) (targetDef : Option ℕ) (span : ByteSpan) (marker : Marker) :
    Relationship where
  source := sourceDef
  target := targetDef
  kind := markerKind
  evidenceStart := span.start
  evidenceEnd := span.stop
  provenance := encodePayload marker

/-! ## Decoding -/

/-- `hex_digit`. -/
def hexDigit (value : UInt8) : Option ℕ :=
  if 48 ≤ value ∧ value ≤ 57 then some (value.toNat - 48)
  else if 97 ≤ value ∧ value ≤ 102 then some (value.toNat - 87)
  else if 65 ≤ value ∧ value ≤ 70 then some (value.toNat - 55)
  else none

/-- The loop of `parse_hex` over pairs of bytes. -/
def hexPairs : Bytes → Option Bytes
  | a :: b :: rest => do
    let high ← hexDigit a
    let low ← hexDigit b
    let bytes ← hexPairs rest
    return UInt8.ofNat (16 * high + low) :: bytes
  | _ => some []

/-- `parse_hex`. -/
def parseHex (value : List Char) : Option (Option String) :=
  if value = "-".toList then some none
  else if (encodeChars value).length % 2 ≠ 0 then none
  else do
    let bytes ← hexPairs (encodeChars value)
    let name ← String.fromUTF8? ⟨bytes.toArray⟩
    return some name

/-- `fields.next()?`. -/
def nextField : StateT (List (List Char)) Option (List Char) := do
  match ← get with
  | [] => failure
  | field :: fields =>
    set fields
    return field

/-- A field that is read by a parser: `parse(fields.next()?)?`. -/
def parseNext {α : Type} (parse : List Char → Option α) : StateT (List (List Char)) Option α := do
  parse (← nextField)

/-- The fields of a marker (in `decode_payload`). -/
def readMarker : StateT (List (List Char)) Option Marker := do
  let tag ← nextField
  if tag = "class".toList then
    return .classFact (← parseNext parseClassRole) (← parseNext parseFlag)
  else if tag = "parent".toList then
    return .parent (← parseNext parseParentKind) (← parseNext parseFlag) (← parseNext parseHex)
  else if tag = "trait_use".toList then return .traitUse (← parseNext parseFlag)
  else if tag = "method".toList then
    return .method (← parseNext parseVisibility) (← parseNext parseFlag) (← parseNext parseFlag)
  else if tag = "parent_call".toList then return .parentCall
  else failure

/-- `decode_payload`. -/
def decodePayload (payload : String) : Option Marker := do
  let fields ← if "php_fact_v1:".toList <+: payload.toList then
    some (payload.toList.drop "php_fact_v1:".length) else none
  let (marker, left) ← readMarker.run (fields.splitOn ':')
  if left = [] then some marker else none

/-- `decode_fields`. -/
def decodeFields (kind provenance : String) (source : ℤ) (target : Option ℤ) (start stop : ℤ) :
    Option DecodedMarker := do
  if kind ≠ markerKind ∨ source ≤ 0 ∨ start < 0 ∨ stop < start then none
  else
    let marker ← decodePayload provenance
    if target.isSome ≠ marker.hasTarget then none
    else some ⟨source, target, start, stop, marker⟩

/-! ## Fields -/

variable {text : List Char}

theorem parseNamed_eq_some {α : Type} {values : List α} {name : α → String}
    (hall : ∀ value, value ∈ values) (hnodup : (values.map name).Nodup) {value : α} :
    parseNamed values name text = some value ↔ text = (name value).toList := by
  constructor
  · intro h
    have hname := find?_some h
    exact (of_decide_eq_true hname).symm
  · rintro rfl
    cases hfind : parseNamed values name (name value).toList with
    | none =>
      have hnone := find?_eq_none.mp hfind value (hall value)
      simp at hnone
    | some other =>
      have hname := find?_some hfind
      rw [decide_eq_true_eq, String.toList_inj] at hname
      rw [inj_on_of_nodup_map hnodup (mem_of_find?_eq_some hfind) (hall value) hname]

theorem parseClassRole_eq_some {role : ClassRole} :
    parseClassRole text = some role ↔ text = (classRoleName role).toList :=
  parseNamed_eq_some (fun value => by cases value <;> decide) (by decide)

theorem parseParentKind_eq_some {kind : ParentKind} :
    parseParentKind text = some kind ↔ text = (parentKindName kind).toList :=
  parseNamed_eq_some (fun value => by cases value <;> decide) (by decide)

theorem parseVisibility_eq_some {visibility : Visibility} :
    parseVisibility text = some visibility ↔ text = (visibilityName visibility).toList :=
  parseNamed_eq_some (fun value => by cases value <;> decide) (by decide)

theorem parseFlag_eq_some {flag : Bool} :
    parseFlag text = some flag ↔ text = (flagName flag).toList :=
  parseNamed_eq_some (fun value => by cases value <;> decide) (by decide)

/-! ## Digits -/

/-- The same digit, perhaps a letter in upper case first. -/
def SameDigit (a b : UInt8) : Prop := a = b ∨ 65 ≤ a ∧ a ≤ 70 ∧ b = a + 32

theorem hexDigit_lowerHexDigit : ∀ n < 16, hexDigit (lowerHexDigit n) = some n := by decide

theorem hexDigit_spec : ∀ byte : UInt8, ∀ n ∈ hexDigit byte,
    n < 16 ∧ byte < 128 ∧ SameDigit byte (lowerHexDigit n) := by
  unfold SameDigit
  exact forall_byte (by decide +kernel)

theorem hexPairs_hexBytes (bytes : Bytes) : hexPairs (hexBytes bytes) = some bytes := by
  induction bytes with
  | nil => rfl
  | cons byte bytes ih =>
    have hbyte := byte.toNat_lt
    show (do
      let high ← hexDigit (lowerHexDigit (byte.toNat / 16))
      let low ← hexDigit (lowerHexDigit (byte.toNat % 16))
      let rest ← hexPairs (hexBytes bytes)
      return UInt8.ofNat (16 * high + low) :: rest) = _
    rw [hexDigit_lowerHexDigit _ (by omega), hexDigit_lowerHexDigit _ (by omega), ih]
    show some (UInt8.ofNat (16 * (byte.toNat / 16) + byte.toNat % 16) :: bytes) = _
    rw [Nat.div_add_mod, UInt8.ofNat_toNat]

variable {bytes : Bytes}

theorem hexPairs_spec {text : Bytes} (heven : text.length % 2 = 0)
    (h : hexPairs text = some bytes) :
    (∀ byte ∈ text, byte < 128) ∧ List.Forall₂ SameDigit text (hexBytes bytes) := by
  fun_induction hexPairs text generalizing bytes with
  | case1 a b rest ih =>
    obtain ⟨high, hhigh, h⟩ := Option.bind_eq_some_iff.mp h
    obtain ⟨low, hlow, h⟩ := Option.bind_eq_some_iff.mp h
    obtain ⟨bytes', hrest, h⟩ := Option.bind_eq_some_iff.mp h
    obtain ⟨hhigh16, hhighAscii, hhighSame⟩ := hexDigit_spec a high hhigh
    obtain ⟨hlow16, hlowAscii, hlowSame⟩ := hexDigit_spec b low hlow
    obtain ⟨hascii, hsame⟩ := ih (by simp only [length_cons] at heven; omega) hrest
    obtain rfl := Option.some.inj h
    have hbyte : (UInt8.ofNat (16 * high + low)).toNat = 16 * high + low := by
      rw [UInt8.toNat_ofNat']
      omega
    refine ⟨forall_mem_cons.mpr ⟨hhighAscii, forall_mem_cons.mpr ⟨hlowAscii, hascii⟩⟩, ?_⟩
    · show List.Forall₂ SameDigit (a :: b :: rest)
        (lowerHexDigit ((UInt8.ofNat (16 * high + low)).toNat / 16) ::
          lowerHexDigit ((UInt8.ofNat (16 * high + low)).toNat % 16) :: hexBytes bytes')
      rw [hbyte, show (16 * high + low) / 16 = high by omega,
        show (16 * high + low) % 16 = low by omega]
      exact .cons hhighSame (.cons hlowSame hsame)
  | case2 text hnot =>
    obtain rfl := Option.some.inj h
    match text, hnot, heven with
    | [], _, _ => exact ⟨fun _ h => absurd h not_mem_nil, .nil⟩
    | [a], _, heven => exact absurd heven (by simp)
    | a :: b :: rest, hnot, _ => exact absurd rfl (hnot a b rest)

/-- The same character, or one of `A` to `F` for one of `a` to `f`. -/
def SameHexChar (a b : Char) : Prop :=
  a = b ∨ ∃ letter : Fin 6, a = Char.ofNat (65 + letter) ∧ b = Char.ofNat (97 + letter)

theorem SameDigit.sameHexChar {a b : UInt8} (h : SameDigit a b) :
    SameHexChar (Char.ofNat a.toNat) (Char.ofNat b.toNat) := by
  rcases h with rfl | ⟨hlow, hhigh, rfl⟩
  · exact .inl rfl
  · have hlow' : 65 ≤ a.toNat := UInt8.le_iff_toNat_le.mp hlow
    have hhigh' : a.toNat ≤ 70 := UInt8.le_iff_toNat_le.mp hhigh
    have hadd : (a + 32).toNat = a.toNat + 32 := by
      rw [UInt8.toNat_add]
      exact Nat.mod_eq_of_lt (by show a.toNat + 32 < 256; omega)
    refine .inr ⟨⟨a.toNat - 65, by omega⟩, ?_, ?_⟩
    · show _ = Char.ofNat (65 + (a.toNat - 65))
      rw [Nat.add_sub_cancel' hlow']
    · show Char.ofNat (a + 32).toNat = Char.ofNat (97 + (a.toNat - 65))
      rw [hadd, show 97 + (a.toNat - 65) = a.toNat + 32 by omega]

/-- A character that is the same as a digit is an ASCII character of the same value. -/
theorem SameHexChar.digit {a : Char} {b : UInt8} (h : SameHexChar a (Char.ofNat b.toNat))
    (hb : b < 128) : ∃ x : UInt8, x < 128 ∧ a = Char.ofNat x.toNat ∧ hexDigit x = hexDigit b := by
  rcases h with h | ⟨letter, hupper, hlower⟩
  · exact ⟨b, hb, h, rfl⟩
  · have hbyte : ∀ b : UInt8, b < 128 → ∀ letter : Fin 6,
        Char.ofNat b.toNat = Char.ofNat (97 + letter) → hexDigit b = some (10 + letter.val) := by
      apply forall_byte
      decide +kernel
    have hletter : ∀ letter : Fin 6, UInt8.ofNat (65 + letter) < 128 ∧
        Char.ofNat (65 + letter) = Char.ofNat (UInt8.ofNat (65 + letter)).toNat ∧
          hexDigit (UInt8.ofNat (65 + letter)) = some (10 + letter.val) := by decide +kernel
    obtain ⟨hascii, hchar, hvalue⟩ := hletter letter
    exact ⟨_, hascii, hupper.trans hchar, hvalue.trans (hbyte b hb letter hlower).symm⟩

theorem SameHexChar.colon {b : Char} (h : SameHexChar ':' b) : b = ':' := by
  rcases h with h | ⟨letter, hupper, -⟩
  · exact h.symm
  · exact absurd hupper ((by decide : ∀ letter : Fin 6, ':' ≠ Char.ofNat (65 + letter)) letter)

theorem colon_notMem_of_same {field : List Char} (h : List.Forall₂ SameHexChar text field)
    (hfield : ':' ∉ field) : ':' ∉ text := by
  induction h with
  | nil => exact not_mem_nil
  | cons hfirst _ ih =>
    rw [mem_cons, not_or] at hfield ⊢
    refine ⟨?_, ih hfield.2⟩
    rintro rfl
    exact hfield.1 hfirst.colon.symm

theorem digits_of_same {digits : Bytes} (hascii : ∀ b ∈ digits, b < 128)
    (h : List.Forall₂ SameHexChar text (asciiChars digits)) :
    ∃ bytes : Bytes, (∀ b ∈ bytes, b < 128) ∧ text = asciiChars bytes ∧
      List.Forall₂ (fun x y => hexDigit x = hexDigit y) bytes digits := by
  induction digits generalizing text with
  | nil =>
    obtain rfl := forall₂_nil_right_iff.mp h
    exact ⟨[], by simp, rfl, .nil⟩
  | cons digit digits ih =>
    obtain ⟨c, text', hc, htext, rfl⟩ := forall₂_cons_right_iff.mp h
    obtain ⟨x, hx, rfl, hdigit⟩ := hc.digit (hascii digit mem_cons_self)
    obtain ⟨bytes, hbytes, rfl, hsame⟩ := ih (forall_mem_cons.mp hascii).2 htext
    exact ⟨x :: bytes, forall_mem_cons.mpr ⟨hx, hbytes⟩, rfl, .cons hdigit hsame⟩

theorem hexPairs_congr {xs ys : Bytes}
    (h : List.Forall₂ (fun x y => hexDigit x = hexDigit y) xs ys) : hexPairs xs = hexPairs ys := by
  fun_induction hexPairs xs generalizing ys with
  | case1 a b rest ih =>
    obtain ⟨a', ys', ha, htail, rfl⟩ := forall₂_cons_left_iff.mp h
    obtain ⟨b', ys'', hb, hrest, rfl⟩ := forall₂_cons_left_iff.mp htail
    rw [hexPairs, ha, hb, ih hrest]
  | case2 xs hnot =>
    match xs, hnot, h with
    | [], _, .nil => rfl
    | [_], _, .cons _ .nil => rfl
    | a :: b :: rest, hnot, _ => exact absurd rfl (hnot a b rest)

theorem lowerHexDigit_ascii : ∀ n < 16, lowerHexDigit n < 128 ∧
    Char.ofNat (lowerHexDigit n).toNat ≠ ':' := by
  decide

theorem mem_hexBytes {byte : UInt8} (h : byte ∈ hexBytes bytes) :
    ∃ n < 16, byte = lowerHexDigit n := by
  obtain ⟨b, -, hb⟩ := mem_flatMap.mp h
  have hlt := b.toNat_lt
  simp only [mem_cons, not_mem_nil, or_false] at hb
  rcases hb with rfl | rfl
  · exact ⟨b.toNat / 16, by omega, rfl⟩
  · exact ⟨b.toNat % 16, by omega, rfl⟩

theorem hexBytes_ascii (bytes : Bytes) : ∀ b ∈ hexBytes bytes, b < 128 := by
  intro b hb
  obtain ⟨n, hn, rfl⟩ := mem_hexBytes hb
  exact (lowerHexDigit_ascii n hn).1

/-- What is written for a name. -/
def hexField (name : Option String) : List Char :=
  match name with
  | some name => asciiChars (hexBytes (asBytes name))
  | none => "-".toList

theorem colon_notMem_hexField (name : Option String) : ':' ∉ hexField name := by
  cases name with
  | none => decide
  | some name =>
    intro h
    obtain ⟨byte, hbyte, hcolon⟩ := mem_map.mp h
    obtain ⟨n, hn, rfl⟩ := mem_hexBytes hbyte
    exact (lowerHexDigit_ascii n hn).2 hcolon

theorem fromUTF8?_asBytes (name : String) :
    String.fromUTF8? ⟨(asBytes name).toArray⟩ = some name := by
  have hbytes : (⟨(asBytes name).toArray⟩ : ByteArray) = name.toByteArray := by
    rw [asBytes, Array.toArray_toList]
  rw [hbytes, String.fromUTF8?, dif_pos name.isValidUTF8]
  rfl

theorem asBytes_of_fromUTF8? {name : String} (h : String.fromUTF8? ⟨bytes.toArray⟩ = some name) :
    asBytes name = bytes := by
  rw [String.fromUTF8?] at h
  split_ifs at h
  rw [← Option.some.inj h]
  rfl

variable {name : Option String} {value : List Char}

theorem same_of_parseHex (h : parseHex value = some name) :
    List.Forall₂ SameHexChar value (hexField name) := by
  rw [parseHex] at h
  split_ifs at h with hdash heven
  · obtain rfl := Option.some.inj h
    rw [hdash]
    exact forall₂_same.mpr fun c _ => .inl rfl
  · obtain ⟨bytes, hpairs, h⟩ := Option.bind_eq_some_iff.mp h
    obtain ⟨text, htext, h⟩ := Option.bind_eq_some_iff.mp h
    obtain rfl := Option.some.inj h
    obtain ⟨hascii, hsame⟩ := hexPairs_spec (by omega) hpairs
    rw [hexField, asBytes_of_fromUTF8? htext, ← asciiChars_encodeChars hascii]
    rw [asciiChars, asciiChars, forall₂_map_left_iff, forall₂_map_right_iff]
    exact hsame.imp fun x y hxy => hxy.sameHexChar

theorem parseHex_of_same (h : List.Forall₂ SameHexChar value (hexField name)) :
    parseHex value = some name := by
  cases name with
  | none =>
    obtain ⟨c, rest, hc, hrest, rfl⟩ := forall₂_cons_right_iff.mp h
    obtain rfl := forall₂_nil_right_iff.mp hrest
    rcases hc with rfl | ⟨letter, -, hlower⟩
    · rfl
    · exact absurd hlower ((by decide : ∀ letter : Fin 6, '-' ≠ Char.ofNat (97 + letter)) letter)
  | some name =>
    obtain ⟨bytes, hascii, rfl, hsame⟩ := digits_of_same (hexBytes_ascii _) h
    have hlength : bytes.length = 2 * (asBytes name).length := by
      rw [hsame.length_eq, length_hexBytes]
    have hdash : asciiChars bytes ≠ "-".toList := by
      intro heq
      have hone := congrArg List.length heq
      rw [asciiChars, length_map, hlength] at hone
      exact absurd hone (by simp only [String.reduceToList, length_cons, length_nil]; omega)
    rw [parseHex, if_neg hdash, encodeChars_asciiChars hascii, hlength, if_neg (by omega),
      hexPairs_congr hsame, hexPairs_hexBytes]
    show (String.fromUTF8? ⟨(asBytes name).toArray⟩ >>= fun name => some (some name)) = _
    rw [fromUTF8?_asBytes]
    rfl

theorem parseHex_iff :
    parseHex value = some name ↔ List.Forall₂ SameHexChar value (hexField name) :=
  ⟨same_of_parseHex, parseHex_of_same⟩

/-! ## Payloads -/

/-- The fields of a marker as they are written. -/
def markerFields : Marker → List (List Char)
  | .classFact role conditional =>
    ["class".toList, (classRoleName role).toList, (flagName conditional).toList]
  | .parent kind conditional name =>
    ["parent".toList, (parentKindName kind).toList, (flagName conditional).toList, hexField name]
  | .traitUse conditional => ["trait_use".toList, (flagName conditional).toList]
  | .method visibility abstractMethod conditional =>
    ["method".toList, (visibilityName visibility).toList, (flagName abstractMethod).toList,
      (flagName conditional).toList]
  | .parentCall => ["parent_call".toList]

theorem encodePayload_eq (marker : Marker) : (encodePayload marker).toList =
      "php_fact_v1:".toList ++ [':'].intercalate (markerFields marker) := by
  cases marker with
  | parent kind conditional name =>
    cases name <;> simp [encodePayload, pushFlag, pushHex, markerFields, hexField,
      List.intercalate, List.intersperse]
  | classFact | traitUse | method | parentCall =>
    simp [encodePayload, pushFlag, markerFields, List.intercalate, List.intersperse]

theorem colon_notMem_markerFields (marker : Marker) :
    ∀ field ∈ markerFields marker, ':' ∉ field := by
  have hrole : ∀ role, ':' ∉ (classRoleName role).toList := by
    intro role
    cases role <;> decide
  have hkind : ∀ kind, ':' ∉ (parentKindName kind).toList := by
    intro kind
    cases kind <;> decide
  have hvisibility : ∀ visibility, ':' ∉ (visibilityName visibility).toList := by
    intro visibility
    cases visibility <;> decide
  have hflag : ∀ flag, ':' ∉ (flagName flag).toList := by decide
  cases marker <;>
    simp [markerFields, hrole, hkind, hvisibility, hflag, colon_notMem_hexField]

theorem splitOn_payload (marker : Marker) :
    ([':'].intercalate (markerFields marker)).splitOn ':' = markerFields marker := by
  refine splitOn_intercalate ':' (colon_notMem_markerFields marker) ?_
  cases marker <;> exact cons_ne_nil _ _

/-! ## Reading fields -/

variable {fields left : List (List Char)}

theorem nextField_run {field : List Char} :
    nextField.run fields = some (field, left) ↔ fields = field :: left := by
  cases fields with
  | nil => exact ⟨fun h => (nomatch h), fun h => (nomatch h)⟩
  | cons first rest =>
    show some (first, rest) = some (field, left) ↔ first :: rest = field :: left
    rw [Option.some.injEq, Prod.mk.injEq, List.cons.injEq]

theorem bind_run {α β : Type} {x : StateT (List (List Char)) Option α}
    {f : α → StateT (List (List Char)) Option β} {value : β} :
    (x >>= f).run fields = some (value, left) ↔
      ∃ a mid, x.run fields = some (a, mid) ∧ (f a).run mid = some (value, left) := by
  show (x.run fields).bind (fun p => (f p.1).run p.2) = some (value, left) ↔ _
  rw [Option.bind_eq_some_iff]
  exact ⟨fun ⟨p, hx, hf⟩ => ⟨p.1, p.2, hx, hf⟩, fun ⟨a, mid, hx, hf⟩ => ⟨(a, mid), hx, hf⟩⟩

theorem parseNext_bind {α β : Type} {parse : List Char → Option α} {field : List Char} {value : α}
    (h : parse field = some value) (f : α → StateT (List (List Char)) Option β) :
    (parseNext parse >>= f).run (field :: left) = (f value).run left := by
  show ((parse field).bind fun value => some (value, left)).bind (fun p => (f p.1).run p.2) = _
  rw [h]
  rfl

theorem parseNext_bind_run {α β : Type} {parse : List Char → Option α} {value : β}
    {f : α → StateT (List (List Char)) Option β} :
    (parseNext parse >>= f).run fields = some (value, left) ↔
      ∃ field rest a, fields = field :: rest ∧ parse field = some a ∧
        (f a).run rest = some (value, left) := by
  cases fields with
  | nil => exact ⟨fun h => (nomatch h), fun ⟨_, _, _, h, _⟩ => (nomatch h)⟩
  | cons first rest =>
    cases hparse : parse first with
    | none =>
      show ((parse first).bind fun a => some (a, rest)).bind (fun p => (f p.1).run p.2) = _ ↔ _
      simp [hparse]
    | some a =>
      rw [parseNext_bind hparse]
      simp [hparse]

theorem pure_run {α : Type} {a value : α} :
    (pure a : StateT (List (List Char)) Option α).run fields = some (value, left) ↔
      a = value ∧ fields = left := by
  show some (a, fields) = some (value, left) ↔ _
  rw [Option.some.injEq, Prod.mk.injEq]

/-- Which fields are read as a marker: those written for it, with any text for the name that is
read as the name. -/
inductive Reads : List (List Char) → Marker → Prop where
  | parent (kind : ParentKind) (conditional : Bool) {hex : List Char} {name : Option String}
      (h : parseHex hex = some name) :
    Reads ["parent".toList, (parentKindName kind).toList, (flagName conditional).toList, hex]
      (.parent kind conditional name)
  | other (marker : Marker) (h : ∀ kind conditional name, marker ≠ .parent kind conditional name) :
    Reads (markerFields marker) marker

variable {marker : Marker}

theorem reads_of_run (h : readMarker.run fields = some (marker, left)) :
    ∃ read, fields = read ++ left ∧ Reads read marker := by
  obtain ⟨tag, rest, htag, h⟩ := bind_run.mp h
  rw [nextField_run] at htag
  rw [htag]
  split_ifs at h with hclass hparent htrait hmethod hcall
  · obtain ⟨_, _, role, rfl, hrole, h⟩ := parseNext_bind_run.mp h
    obtain ⟨_, _, flag, rfl, hflag, h⟩ := parseNext_bind_run.mp h
    obtain ⟨rfl, rfl⟩ := pure_run.mp h
    rw [parseClassRole_eq_some] at hrole
    rw [parseFlag_eq_some] at hflag
    exact ⟨_, by rw [hclass, hrole, hflag]; rfl, .other (.classFact role flag) (by simp)⟩
  · obtain ⟨_, _, kind, rfl, hkind, h⟩ := parseNext_bind_run.mp h
    obtain ⟨_, _, flag, rfl, hflag, h⟩ := parseNext_bind_run.mp h
    obtain ⟨_, _, name, rfl, hname, h⟩ := parseNext_bind_run.mp h
    obtain ⟨rfl, rfl⟩ := pure_run.mp h
    rw [parseParentKind_eq_some] at hkind
    rw [parseFlag_eq_some] at hflag
    exact ⟨_, by rw [hparent, hkind, hflag]; rfl, .parent kind flag hname⟩
  · obtain ⟨_, _, flag, rfl, hflag, h⟩ := parseNext_bind_run.mp h
    obtain ⟨rfl, rfl⟩ := pure_run.mp h
    rw [parseFlag_eq_some] at hflag
    exact ⟨_, by rw [htrait, hflag]; rfl, .other (.traitUse flag) (by simp)⟩
  · obtain ⟨_, _, visibility, rfl, hvisibility, h⟩ := parseNext_bind_run.mp h
    obtain ⟨_, _, isAbstract, rfl, habstract, h⟩ := parseNext_bind_run.mp h
    obtain ⟨_, _, flag, rfl, hflag, h⟩ := parseNext_bind_run.mp h
    obtain ⟨rfl, rfl⟩ := pure_run.mp h
    rw [parseVisibility_eq_some] at hvisibility
    rw [parseFlag_eq_some] at habstract hflag
    exact ⟨_, by rw [hmethod, hvisibility, habstract, hflag]; rfl,
      .other (.method visibility isAbstract flag) (by simp)⟩
  · obtain ⟨rfl, rfl⟩ := pure_run.mp h
    exact ⟨_, by rw [hcall]; rfl, .other .parentCall (by simp)⟩
  · exact nomatch h

theorem Reads.run (h : Reads fields marker) :
    readMarker.run fields = some (marker, []) := by
  have hflag : ∀ flag, parseFlag (flagName flag).toList = some flag :=
    fun flag => parseFlag_eq_some.mpr rfl
  refine bind_run.mpr ?_
  cases h with
  | parent kind conditional h =>
    refine ⟨_, _, nextField_run.mpr rfl, ?_⟩
    rw [if_neg (by decide), if_pos rfl, parseNext_bind (parseParentKind_eq_some.mpr rfl),
      parseNext_bind (hflag conditional), parseNext_bind h]
    rfl
  | other marker h =>
    cases marker with
    | parent kind conditional name => exact absurd rfl (h kind conditional name)
    | classFact role conditional =>
      refine ⟨_, _, nextField_run.mpr rfl, ?_⟩
      rw [if_pos rfl, parseNext_bind (parseClassRole_eq_some.mpr rfl),
        parseNext_bind (hflag conditional)]
      rfl
    | traitUse conditional =>
      refine ⟨_, _, nextField_run.mpr rfl, ?_⟩
      rw [if_neg (by decide), if_neg (by decide), if_pos rfl, parseNext_bind (hflag conditional)]
      rfl
    | method visibility abstractMethod conditional =>
      refine ⟨_, _, nextField_run.mpr rfl, ?_⟩
      rw [if_neg (by decide), if_neg (by decide), if_neg (by decide), if_pos rfl,
        parseNext_bind (parseVisibility_eq_some.mpr rfl), parseNext_bind (hflag abstractMethod),
        parseNext_bind (hflag conditional)]
      rfl
    | parentCall =>
      refine ⟨_, _, nextField_run.mpr rfl, ?_⟩
      rw [if_neg (by decide), if_neg (by decide), if_neg (by decide), if_neg (by decide),
        if_pos rfl]
      rfl

variable {payload : String}

theorem decodePayload_iff_reads :
    decodePayload payload = some marker ↔
      ∃ fields, payload.toList = "php_fact_v1:".toList ++ fields ∧
        Reads (fields.splitOn ':') marker := by
  rw [decodePayload]
  constructor
  · intro h
    split_ifs at h with hstart
    · obtain ⟨rest, hrest⟩ := hstart
      change (readMarker.run ((payload.toList.drop "php_fact_v1:".length).splitOn ':')).bind _ =
        some marker at h
      obtain ⟨⟨found, left⟩, hread, h⟩ := Option.bind_eq_some_iff.mp h
      dsimp only at h
      split_ifs at h with hleft
      obtain rfl := Option.some.inj h
      obtain ⟨read, hsplit, hreads⟩ := reads_of_run hread
      have hdrop : payload.toList.drop "php_fact_v1:".length = rest := by
        rw [← hrest]
        exact drop_left ..
      rw [hleft, append_nil, hdrop] at hsplit
      refine ⟨rest, hrest.symm, ?_⟩
      rw [hsplit]
      exact hreads
    · exact nomatch h
  · rintro ⟨fields, hpayload, hreads⟩
    have hdrop : payload.toList.drop "php_fact_v1:".length = fields := by
      rw [hpayload]
      exact drop_left ..
    rw [if_pos ⟨fields, hpayload.symm⟩, hdrop]
    show (readMarker.run (fields.splitOn ':')).bind _ = _
    rw [hreads.run]
    rfl

/-! ## The text of a marker -/

/-- The text of a marker, perhaps with other cases of the digits of a name. -/
def SamePayload (payload : String) : Marker → Prop
  | .parent kind conditional name =>
    ∃ hex, payload =
        pushFlag ("php_fact_v1:" ++ "parent:" ++ parentKindName kind) conditional ++ ":" ++
          String.ofList hex ∧
      List.Forall₂ SameHexChar hex (hexField name)
  | marker => payload = encodePayload marker

theorem SamePayload.of_not_parent
    (h : ∀ kind conditional name, marker ≠ .parent kind conditional name) :
    SamePayload payload marker ↔ payload = encodePayload marker := by
  cases marker with
  | parent kind conditional name => exact absurd rfl (h kind conditional name)
  | classFact | traitUse | method | parentCall => exact Iff.rfl

theorem samePayload_encodePayload (marker : Marker) :
    SamePayload (encodePayload marker) marker := by
  cases marker with
  | parent kind conditional name =>
    refine ⟨hexField name, ?_, forall₂_same.mpr fun c _ => .inl rfl⟩
    cases name <;> rfl
  | classFact | traitUse | method | parentCall => rfl

theorem parent_payload_eq (kind : ParentKind) (conditional : Bool) (hex : List Char) :
    (pushFlag ("php_fact_v1:" ++ "parent:" ++ parentKindName kind) conditional ++ ":" ++
        String.ofList hex).toList =
      "php_fact_v1:".toList ++ [':'].intercalate
        ["parent".toList, (parentKindName kind).toList, (flagName conditional).toList, hex] := by
  simp [pushFlag, List.intercalate, List.intersperse]

/-- Exactly the texts of a marker are read as the marker. -/
theorem decodePayload_iff :
    decodePayload payload = some marker ↔ SamePayload payload marker := by
  rw [decodePayload_iff_reads]
  constructor
  · rintro ⟨fields, hpayload, hreads⟩
    have hfields : [':'].intercalate (fields.splitOn ':') = fields := intercalate_splitOn ':'
    rw [← hfields] at hpayload
    generalize fields.splitOn ':' = split at hpayload hreads
    cases hreads with
    | parent kind conditional h =>
      refine ⟨_, ?_, parseHex_iff.mp h⟩
      rw [← String.toList_inj, hpayload, parent_payload_eq]
    | other marker h =>
      rw [SamePayload.of_not_parent h, ← String.toList_inj, hpayload, encodePayload_eq]
  · intro h
    cases marker with
    | parent kind conditional name =>
      obtain ⟨hex, rfl, hhex⟩ := h
      refine ⟨_, parent_payload_eq kind conditional hex, ?_⟩
      rw [splitOn_intercalate ':' ?_ (cons_ne_nil _ _)]
      · exact .parent kind conditional (parseHex_iff.mpr hhex)
      · have hfields := colon_notMem_markerFields (.parent kind conditional name)
        intro field hfield
        rcases mem_append.mp (show field ∈ [_, _, _] ++ [hex] from hfield) with hfixed | hlast
        · exact hfields field (mem_append_left [hexField name] hfixed)
        · rw [mem_singleton.mp hlast]
          exact colon_notMem_of_same hhex (colon_notMem_hexField name)
    | classFact | traitUse | method | parentCall =>
      obtain rfl : payload = _ := h
      refine ⟨_, encodePayload_eq _, ?_⟩
      rw [splitOn_payload]
      exact .other _ (by simp)

theorem decodePayload_encodePayload (marker : Marker) :
    decodePayload (encodePayload marker) = some marker :=
  decodePayload_iff.mpr (samePayload_encodePayload marker)

theorem encodePayload_injective : Function.Injective encodePayload := by
  intro a b hab
  have ha := decodePayload_encodePayload a
  rw [hab, decodePayload_encodePayload] at ha
  exact (Option.some.inj ha).symm

/-! ## Relationships -/

/-- `as i64` on a `usize`. -/
def asI64 (n : ℕ) : ℤ := (BitVec.ofNat 64 n).toInt

theorem asI64_of_lt {n : ℕ} (h : n < 2 ^ 63) : asI64 n = n := by
  rw [asI64, BitVec.toInt_ofNat']
  exact Int.bmod_eq_of_le (by omega) (by omega)

/-- A marker comes back from the fields of its relationship with the ids of its definitions; two
markers have two texts; and exactly the texts of a marker, up to the case of the digits of a
name, are read as the marker. -/
theorem marker_round_trip :
    (∀ (marker : Marker) (sourceDef : ℕ) (targetDef : Option ℕ) (span : ByteSpan) (source : ℤ)
      (target : Option ℤ), targetDef.isSome = marker.hasTarget → target.isSome = targetDef.isSome →
      0 < source → span.start ≤ span.stop → span.stop < 2 ^ 63 →
      decodeFields (encode sourceDef targetDef span marker).kind
        (encode sourceDef targetDef span marker).provenance source target
        (asI64 (encode sourceDef targetDef span marker).evidenceStart)
        (asI64 (encode sourceDef targetDef span marker).evidenceEnd) =
          some ⟨source, target, span.start, span.stop, marker⟩) ∧
    Function.Injective encodePayload ∧
    (∀ (payload : String) (marker : Marker),
      decodePayload payload = some marker ↔ SamePayload payload marker) := by
  refine ⟨?_, encodePayload_injective, fun payload marker => decodePayload_iff⟩
  intro marker sourceDef targetDef span source target htargetDef htarget hsource hspan hstop
  show decodeFields markerKind (encodePayload marker) source target (asI64 span.start)
    (asI64 span.stop) = _
  rw [asI64_of_lt hstop, asI64_of_lt (by omega), decodeFields,
    if_neg (by simp only [ne_eq, not_true_eq_false, false_or]; omega), decodePayload_encodePayload]
  show (if target.isSome ≠ marker.hasTarget then none else _) = _
  rw [if_neg (by rw [htarget, htargetDef]; exact fun h => h rfl)]

/-- The proxy parent of a class. -/
theorem marker_round_trip_parent :
    decodeFields markerKind (encodePayload (.parent .proxy false (some "A\\B"))) 7 none 3 9 =
      some ⟨7, none, 3, 9, .parent .proxy false (some "A\\B")⟩ :=
  marker_round_trip.1 (.parent .proxy false (some "A\\B")) 0 none ⟨3, 9⟩ 7 none rfl rfl (by decide)
    (by decide) (by decide)

end Trufflepig.Extract
