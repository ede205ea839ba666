import Trufflepig.Lib.Utf8

/-!
# JSON values

Strings are their bytes. The fields of an object are a list without an order of its own.
-/

namespace Trufflepig.Lib

inductive Json where
  | null
  | bool (value : Bool)
  | num (value : ℤ)
  | str (text : Bytes)
  | arr (items : List Json)
  | obj (fields : List (String × Json))

namespace Json

/-- `value[key]`: the field of an object, `null` for any other value. -/
def get (value : Json) (key : String) : Json :=
  match value with
  | obj fields => ((fields.find? fun field => field.1 = key).map Prod.snd).getD null
  | _ => null

/-- `value[key] = field` on an object. -/
def set (value : Json) (key : String) (field : Json) : Json :=
  match value with
  | obj fields => obj ((key, field) :: fields.filter fun other => other.1 ≠ key)
  | value => value

/-- `as_array`. -/
def items? : Json → Option (List Json)
  | arr items => some items
  | _ => none

/-- `as_str`. -/
def text? : Json → Option Bytes
  | str text => some text
  | _ => none

def isObject : Json → Bool
  | obj _ => true
  | _ => false

/-- `as_u64`. -/
def nat? : Json → Option ℕ
  | num value => if 0 ≤ value then some value.toNat else none
  | _ => none

@[simp] theorem isObject_set (value : Json) (key : String) (field : Json) :
    (value.set key field).isObject = value.isObject := by
  cases value <;> rfl

theorem get_set_self {value : Json} (h : value.isObject = true) (key : String) (field : Json) :
    (value.set key field).get key = field := by
  cases value with
  | obj fields => simp [set, get]
  | _ => exact nomatch h

theorem get_set_of_ne {key other : String} (h : other ≠ key) (value field : Json) :
    (value.set key field).get other = value.get other := by
  cases value with
  | obj fields =>
    have hfind : (fields.filter fun field => field.1 ≠ key).find? (fun field => field.1 = other) =
        fields.find? fun field => field.1 = other := by
      rw [List.find?_filter]
      congr 1
      funext entry
      by_cases hentry : entry.1 = other
      · simp [hentry, h]
      · simp [hentry]
    simp only [set, get]
    rw [List.find?_cons_of_neg (by simpa using Ne.symm h), hfind]
  | _ => rfl

/-- A value or `null`. -/
def ofOption {α : Type} (encode : α → Json) : Option α → Json
  | some value => encode value
  | none => null

end Json

end Trufflepig.Lib
