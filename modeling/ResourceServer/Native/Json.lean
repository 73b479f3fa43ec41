import Mathlib.Tactic.Common

/-!
# JSON values

The part of `nlohmann::json` the upload handler uses: a value and its type,
`operator[]`, the conversions to `std::string`, `std::size_t` and `bool`, and the
exceptions these and the handler's other calls throw.
-/

namespace ResourceServer

/-- The exceptions that can leave the body of the upload handler. -/
inductive Exn
  /-- `json::detail::parse_error`. -/
  | parseError
  /-- `json::detail::type_error`. -/
  | typeError
  /-- `std::filesystem::filesystem_error`. -/
  | filesystemError
  /-- `std::bad_optional_access`. -/
  | badOptionalAccess
  /-- `std::length_error`. -/
  | lengthError
  deriving DecidableEq, Repr

/-- A JSON value, by its `value_t`. -/
inductive Json
  | null
  | boolean (b : Bool)
  | numberInteger (n : BitVec 64)
  | numberUnsigned (n : BitVec 64)
  /-- A floating-point number, of which only the conversion to `std::size_t` is read. -/
  | numberFloat (toSize : BitVec 64)
  | string (s : String)
  | array (items : List Json)
  | object (fields : List (String × Json))

namespace Json

/-- `is_null ()`. -/
def isNull : Json → Bool
  | .null => true
  | _ => false

/-- `is_object ()`. -/
def isObject : Json → Bool
  | .object _ => true
  | _ => false

/-- Only null is null. -/
theorem eq_null_of_isNull {root : Json} (h : root.isNull = true) : root = .null := by
  cases root with
  | null => rfl
  | object fields | boolean b | numberInteger n | numberUnsigned n | numberFloat n | string s
  | array items => contradiction

/-- The field of an object, if it has one. -/
def field? : Json → String → Option Json
  | .object fields, key => fields.lookup key
  | _, _ => none

/-- `operator[]` for reading: a missing key gives a null, and a null turns into an object. -/
def get (root : Json) (key : String) : Except Exn Json :=
  if root.isObject || root.isNull then .ok ((root.field? key).getD .null) else .error .typeError

/-- `operator[]` for assignment, on an object or a null. -/
def set (root : Json) (key : String) (value : Json) : Json :=
  match root with
  | .object fields => .object (fields.filter (fun f => f.1 != key) ++ [(key, value)])
  | _ => .object [(key, value)]

/-- Conversion to `std::string`. -/
def getString : Json → Except Exn String
  | .string s => .ok s
  | _ => .error .typeError

/-- Conversion to `std::size_t`, a `static_cast` of any number. -/
def getSize : Json → Except Exn (BitVec 64)
  | .numberInteger n | .numberUnsigned n | .numberFloat n => .ok n
  | _ => .error .typeError

/-- Conversion to `bool`. -/
def getBool : Json → Except Exn Bool
  | .boolean b => .ok b
  | _ => .error .typeError

/-- The JSON number of a `std::uint16_t`. -/
def ofUint16 (n : BitVec 16) : Json := .numberUnsigned (n.setWidth 64)

end Json

end ResourceServer
