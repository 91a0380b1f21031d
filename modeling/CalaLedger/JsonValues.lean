import CalaLedger.Foundations.HashMap
import CalaLedger.Foundations.SortedMap
import CalaLedger.Param
import Mathlib.Data.String.Basic

/-! # JSON through the interpreter

A JSON value given as a parameter becomes a value of the ledger's own, then one of the interpreter,
and back; what a template stores of it is read off the result. The maps on the way are hash maps,
iterated in any order. On the way back a float is written as a string, everything else as it was
(`roundTrip_eq`), so a value survives exactly when it has no float in it. -/

namespace CalaLedger

namespace Param

open Foundations

/-- `serde_json::Number`: an integer of either sign, or a float by its bits. -/
inductive Number
  | integer (i : ℤ)
  | float (bits : ℕ)
  deriving DecidableEq

/-- `serde_json::Value`. -/
inductive Json
  | null
  | bool (b : Bool)
  | number (n : Number)
  | string (s : String)
  | array (items : List Json)
  | object (entries : List (String × Json))

mutual

/-- The objects are maps sorted by their keys. -/
def Json.Sorted : Json → Prop
  | .array items => SortedItems items
  | .object entries => SortedKeys entries ∧ SortedEntries entries
  | _ => True

def SortedItems : List Json → Prop
  | [] => True
  | item :: items => item.Sorted ∧ SortedItems items

def SortedEntries : List (String × Json) → Prop
  | [] => True
  | (_, value) :: entries => value.Sorted ∧ SortedEntries entries

end

/-- A JSON value as it is kept. -/
abbrev JsonValue := { json : Json // json.Sorted }

mutual

/-- No float occurs in it, at any depth. -/
def Json.FloatFree : Json → Prop
  | .number (.float _) => False
  | .array items => FloatFreeItems items
  | .object entries => FloatFreeEntries entries
  | _ => True

def FloatFreeItems : List Json → Prop
  | [] => True
  | item :: items => item.FloatFree ∧ FloatFreeItems items

def FloatFreeEntries : List (String × Json) → Prop
  | [] => True
  | (_, value) :: entries => value.FloatFree ∧ FloatFreeEntries entries

end

/-! ## The conversions -/

/-- `as_u64` before `as_i64`. -/
def ofNumber : Number → CelValue
  | .integer i => if 0 ≤ i then .uint i.toNat else .int i
  | .float bits => .double bits

mutual

/-- `From<serde_json::Value> for CelValue`. -/
def ofJson : Json → CelValue
  | .null => .null
  | .bool b => .bool b
  | .number n => ofNumber n
  | .string s => .string s
  | .object entries => .map (ofJsonEntries entries)
  | .array items => .list (ofJsonItems items)

def ofJsonItems : List Json → List CelValue
  | [] => []
  | item :: items => ofJson item :: ofJsonItems items

def ofJsonEntries : List (String × Json) → List (CelKey × CelValue)
  | [] => []
  | (key, value) :: entries => (.string key, ofJson value) :: ofJsonEntries entries

end

/-- The orders in which the hash maps on the way are iterated. -/
structure MapOrders where
  values : IterationOrder (CelKey × Value)
  members : IterationOrder (String × Json)

/-- The texts of values that JSON has no form for, and of map keys. -/
structure JsonTexts where
  double : ℕ → String
  date : NaiveDate → String
  timestamp : Timestamp → String
  uuid : ℕ → String
  decimal : Decimal → String
  key : CelKey → String

/-- `ResultCoercionError`. -/
inductive ResultCoercionError
  | badCoreTypeCoercion (expr : String) (actual expected : CelType)
  | badExternalTypeCoercion (expr : String) (actual : CelType) (expected : String)
  deriving DecidableEq

/-- `CelType::from(&CelKey)`. -/
def CelType.ofKey : CelKey → CelType
  | .int _ => .int
  | .uint _ => .uint
  | .bool _ => .bool
  | .string _ => .string

/-- `TryFrom<&CelKey> for String`. -/
def stringOfKey (texts : JsonTexts) (key : CelKey) : Except ResultCoercionError String :=
  match key with
  | .string s => .ok s
  | key => .error (.badCoreTypeCoercion (texts.key key) (CelType.ofKey key) .string)

mutual

/-- `TryFrom<CelResult> for serde_json::Value`. -/
def toJson (orders : MapOrders) (texts : JsonTexts) (expr : String) :
    CelValue → Except ResultCoercionError Json
  | .int n => .ok (.number (.integer n))
  | .uint n => .ok (.number (.integer n))
  | .double bits => .ok (.string (texts.double bits))
  | .bool b => .ok (.bool b)
  | .string s => .ok (.string s)
  | .null => .ok .null
  | .date d => .ok (.string (texts.date d))
  | .timestamp ts => .ok (.string (texts.timestamp ts))
  | .uuid id => .ok (.string (texts.uuid id))
  | .map entries =>
      (toJsonEntries orders texts expr entries).map
        (fun members => .object (collect (orders.members.arrange members)))
  | .list items => (toJsonItems orders texts expr items).map .array
  | .decimal d => .ok (.string (texts.decimal d))
  | .bytes _ => .error (.badExternalTypeCoercion expr .bytes "serde_json::Value")

def toJsonEntries (orders : MapOrders) (texts : JsonTexts) (expr : String) :
    List (CelKey × CelValue) → Except ResultCoercionError (List (String × Json))
  | [] => .ok []
  | (key, value) :: entries => do
      let key ← stringOfKey texts key
      let value ← toJson orders texts expr value
      let entries ← toJsonEntries orders texts expr entries
      .ok ((key, value) :: entries)

def toJsonItems (orders : MapOrders) (texts : JsonTexts) (expr : String) :
    List CelValue → Except ResultCoercionError (List Json)
  | [] => .ok []
  | item :: items => do
      let item ← toJson orders texts expr item
      let items ← toJsonItems orders texts expr items
      .ok (item :: items)

end

/-- A parameter that a template expression evaluates to, stored as JSON. -/
def roundTrip (orders : MapOrders) (midnight : NaiveDate → Timestamp) (texts : JsonTexts)
    (expr : String) (json : Json) : Option Json := do
  let value ← (fromCelValue (intoCelValue orders.values midnight (ofJson json))).toOption
  (toJson orders texts expr value).toOption

/-! ## What survives -/

mutual

/-- Every float as its text. -/
def Json.floatsAsText (texts : JsonTexts) : Json → Json
  | .number (.float bits) => .string (texts.double bits)
  | .array items => .array (floatsAsTextItems texts items)
  | .object entries => .object (floatsAsTextEntries texts entries)
  | json => json

def floatsAsTextItems (texts : JsonTexts) : List Json → List Json
  | [] => []
  | item :: items => item.floatsAsText texts :: floatsAsTextItems texts items

def floatsAsTextEntries (texts : JsonTexts) : List (String × Json) → List (String × Json)
  | [] => []
  | (key, value) :: entries =>
      (key, value.floatsAsText texts) :: floatsAsTextEntries texts entries

end

section RoundTrip

variable (orders : MapOrders) (midnight : NaiveDate → Timestamp) (texts : JsonTexts) (expr : String)

/-- A value of the interpreter, read off as JSON. -/
def readOff (value : Value) : Option Json :=
  (fromCelValue value).toOption.bind (fun v => (toJson orders texts expr v).toOption)

/-- An entry of a map of the interpreter, read off as a member of an object. -/
def readOffEntry (entry : CelKey × Value) : Option (String × Json) :=
  (stringOfKey texts entry.1).toOption.bind (fun key =>
    (readOff orders texts expr entry.2).map (fun value => (key, value)))

theorem toJsonItems_fromCelValues (values : List Value) :
    (fromCelValues values).toOption.bind
        (fun items => (toJsonItems orders texts expr items).toOption)
      = values.mapM (readOff orders texts expr) := by
  induction values with
  | nil => rfl
  | cons value values ih =>
      rw [List.mapM_cons, ← ih, fromCelValues, readOff]
      cases fromCelValue value with
      | error e => rfl
      | ok v =>
          rw [toOption_ok, Option.bind_some]
          cases fromCelValues values with
          | error e => cases (toJson orders texts expr v) <;> rfl
          | ok vs =>
              show (toJsonItems orders texts expr (v :: vs)).toOption = _
              rw [toJsonItems, toOption_ok, Option.bind_some]
              cases (toJson orders texts expr v) with
              | error e => rfl
              | ok json => cases (toJsonItems orders texts expr vs) <;> rfl

theorem toJsonEntries_fromCelEntries (entries : List (CelKey × Value)) :
    (fromCelEntries entries).toOption.bind
        (fun entries => (toJsonEntries orders texts expr entries).toOption)
      = entries.mapM (readOffEntry orders texts expr) := by
  induction entries with
  | nil => rfl
  | cons entry entries ih =>
      obtain ⟨key, value⟩ := entry
      rw [List.mapM_cons, ← ih, fromCelEntries, readOffEntry, readOff]
      cases fromCelValue value with
      | error e => cases (stringOfKey texts key) <;> rfl
      | ok v =>
          rw [toOption_ok, Option.bind_some]
          cases fromCelEntries entries with
          | error e =>
              cases (stringOfKey texts key) with
              | error e => rfl
              | ok s =>
                  rw [toOption_ok, Option.bind_some]
                  cases (toJson orders texts expr v) <;> rfl
          | ok vs =>
              show (toJsonEntries orders texts expr ((key, v) :: vs)).toOption = _
              rw [toJsonEntries, toOption_ok, Option.bind_some]
              cases (stringOfKey texts key) with
              | error e => rfl
              | ok s =>
                  rw [toOption_ok, Option.bind_some]
                  cases (toJson orders texts expr v) with
                  | error e => rfl
                  | ok json => cases (toJsonEntries orders texts expr vs) <;> rfl

theorem readOff_list (values : List Value) :
    readOff orders texts expr (.list values)
      = (values.mapM (readOff orders texts expr)).map .array := by
  rw [← toJsonItems_fromCelValues, readOff, fromCelValue]
  cases fromCelValues values with
  | error e => rfl
  | ok vs =>
      show (toJson orders texts expr (.list vs)).toOption
        = (toJsonItems orders texts expr vs).toOption.map .array
      rw [toJson]
      cases (toJsonItems orders texts expr vs) <;> rfl

theorem readOff_map (entries : List (CelKey × Value)) :
    readOff orders texts expr (.map entries)
      = (entries.mapM (readOffEntry orders texts expr)).map
          (fun members => .object (collect (orders.members.arrange members))) := by
  rw [← toJsonEntries_fromCelEntries, readOff, fromCelValue]
  cases fromCelEntries entries with
  | error e => rfl
  | ok vs =>
      show (toJson orders texts expr (.map vs)).toOption
        = (toJsonEntries orders texts expr vs).toOption.map _
      rw [toJson]
      cases (toJsonEntries orders texts expr vs) <;> rfl

theorem map_fst_floatsAsTextEntries (entries : List (String × Json)) :
    (floatsAsTextEntries texts entries).map Prod.fst = entries.map Prod.fst := by
  induction entries with
  | nil => rfl
  | cons entry entries ih =>
      obtain ⟨key, value⟩ := entry
      rw [floatsAsTextEntries, List.map_cons, List.map_cons, ih]

theorem sortedKeys_floatsAsTextEntries {entries : List (String × Json)} (h : SortedKeys entries) :
    SortedKeys (floatsAsTextEntries texts entries) := by
  have hkeys : (entries.map Prod.fst).Pairwise (· < ·) := List.pairwise_map.mpr h
  rw [← map_fst_floatsAsTextEntries texts] at hkeys
  exact List.pairwise_map.mp hkeys

mutual

/-- **What is read off of a JSON value**: the value, its floats as text. -/
theorem readOff_ofJson : ∀ {json : Json}, json.Sorted →
    readOff orders texts expr (intoCelValue orders.values midnight (ofJson json))
      = some (json.floatsAsText texts)
  | .null, _ => rfl
  | .bool _, _ => rfl
  | .number (.integer i), _ => by
      rw [ofJson, ofNumber]
      split
      · rename_i hpos
        show some (Json.number (.integer i.toNat)) = _
        rw [Int.toNat_of_nonneg hpos]
        rfl
      · rfl
  | .number (.float _), _ => rfl
  | .string _, _ => rfl
  | .array items, h => by
      rw [ofJson, intoCelValue, readOff_list, mapM_readOff_ofJson h]
      rfl
  | .object entries, h => by
      rw [ofJson, intoCelValue, readOff_map]
      -- the map may be iterated in any order, and the object sorts its members again
      obtain ⟨members, hmembers, hperm⟩ := mapM_perm (orders.values.perm _)
        (mapM_readOffEntry_ofJson h.2)
      rw [hmembers, Option.map_some, collect_eq ((orders.members.perm _).trans hperm)
        (sortedKeys_floatsAsTextEntries texts h.1)]
      rfl

theorem mapM_readOff_ofJson : ∀ {items : List Json}, SortedItems items →
    (intoCelValues orders.values midnight (ofJsonItems items)).mapM (readOff orders texts expr)
      = some (floatsAsTextItems texts items)
  | [], _ => rfl
  | item :: items, h => by
      rw [ofJsonItems, intoCelValues, List.mapM_cons, readOff_ofJson h.1, mapM_readOff_ofJson h.2]
      rfl

theorem mapM_readOffEntry_ofJson : ∀ {entries : List (String × Json)}, SortedEntries entries →
    (intoCelEntries orders.values midnight (ofJsonEntries entries)).mapM
        (readOffEntry orders texts expr)
      = some (floatsAsTextEntries texts entries)
  | [], _ => rfl
  | (key, value) :: entries, h => by
      rw [ofJsonEntries, intoCelEntries, List.mapM_cons, mapM_readOffEntry_ofJson h.2, readOffEntry,
        readOff_ofJson h.1]
      rfl

end

theorem roundTrip_eq (json : JsonValue) :
    roundTrip orders midnight texts expr json.1 = some (json.1.floatsAsText texts) :=
  readOff_ofJson orders midnight texts expr json.2

end RoundTrip

mutual

/-- Writing floats as text changes a value only if it has one. -/
theorem floatsAsText_eq_self (texts : JsonTexts) : ∀ {json : Json},
    json.floatsAsText texts = json ↔ json.FloatFree
  | .null => iff_of_true rfl trivial
  | .bool _ => iff_of_true rfl trivial
  | .number (.integer _) => iff_of_true rfl trivial
  | .number (.float _) => iff_of_false Json.noConfusion not_false
  | .string _ => iff_of_true rfl trivial
  | .array items => by
      show Json.array (floatsAsTextItems texts items) = .array items ↔ FloatFreeItems items
      rw [Json.array.injEq]
      exact floatsAsTextItems_eq_self texts
  | .object entries => by
      show Json.object (floatsAsTextEntries texts entries) = .object entries
        ↔ FloatFreeEntries entries
      rw [Json.object.injEq]
      exact floatsAsTextEntries_eq_self texts

theorem floatsAsTextItems_eq_self (texts : JsonTexts) : ∀ {items : List Json},
    floatsAsTextItems texts items = items ↔ FloatFreeItems items
  | [] => iff_of_true rfl trivial
  | item :: items => by
      rw [floatsAsTextItems, List.cons.injEq]
      exact and_congr (floatsAsText_eq_self texts) (floatsAsTextItems_eq_self texts)

theorem floatsAsTextEntries_eq_self (texts : JsonTexts) : ∀ {entries : List (String × Json)},
    floatsAsTextEntries texts entries = entries ↔ FloatFreeEntries entries
  | [] => iff_of_true rfl trivial
  | (key, value) :: entries => by
      rw [floatsAsTextEntries, List.cons.injEq, Prod.mk.injEq, eq_self_iff_true, true_and]
      exact and_congr (floatsAsText_eq_self texts) (floatsAsTextEntries_eq_self texts)

end

/-- **A JSON value survives the interpreter** exactly when no float occurs in it, however the hash
maps on the way are iterated. -/
theorem json_survives_iff (orders : MapOrders) (midnight : NaiveDate → Timestamp)
    (texts : JsonTexts) (expr : String) (json : JsonValue) :
    roundTrip orders midnight texts expr json.1 = some json.1 ↔ json.1.FloatFree := by
  rw [roundTrip_eq, Option.some_inj]
  exact floatsAsText_eq_self texts

/-- The texts of a few values. -/
def sampleTexts : JsonTexts where
  double := fun bits => if bits = 4609434218613702656 then "1.5" else "0"
  date := fun _ => "1970-01-01"
  timestamp := fun _ => "1970-01-01T00:00:00+00:00"
  uuid := fun _ => "00000000-0000-0000-0000-000000000000"
  decimal := fun _ => "0"
  key := fun _ => "Int(0)"

/-- The number 1.5 comes back as the string "1.5". -/
theorem float_becomes_string :
    roundTrip ⟨.asStored _, .asStored _⟩ id sampleTexts "params.meta"
        (.object [("rate", .number (.float 4609434218613702656))])
      = some (.object [("rate", .string "1.5")])
    ∧ roundTrip ⟨.asStored _, .asStored _⟩ id sampleTexts "params.meta"
        (.object [("rate", .number (.float 4609434218613702656))])
      ≠ some (.object [("rate", .number (.float 4609434218613702656))]) := by
  have hresult : roundTrip ⟨.asStored _, .asStored _⟩ id sampleTexts "params.meta"
        (.object [("rate", .number (.float 4609434218613702656))])
      = some (.object [("rate", .string "1.5")]) := rfl
  refine ⟨hresult, ?_⟩
  rw [hresult]
  intro h
  cases h

end Param

end CalaLedger
