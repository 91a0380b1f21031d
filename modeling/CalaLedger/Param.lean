import CalaLedger.Entities
import CalaLedger.Foundations.HashMap
import CalaLedger.Foundations.Traversal

/-! # Parameters of templates and limits

A caller supplies values for the declared parameters, and a declaration may carry a default
expression. A supplied value is coerced to the declared type when the context is built. A default is
coerced when its declaration is built, but that value is dropped: the context binds what the
expression evaluates to. The interpreter, whose values the context holds, has no dates: a date is
bound as a timestamp. `intoContext_eq_ok` says what expressions read, name by name, and
`params_respect_types_iff` when every value has its declared type. -/

namespace CalaLedger

namespace Param

/-! ## Values -/

inductive CelType
  | map
  | list
  | int
  | uint
  | double
  | string
  | bytes
  | bool
  | null
  | date
  | timestamp
  | uuid
  | decimal
  deriving DecidableEq, Repr

inductive CelKey
  | int (i : ℤ)
  | uint (u : ℕ)
  | bool (b : Bool)
  | string (s : String)
  deriving DecidableEq

/-- A value of the ledger's own; a double is given by its bits. -/
inductive CelValue
  | map (entries : List (CelKey × CelValue))
  | list (items : List CelValue)
  | int (i : ℤ)
  | uint (u : ℕ)
  | double (bits : ℕ)
  | string (s : String)
  | bytes (b : List ℕ)
  | bool (b : Bool)
  | null
  | decimal (d : Decimal)
  | date (d : NaiveDate)
  | timestamp (ts : Timestamp)
  | uuid (id : ℕ)

/-- `CelType::from(&CelValue)`. -/
def CelType.ofValue : CelValue → CelType
  | .map _ => .map
  | .list _ => .list
  | .int _ => .int
  | .uint _ => .uint
  | .double _ => .double
  | .string _ => .string
  | .bytes _ => .bytes
  | .bool _ => .bool
  | .null => .null
  | .decimal _ => .decimal
  | .date _ => .date
  | .timestamp _ => .timestamp
  | .uuid _ => .uuid

/-- A value of the interpreter; it has no dates, and decimals and UUIDs are opaque to it. -/
inductive Value
  | map (entries : List (CelKey × Value))
  | list (values : List Value)
  | int (i : ℤ)
  | uint (u : ℕ)
  | float (bits : ℕ)
  | string (s : String)
  | bytes (b : List ℕ)
  | bool (b : Bool)
  /-- by its debug text -/
  | duration (debug : String)
  | timestamp (ts : Timestamp)
  | decimal (d : Decimal)
  | uuid (id : ℕ)
  | opaqueValue (runtimeTypeName : String)
  | null
  | function

mutual

/-- `CelValue::from_cel_value`. -/
def fromCelValue : Value → Except CelError CelValue
  | .map entries => (fromCelEntries entries).map .map
  | .list values => (fromCelValues values).map .list
  | .int i => .ok (.int i)
  | .uint u => .ok (.uint u)
  | .float bits => .ok (.double bits)
  | .string s => .ok (.string s)
  | .bytes b => .ok (.bytes b)
  | .bool b => .ok (.bool b)
  | .duration debug => .ok (.string debug)
  | .timestamp ts => .ok (.timestamp ts)
  | .decimal d => .ok (.decimal d)
  | .uuid id => .ok (.uuid id)
  | .opaqueValue runtimeTypeName => .error ⟨s!"Unsupported opaque value {runtimeTypeName}"⟩
  | .null => .ok .null
  | .function => .error ⟨"Cannot convert function value"⟩

def fromCelEntries : List (CelKey × Value) → Except CelError (List (CelKey × CelValue))
  | [] => .ok []
  | (key, value) :: entries => do
      let value ← fromCelValue value
      let entries ← fromCelEntries entries
      .ok ((key, value) :: entries)

def fromCelValues : List Value → Except CelError (List CelValue)
  | [] => .ok []
  | value :: values => do
      let value ← fromCelValue value
      let values ← fromCelValues values
      .ok (value :: values)

end

mutual

/-- `CelValue::into_cel_value`; a date becomes its midnight, and a map is collected into another. -/
def intoCelValue (order : Foundations.IterationOrder (CelKey × Value))
    (midnight : NaiveDate → Timestamp) : CelValue → Value
  | .map entries => .map (order.arrange (intoCelEntries order midnight entries))
  | .list items => .list (intoCelValues order midnight items)
  | .int i => .int i
  | .uint u => .uint u
  | .double bits => .float bits
  | .string s => .string s
  | .bytes b => .bytes b
  | .bool b => .bool b
  | .null => .null
  | .decimal d => .decimal d
  | .date d => .timestamp (midnight d)
  | .timestamp ts => .timestamp ts
  | .uuid id => .uuid id

def intoCelEntries (order : Foundations.IterationOrder (CelKey × Value))
    (midnight : NaiveDate → Timestamp) : List (CelKey × CelValue) → List (CelKey × Value)
  | [] => []
  | (key, value) :: entries =>
      (key, intoCelValue order midnight value) :: intoCelEntries order midnight entries

def intoCelValues (order : Foundations.IterationOrder (CelKey × Value))
    (midnight : NaiveDate → Timestamp) : List CelValue → List Value
  | [] => []
  | value :: values => intoCelValue order midnight value :: intoCelValues order midnight values

end

/-! ### Dates

The interpreter has no dates, so a value comes back from it with timestamps in their place. -/

mutual

/-- No date occurs in a value, at any depth. -/
def CelValue.DateFree : CelValue → Prop
  | .date _ => False
  | .map entries => DateFreeEntries entries
  | .list items => DateFreeItems items
  | _ => True

def DateFreeEntries : List (CelKey × CelValue) → Prop
  | [] => True
  | (_, value) :: entries => value.DateFree ∧ DateFreeEntries entries

def DateFreeItems : List CelValue → Prop
  | [] => True
  | value :: values => value.DateFree ∧ DateFreeItems values

end

mutual

/-- A value with the midnights of its dates for them. -/
def CelValue.atMidnight (midnight : NaiveDate → Timestamp) : CelValue → CelValue
  | .date d => .timestamp (midnight d)
  | .map entries => .map (entriesAtMidnight midnight entries)
  | .list items => .list (itemsAtMidnight midnight items)
  | value => value

def entriesAtMidnight (midnight : NaiveDate → Timestamp) :
    List (CelKey × CelValue) → List (CelKey × CelValue)
  | [] => []
  | (key, value) :: entries =>
      (key, value.atMidnight midnight) :: entriesAtMidnight midnight entries

def itemsAtMidnight (midnight : NaiveDate → Timestamp) : List CelValue → List CelValue
  | [] => []
  | value :: values => value.atMidnight midnight :: itemsAtMidnight midnight values

end

mutual

/-- **No evaluation yields a date.** -/
theorem dateFree_fromCelValue : ∀ {value : Value} {v : CelValue},
    fromCelValue value = .ok v → v.DateFree
  | .map entries, v, h => by
      rw [fromCelValue] at h
      obtain ⟨found, hfound, rfl⟩ := Foundations.map_eq_ok.mp h
      exact dateFree_fromCelEntries hfound
  | .list values, v, h => by
      rw [fromCelValue] at h
      obtain ⟨found, hfound, rfl⟩ := Foundations.map_eq_ok.mp h
      exact dateFree_fromCelValues hfound
  | .int _, _, rfl | .uint _, _, rfl | .float _, _, rfl | .string _, _, rfl | .bytes _, _, rfl
  | .bool _, _, rfl | .duration _, _, rfl | .timestamp _, _, rfl | .decimal _, _, rfl
  | .uuid _, _, rfl | .null, _, rfl => trivial

theorem dateFree_fromCelEntries : ∀ {entries : List (CelKey × Value)}
    {found : List (CelKey × CelValue)}, fromCelEntries entries = .ok found → DateFreeEntries found
  | [], _, rfl => trivial
  | (key, value) :: entries, found, h => by
      rw [fromCelEntries] at h
      obtain ⟨v, hv, h⟩ := Foundations.bind_eq_ok.mp h
      obtain ⟨rest, hrest, rfl⟩ := Foundations.map_eq_ok.mp h
      exact ⟨dateFree_fromCelValue hv, dateFree_fromCelEntries hrest⟩

theorem dateFree_fromCelValues : ∀ {values : List Value} {found : List CelValue},
    fromCelValues values = .ok found → DateFreeItems found
  | [], _, rfl => trivial
  | value :: values, found, h => by
      rw [fromCelValues] at h
      obtain ⟨v, hv, h⟩ := Foundations.bind_eq_ok.mp h
      obtain ⟨rest, hrest, rfl⟩ := Foundations.map_eq_ok.mp h
      exact ⟨dateFree_fromCelValue hv, dateFree_fromCelValues hrest⟩

end

mutual

/-- **What a value is in the interpreter**: itself, but for its dates. -/
theorem fromCelValue_intoCelValue (midnight : NaiveDate → Timestamp) : ∀ value : CelValue,
    fromCelValue (intoCelValue (.asStored _) midnight value) = .ok (value.atMidnight midnight)
  | .map entries => by
      show (fromCelEntries (intoCelEntries (.asStored _) midnight entries)).map CelValue.map = _
      rw [fromCelEntries_intoCelEntries]
      rfl
  | .list items => by
      show (fromCelValues (intoCelValues (.asStored _) midnight items)).map CelValue.list = _
      rw [fromCelValues_intoCelValues]
      rfl
  | .int _ | .uint _ | .double _ | .string _ | .bytes _ | .bool _ | .null | .decimal _ | .date _
  | .timestamp _ | .uuid _ => rfl

theorem fromCelEntries_intoCelEntries (midnight : NaiveDate → Timestamp) :
    ∀ entries : List (CelKey × CelValue),
      fromCelEntries (intoCelEntries (.asStored _) midnight entries)
        = .ok (entriesAtMidnight midnight entries)
  | [] => rfl
  | (key, value) :: entries => by
      rw [intoCelEntries, fromCelEntries, fromCelValue_intoCelValue, fromCelEntries_intoCelEntries]
      rfl

theorem fromCelValues_intoCelValues (midnight : NaiveDate → Timestamp) :
    ∀ values : List CelValue,
      fromCelValues (intoCelValues (.asStored _) midnight values)
        = .ok (itemsAtMidnight midnight values)
  | [] => rfl
  | value :: values => by
      rw [intoCelValues, fromCelValues, fromCelValue_intoCelValue, fromCelValues_intoCelValues]
      rfl

end

mutual

/-- A value without dates, and no other, comes back as it was. -/
theorem atMidnight_eq_self (midnight : NaiveDate → Timestamp) : ∀ {value : CelValue},
    value.atMidnight midnight = value ↔ value.DateFree
  | .date _ => iff_of_false CelValue.noConfusion not_false
  | .map entries => by
      show CelValue.map (entriesAtMidnight midnight entries) = .map entries
        ↔ DateFreeEntries entries
      rw [CelValue.map.injEq]
      exact entriesAtMidnight_eq_self midnight
  | .list items => by
      show CelValue.list (itemsAtMidnight midnight items) = .list items ↔ DateFreeItems items
      rw [CelValue.list.injEq]
      exact itemsAtMidnight_eq_self midnight
  | .int _ | .uint _ | .double _ | .string _ | .bytes _ | .bool _ | .null | .decimal _
  | .timestamp _ | .uuid _ => iff_of_true rfl trivial

theorem entriesAtMidnight_eq_self (midnight : NaiveDate → Timestamp) :
    ∀ {entries : List (CelKey × CelValue)},
      entriesAtMidnight midnight entries = entries ↔ DateFreeEntries entries
  | [] => iff_of_true rfl trivial
  | (key, value) :: entries => by
      rw [entriesAtMidnight, List.cons.injEq, Prod.mk.injEq, eq_self_iff_true, true_and]
      exact and_congr (atMidnight_eq_self midnight) (entriesAtMidnight_eq_self midnight)

theorem itemsAtMidnight_eq_self (midnight : NaiveDate → Timestamp) :
    ∀ {items : List CelValue}, itemsAtMidnight midnight items = items ↔ DateFreeItems items
  | [] => iff_of_true rfl trivial
  | value :: values => by
      rw [itemsAtMidnight, List.cons.injEq]
      exact and_congr (atMidnight_eq_self midnight) (itemsAtMidnight_eq_self midnight)

end

/-! ## Contexts and expressions -/

/-- A map of the ledger's own values. -/
abbrev CelMap := List (CelKey × CelValue)

/-- `CelMap::insert`. -/
def CelMap.insert (map : CelMap) (key : CelKey) (value : CelValue) : CelMap :=
  (key, value) :: List.filter (fun entry => decide (entry.1 ≠ key)) map

/-- The entry of a key. -/
def CelMap.get (map : CelMap) (key : CelKey) : Option CelValue :=
  (List.find? (fun entry => decide (entry.1 = key)) map).map Prod.snd

/-- `cel::Context`: the clock of the operation, which its functions read, and the variables. -/
structure Context where
  now : Timestamp
  vars : HashMap String Value

/-- What an expression is evaluated against, and the variables as they are shown in a trace. -/
structure CelContext where
  inner : Context
  debugVars : List (String × CelValue)

/-- A compiled expression, by its execution. -/
structure CelExpression where
  source : String
  execute : Context → Except CelError Value

/-- `CelExpression::evaluate`. -/
def CelExpression.evaluate (expr : CelExpression) (ctx : CelContext) :
    Except CelError CelValue := do
  let value ← expr.execute ctx.inner
  fromCelValue value

/-! ## Declared types -/

inductive ParamDataType
  | string
  | integer
  | decimal
  | boolean
  | uuid
  | date
  | timestamp
  | json
  deriving DecidableEq, Repr

/-- What the flow takes from the libraries: the parsers of literals, the day of an instant and the
first instant of a day, the compiler of expressions and the debug text of a value. -/
structure Library where
  parseUuid : String → Except String ℕ
  parseDecimal : String → Except String Decimal
  parseDate : String → Except String NaiveDate
  dateNaive : Timestamp → NaiveDate
  midnight : NaiveDate → Timestamp
  compile : String → Except CelError CelExpression
  debug : CelValue → String

/-- The name of a type in a message. -/
def ParamDataType.debug : ParamDataType → String
  | .string => "String"
  | .integer => "Integer"
  | .decimal => "Decimal"
  | .boolean => "Boolean"
  | .uuid => "Uuid"
  | .date => "Date"
  | .timestamp => "Timestamp"
  | .json => "Json"

variable (lib : Library)

/-- `ParamDataType::coerce_value`. -/
def ParamDataType.coerceValue (type : ParamDataType) (value : CelValue) :
    Except String CelValue :=
  match value, type with
  | .uint _, .integer => .ok value
  | .int _, .integer => .ok value
  | .string _, .string => .ok value
  | .map _, .json => .ok value
  | .date _, .date => .ok value
  | .timestamp ts, .date => .ok (.date (lib.dateNaive ts))
  | .uuid _, .uuid => .ok value
  | .decimal _, .decimal => .ok value
  | .bool _, .boolean => .ok value
  | .string s, .uuid =>
      ((lib.parseUuid s).mapError (fun e => s!"Could not parse '{s}' as Uuid - {e}")).map .uuid
  | .string s, .decimal =>
      ((lib.parseDecimal s).mapError (fun e => s!"Could not parse '{s}' as Decimal - {e}")).map
        .decimal
  | .string s, .date =>
      ((lib.parseDate s).mapError (fun e => s!"Could not parse '{s}' as Date - {e}")).map .date
  -- a timestamp is not matched where a timestamp is declared
  | _, _ => .error s!"Type mismatch: expected {type.debug}, got {lib.debug value}"

/-- A value has a declared type. -/
def ParamDataType.HasType (type : ParamDataType) (value : CelValue) : Prop :=
  match type with
  | .string => CelType.ofValue value = .string
  | .integer => CelType.ofValue value = .int ∨ CelType.ofValue value = .uint
  | .decimal => CelType.ofValue value = .decimal
  | .boolean => CelType.ofValue value = .bool
  | .uuid => CelType.ofValue value = .uuid
  | .date => CelType.ofValue value = .date
  | .timestamp => CelType.ofValue value = .timestamp
  | .json => CelType.ofValue value = .map

section Coercion

variable {lib} {type : ParamDataType} {value coerced : CelValue}

/-- A coerced value has the type it was coerced to. -/
theorem hasType_of_coerceValue (h : type.coerceValue lib value = .ok coerced) :
    type.HasType coerced := by
  cases value <;> cases type <;>
    simp only [ParamDataType.coerceValue, reduceCtorEq, Except.ok.injEq] at h
  -- a literal is parsed to a value of the type
  case string.uuid s =>
    obtain ⟨id, -, rfl⟩ := Foundations.map_eq_ok.mp h
    rfl
  case string.decimal s =>
    obtain ⟨d, -, rfl⟩ := Foundations.map_eq_ok.mp h
    rfl
  case string.date s =>
    obtain ⟨d, -, rfl⟩ := Foundations.map_eq_ok.mp h
    rfl
  all_goals
    subst h
    first
    | rfl
    | exact Or.inl rfl
    | exact Or.inr rfl

/-- A value of the declared type is taken as it is, but for timestamps. -/
theorem coerceValue_of_hasType (h : type.HasType value) (htype : type ≠ .timestamp) :
    type.coerceValue lib value = .ok value := by
  cases type <;> cases value <;>
    first
    | rfl
    | exact absurd rfl htype
    | exact absurd h (by simp [ParamDataType.HasType, CelType.ofValue])

theorem coerceValue_timestamp (value : CelValue) :
    ¬ Foundations.Succeeds (ParamDataType.coerceValue lib .timestamp value) := by
  cases value <;> exact Foundations.not_succeeds_error _

/-- What a value is coerced to has a date in it where a date is declared, or one is supplied. -/
theorem dateFree_coerceValue (h : type.coerceValue lib value = .ok coerced) :
    coerced.DateFree ↔ type ≠ .date ∧ value.DateFree := by
  cases value <;> cases type <;>
    simp only [ParamDataType.coerceValue, reduceCtorEq, Except.ok.injEq] at h
  -- a literal is parsed to a value of the type
  case string.uuid s =>
    obtain ⟨id, -, rfl⟩ := Foundations.map_eq_ok.mp h
    exact iff_of_true trivial ⟨nofun, trivial⟩
  case string.decimal s =>
    obtain ⟨d, -, rfl⟩ := Foundations.map_eq_ok.mp h
    exact iff_of_true trivial ⟨nofun, trivial⟩
  case string.date s =>
    obtain ⟨d, -, rfl⟩ := Foundations.map_eq_ok.mp h
    exact iff_of_false not_false (fun hnot => hnot.1 rfl)
  all_goals
    subst h
    first
    | exact iff_of_false not_false (fun hnot => hnot.1 rfl)
    | exact (and_iff_right nofun).symm

/-- A value that is not taken as it is has no map in it. -/
theorem dateFree_of_coerceValue (h : type.coerceValue lib value = .ok coerced)
    (hne : coerced ≠ value) (htype : type ≠ .date) : coerced.DateFree := by
  refine (dateFree_coerceValue h).mpr ⟨htype, ?_⟩
  cases value <;> first | trivial | (cases type <;> cases h; exact absurd rfl hne)

end Coercion

/-! ## Declarations -/

/-- `CelContext::add_variable`. A variable of the name is replaced; a map lists its entries in the
interpreter as it does here, since the order of a hash map is not observed. -/
def CelContext.addVariable (ctx : CelContext) (name : String) (value : CelValue) : CelContext :=
  { inner :=
      { ctx.inner with
        vars := ctx.inner.vars.insert name (intoCelValue (.asStored _) lib.midnight value) }
    debugVars := ctx.debugVars ++ [(name, value)] }

/-- `cel_context::initialize`. -/
def initializeContext (now : Timestamp) : CelContext :=
  ["SETTLED", "PENDING", "ENCUMBRANCE", "DEBIT", "CREDIT"].foldl
    (fun ctx name => ctx.addVariable lib name (.string name)) ⟨⟨now, ∅⟩, []⟩

/-- `NewParamDefinitionBuilder::validate`: the value the default evaluates to can be coerced. -/
def validate (now : Timestamp) (type : ParamDataType) (default : Option String) :
    Except String Unit :=
  match default with
  | none => .ok ()
  | some source => do
      let expr ← (lib.compile source).mapError CelError.message
      let value ← (expr.evaluate (initializeContext lib now)).mapError CelError.message
      let _ ← (type.coerceValue lib value).mapError (fun e =>
        s!"Default expression does not match parameter type {type.debug}: {e}")
      .ok ()

/-- A declaration the builder has accepted, at some time. -/
structure NewParamDefinition where
  name : String
  type : ParamDataType
  default : Option String
  description : Option String
  accepted : ∃ now, validate lib now type default = .ok ()

structure ParamDefinition where
  name : String
  type : ParamDataType
  default : Option CelExpression
  description : Option String

variable {lib}

/-- `NewParamDefinition::default_expr`; that it parses was checked by the builder. -/
def NewParamDefinition.defaultExpr (param : NewParamDefinition lib) : Option CelExpression :=
  param.default.bind (fun source => (lib.compile source).toOption)

theorem NewParamDefinition.isSome_defaultExpr (param : NewParamDefinition lib) :
    param.defaultExpr.isSome = param.default.isSome := by
  obtain ⟨now, haccepted⟩ := param.accepted
  unfold defaultExpr
  cases hdefault : param.default with
  | none => rfl
  | some source =>
      rw [hdefault] at haccepted
      obtain ⟨expr, hexpr, -⟩ := Foundations.bind_eq_ok.mp haccepted
      rw [Foundations.mapError_eq_ok] at hexpr
      rw [Option.bind_some, hexpr]
      rfl

/-- `ParamDefinition::from`. -/
def ParamDefinition.ofNew (param : NewParamDefinition lib) : ParamDefinition :=
  { name := param.name
    type := param.type
    default := param.defaultExpr
    description := param.description }

/-! ## Binding -/

/-- The values a caller supplies. -/
abbrev Params := HashMap String CelValue

inductive ParamError
  | paramTypeMismatch (message : String)
  | celError (error : CelError)
  deriving DecidableEq

/-- The loop of `Params::into_context`: a supplied value is taken out and coerced, an absent one is
replaced by what the default evaluates to. -/
def bindParams (lib : Library) (ctx : CelContext) :
    Params → CelMap → List ParamDefinition → Except ParamError CelMap
  | _, celMap, [] => .ok celMap
  | values, celMap, d :: defs =>
      match values.lookup d.name with
      | some v => do
          let v ← (d.type.coerceValue lib v).mapError .paramTypeMismatch
          bindParams lib ctx (values.erase d.name) (celMap.insert (.string d.name) v) defs
      | none =>
          match d.default with
          | some expr => do
              let v ← (expr.evaluate ctx).mapError .celError
              bindParams lib ctx values (celMap.insert (.string d.name) v) defs
          | none => bindParams lib ctx values celMap defs

/-- `Params::into_context`. -/
def Params.intoContext (lib : Library) (values : Params) (now : Timestamp)
    (defs : Option (List ParamDefinition)) : Except ParamError CelContext :=
  let ctx := initializeContext lib now
  match defs with
  | none => .ok ctx
  | some defs => do
      let celMap ← bindParams lib ctx values [] defs
      .ok (ctx.addVariable lib "params" (.map celMap))

/-- The parameter of a name, as an expression reads it from a context. -/
def CelContext.param (ctx : CelContext) (key : CelKey) : Option CelValue :=
  match ctx.inner.vars.lookup "params" with
  | some (.map entries) =>
      (entries.find? (fun entry => decide (entry.1 = key))).bind
        (fun entry => (fromCelValue entry.2).toOption)
  | _ => none

theorem CelMap.get_insert (celMap : CelMap) (key key' : CelKey) (v : CelValue) :
    (celMap.insert key v).get key' = if key = key' then some v else celMap.get key' := by
  unfold CelMap.get CelMap.insert
  rw [List.find?_cons]
  by_cases h : key = key'
  · simp [h]
  · rw [if_neg h, List.find?_filter]
    simp only [h, decide_false]
    refine congrArg (Option.map Prod.snd)
      (congrFun (congrArg List.find? (funext fun entry => ?_)) _)
    by_cases hentry : entry.1 = key'
    · simp [hentry, Ne.symm h]
    · simp [hentry]

/-! ## What is bound -/

/-- The declarations of a name, in order. -/
def declared (defs : List ParamDefinition) (name : String) : List ParamDefinition :=
  defs.filter (fun d => d.name = name)

/-- The default expressions that are evaluated for a name: a supplied value replaces that of the
first declaration only. -/
def defaultsInUse (values : Params) (defs : List ParamDefinition) (name : String) :
    List CelExpression :=
  (if (values.lookup name).isSome then (declared defs name).tail else declared defs name).filterMap
    ParamDefinition.default

/-- The supplied value of a name, coerced to the type of its first declaration. -/
def suppliedValue (lib : Library) (values : Params) (defs : List ParamDefinition) (name : String) :
    Option CelValue :=
  (values.lookup name).bind (fun v =>
    (declared defs name).head?.bind (fun d => (d.type.coerceValue lib v).toOption))

/-- What is bound to a name: the value of the last default in use, else the supplied value. -/
def boundValue (lib : Library) (ctx : CelContext) (values : Params) (defs : List ParamDefinition)
    (name : String) : Option CelValue :=
  ((defaultsInUse values defs name).filterMap (fun expr =>
    (expr.evaluate ctx).toOption)).getLast?.or (suppliedValue lib values defs name)

/-- Every supplied value can be coerced, and every default in use evaluated. -/
structure Converts (lib : Library) (ctx : CelContext) (values : Params)
    (defs : List ParamDefinition) : Prop where
  supplied : ∀ d ∈ defs, ∀ v, values.lookup d.name = some v →
    (suppliedValue lib values defs d.name).isSome
  defaults : ∀ d ∈ defs, ∀ expr ∈ defaultsInUse values defs d.name,
    Foundations.Succeeds (expr.evaluate ctx)

section Binding

variable {ctx : CelContext} {values : Params} {d : ParamDefinition} {defs : List ParamDefinition}
  {name : String} {v : CelValue}

theorem declared_cons :
    declared (d :: defs) name = if d.name = name then d :: declared defs name
      else declared defs name := by
  unfold declared
  rw [List.filter_cons]
  by_cases h : d.name = name <;> simp [h]

/-- A declaration takes the supplied value of its name and leaves every other. -/
theorem defaultsInUse_cons_of_some (hv : values.lookup d.name = some v) :
    defaultsInUse values (d :: defs) name = defaultsInUse (values.erase d.name) defs name := by
  unfold defaultsInUse
  rw [declared_cons]
  by_cases h : d.name = name
  · subst h
    rw [if_pos rfl, hv, AList.lookup_erase]
    rfl
  · rw [if_neg h, AList.lookup_erase_ne (Ne.symm h)]

theorem suppliedValue_cons_of_some (hv : values.lookup d.name = some v) :
    suppliedValue lib values (d :: defs) name
      = if d.name = name then (d.type.coerceValue lib v).toOption
        else suppliedValue lib (values.erase d.name) defs name := by
  unfold suppliedValue
  rw [declared_cons]
  by_cases h : d.name = name
  · subst h
    rw [if_pos rfl, if_pos rfl, hv]
    rfl
  · rw [if_neg h, if_neg h, AList.lookup_erase_ne (Ne.symm h)]

theorem suppliedValue_erase : suppliedValue lib (values.erase d.name) defs d.name = none := by
  rw [suppliedValue, AList.lookup_erase, Option.bind_none]

/-- Without a supplied value, a declaration adds its default. -/
theorem defaultsInUse_cons_of_none (hv : values.lookup d.name = none) :
    defaultsInUse values (d :: defs) name
      = (if d.name = name then d.default.toList else []) ++ defaultsInUse values defs name := by
  unfold defaultsInUse
  rw [declared_cons]
  by_cases h : d.name = name
  · subst h
    rw [if_pos rfl, if_pos rfl, hv]
    cases hdefault : d.default <;> simp [hdefault]
  · rw [if_neg h, if_neg h, List.nil_append]

theorem suppliedValue_cons_of_none (hv : values.lookup d.name = none) :
    suppliedValue lib values (d :: defs) name = suppliedValue lib values defs name := by
  unfold suppliedValue
  rw [declared_cons]
  by_cases h : d.name = name
  · subst h
    rw [hv]
    rfl
  · rw [if_neg h]

theorem exists_declared_of_mem {expr : CelExpression}
    (h : expr ∈ defaultsInUse values defs name) : ∃ d ∈ defs, d.name = name := by
  obtain ⟨d, hd, -⟩ := List.mem_filterMap.mp h
  have hdeclared : d ∈ declared defs name := by
    split at hd
    · exact List.mem_of_mem_tail hd
    · exact hd
  obtain ⟨hmem, hname⟩ := List.mem_filter.mp hdeclared
  exact ⟨d, hmem, of_decide_eq_true hname⟩

theorem converts_cons_of_some (hv : values.lookup d.name = some v) :
    Converts lib ctx values (d :: defs)
      ↔ Foundations.Succeeds (d.type.coerceValue lib v)
        ∧ Converts lib ctx (values.erase d.name) defs := by
  have hown : (suppliedValue lib values (d :: defs) d.name).isSome
      ↔ Foundations.Succeeds (d.type.coerceValue lib v) := by
    rw [suppliedValue_cons_of_some hv, if_pos rfl, Option.isSome_iff_exists]
    exact exists_congr (fun _ => Foundations.toOption_eq_some)
  constructor
  · intro h
    refine ⟨hown.mp (h.supplied d List.mem_cons_self v hv), fun d' hd' v' hv' => ?_,
      fun d' hd' expr hexpr => ?_⟩
    · have hne : d.name ≠ d'.name := by
        intro heq
        rw [← heq, AList.lookup_erase] at hv'
        cases hv'
      rw [AList.lookup_erase_ne hne.symm] at hv'
      have hsome := h.supplied d' (List.mem_cons_of_mem _ hd') v' hv'
      rwa [suppliedValue_cons_of_some hv, if_neg hne] at hsome
    · refine h.defaults d' (List.mem_cons_of_mem _ hd') expr ?_
      rwa [defaultsInUse_cons_of_some hv]
  · rintro ⟨hcoerces, h⟩
    refine ⟨fun d' hd' v' hv' => ?_, fun d' hd' expr hexpr => ?_⟩
    · by_cases heq : d.name = d'.name
      · rw [← heq]
        exact hown.mpr hcoerces
      · rw [suppliedValue_cons_of_some hv, if_neg heq]
        refine h.supplied d' ((List.mem_cons.mp hd').resolve_left ?_) v' ?_
        · rintro rfl
          exact heq rfl
        · rwa [AList.lookup_erase_ne (Ne.symm heq)]
    · rw [defaultsInUse_cons_of_some hv] at hexpr
      obtain ⟨d'', hd'', hname⟩ := exists_declared_of_mem hexpr
      rw [← hname] at hexpr
      exact h.defaults d'' hd'' expr hexpr

theorem converts_cons_of_none (hv : values.lookup d.name = none) :
    Converts lib ctx values (d :: defs)
      ↔ (∀ expr ∈ d.default, Foundations.Succeeds (expr.evaluate ctx))
        ∧ Converts lib ctx values defs := by
  constructor
  · intro h
    refine ⟨fun expr hexpr => h.defaults d List.mem_cons_self expr ?_, fun d' hd' v' hv' => ?_,
      fun d' hd' expr hexpr => ?_⟩
    · rw [defaultsInUse_cons_of_none hv, if_pos rfl]
      exact List.mem_append_left _ (Option.mem_toList.mpr hexpr)
    · rw [← suppliedValue_cons_of_none hv]
      exact h.supplied d' (List.mem_cons_of_mem _ hd') v' hv'
    · refine h.defaults d' (List.mem_cons_of_mem _ hd') expr ?_
      rw [defaultsInUse_cons_of_none hv]
      exact List.mem_append_right _ hexpr
  · rintro ⟨hdefault, h⟩
    refine ⟨fun d' hd' v' hv' => ?_, fun d' hd' expr hexpr => ?_⟩
    · rw [suppliedValue_cons_of_none hv]
      refine h.supplied d' ((List.mem_cons.mp hd').resolve_left ?_) v' hv'
      rintro rfl
      rw [hv] at hv'
      cases hv'
    · rw [defaultsInUse_cons_of_none hv, List.mem_append] at hexpr
      rcases hexpr with hown | hexpr
      · split at hown
        · exact hdefault expr (Option.mem_toList.mp hown)
        · cases hown
      · obtain ⟨d'', hd'', hname⟩ := exists_declared_of_mem hexpr
        rw [← hname] at hexpr
        exact h.defaults d'' hd'' expr hexpr

/-- **When the loop succeeds.** -/
theorem succeeds_bindParams (defs : List ParamDefinition) :
    ∀ {values : Params} {celMap : CelMap},
      Foundations.Succeeds (bindParams lib ctx values celMap defs)
        ↔ Converts lib ctx values defs := by
  induction defs with
  | nil =>
      exact iff_of_true (Foundations.succeeds_ok _)
        ⟨fun _ h => (List.not_mem_nil h).elim, fun _ h => (List.not_mem_nil h).elim⟩
  | cons d defs ih =>
      intro values celMap
      rw [bindParams]
      cases hv : values.lookup d.name with
      | some v =>
          rw [converts_cons_of_some hv]
          simp only
          cases hcoerced : d.type.coerceValue lib v with
          | error e =>
              exact iff_of_false (Foundations.not_succeeds_error _)
                (fun h => Foundations.not_succeeds_error _ h.1)
          | ok coerced =>
              rw [and_iff_right (Foundations.succeeds_ok _)]
              exact ih
      | none =>
          rw [converts_cons_of_none hv]
          simp only
          cases hdefault : d.default with
          | none =>
              rw [and_iff_right (fun _ h => absurd h (Option.not_mem_none _))]
              exact ih
          | some expr =>
              have hone : (∀ e ∈ some expr, Foundations.Succeeds (e.evaluate ctx))
                  ↔ Foundations.Succeeds (expr.evaluate ctx) := by simp
              rw [hone]
              dsimp only
              cases hvalue : expr.evaluate ctx with
              | error e =>
                  exact iff_of_false (Foundations.not_succeeds_error _)
                    (fun h => Foundations.not_succeeds_error _ h.1)
              | ok value =>
                  rw [and_iff_right (Foundations.succeeds_ok _)]
                  exact ih

theorem boundValue_cons_of_some (hv : values.lookup d.name = some v) :
    boundValue lib ctx values (d :: defs) name
      = (boundValue lib ctx (values.erase d.name) defs name).or
          (if d.name = name then (d.type.coerceValue lib v).toOption else none) := by
  unfold boundValue
  rw [defaultsInUse_cons_of_some hv, suppliedValue_cons_of_some hv]
  by_cases h : d.name = name
  · subst h
    rw [if_pos rfl, if_pos rfl, suppliedValue_erase, Option.or_none]
  · rw [if_neg h, if_neg h, Option.or_none]

theorem boundValue_cons_of_none (hv : values.lookup d.name = none) :
    boundValue lib ctx values (d :: defs) name
      = (boundValue lib ctx values defs name).or
          (if d.name = name then d.default.bind (fun expr => (expr.evaluate ctx).toOption)
            else none) := by
  unfold boundValue
  rw [defaultsInUse_cons_of_none hv, suppliedValue_cons_of_none hv]
  by_cases h : d.name = name
  · subst h
    have hnone : suppliedValue lib values defs d.name = none := by
      rw [suppliedValue, hv, Option.bind_none]
    rw [if_pos rfl, if_pos rfl, hnone, Option.or_none, Option.or_none, List.filterMap_append,
      List.getLast?_append]
    cases d.default with
    | none => rfl
    | some expr => cases hvalue : expr.evaluate ctx <;> simp [hvalue, Except.toOption]
  · rw [if_neg h, if_neg h, List.nil_append, Option.or_none]

/-- **What the loop binds.** -/
theorem get_bindParams (defs : List ParamDefinition) :
    ∀ {values : Params} {celMap celMap' : CelMap},
      bindParams lib ctx values celMap defs = .ok celMap' →
      (∀ name, celMap'.get (.string name)
        = (boundValue lib ctx values defs name).or (celMap.get (.string name)))
      ∧ ∀ key, (∀ d ∈ defs, key ≠ .string d.name) → celMap'.get key = celMap.get key := by
  induction defs with
  | nil =>
      rintro values celMap _ ⟨⟩
      refine ⟨fun name => ?_, fun _ _ => rfl⟩
      have hnone : boundValue lib ctx values [] name = none := by
        simp [boundValue, defaultsInUse, suppliedValue, declared]
      rw [hnone, Option.none_or]
  | cons d defs ih =>
      intro values celMap celMap' h
      -- one insertion, and then the rest of the loop
      have hinsert : ∀ {values' value}, bindParams lib ctx values'
            (celMap.insert (.string d.name) value) defs = .ok celMap' →
          (∀ name, celMap'.get (.string name) = (boundValue lib ctx values' defs name).or
            ((if d.name = name then some value else none).or (celMap.get (.string name))))
          ∧ ∀ key, (∀ d' ∈ d :: defs, key ≠ .string d'.name) →
            celMap'.get key = celMap.get key := by
        intro values' value hrest
        obtain ⟨hget, hother⟩ := ih hrest
        refine ⟨fun name => ?_, fun key hkey => ?_⟩
        · rw [hget, CelMap.get_insert]
          by_cases heq : d.name = name
          · simp [heq]
          · simp [heq]
        · obtain ⟨hown, hkey⟩ := List.forall_mem_cons.mp hkey
          rw [hother key hkey, CelMap.get_insert, if_neg (Ne.symm hown)]
      rw [bindParams] at h
      cases hv : values.lookup d.name with
      | some v =>
          rw [hv] at h
          obtain ⟨coerced, hcoerced, h⟩ := Foundations.bind_eq_ok.mp h
          rw [Foundations.mapError_eq_ok] at hcoerced
          obtain ⟨hget, hother⟩ := hinsert h
          refine ⟨fun name => ?_, hother⟩
          rw [hget, boundValue_cons_of_some hv, hcoerced, Option.or_assoc]
          rfl
      | none =>
          rw [hv] at h
          simp only at h
          cases hdefault : d.default with
          | none =>
              rw [hdefault] at h
              obtain ⟨hget, hother⟩ := ih h
              refine ⟨fun name => ?_, fun key hkey => hother key (List.forall_mem_cons.mp hkey).2⟩
              rw [hget, boundValue_cons_of_none hv, hdefault, Option.bind_none, ite_self,
                Option.or_none]
          | some expr =>
              rw [hdefault] at h
              obtain ⟨value, hvalue, h⟩ := Foundations.bind_eq_ok.mp h
              rw [Foundations.mapError_eq_ok] at hvalue
              obtain ⟨hget, hother⟩ := hinsert h
              refine ⟨fun name => ?_, hother⟩
              rw [hget, boundValue_cons_of_none hv, hdefault, Option.bind_some, hvalue,
                Option.or_assoc]
              rfl

end Binding

theorem find_intoCelEntries (midnight : NaiveDate → Timestamp) (key : CelKey) :
    ∀ entries : List (CelKey × CelValue),
      (intoCelEntries (.asStored _) midnight entries).find? (fun entry => decide (entry.1 = key))
        = (entries.find? (fun entry => decide (entry.1 = key))).map
          (fun entry => (entry.1, intoCelValue (.asStored _) midnight entry.2))
  | [] => rfl
  | (key', value) :: entries => by
      rw [intoCelEntries, List.find?_cons, List.find?_cons,
        find_intoCelEntries midnight key entries]
      by_cases h : key' = key <;> simp [h]

/-- A parameter that is bound is read with the midnights of its dates. -/
theorem param_addVariable (ctx : CelContext) (celMap : CelMap) (key : CelKey) :
    (ctx.addVariable lib "params" (.map celMap)).param key
      = (celMap.get key).map (CelValue.atMidnight lib.midnight) := by
  have hbound : (ctx.addVariable lib "params" (.map celMap)).inner.vars.lookup "params"
      = some (.map (intoCelEntries (.asStored _) lib.midnight celMap)) :=
    AList.lookup_insert _
  rw [CelContext.param, hbound, CelMap.get]
  dsimp only
  rw [find_intoCelEntries]
  cases List.find? (fun entry => decide (entry.1 = key)) celMap with
  | none => rfl
  | some entry =>
      show (fromCelValue (intoCelValue (.asStored _) lib.midnight entry.2)).toOption = _
      rw [fromCelValue_intoCelValue]
      rfl

theorem param_initializeContext (now : Timestamp) (key : CelKey) :
    (initializeContext lib now).param key = none := rfl

/-- **When a context is built, and what it binds.** -/
theorem intoContext_eq_ok {values : Params} {now : Timestamp}
    {defs : Option (List ParamDefinition)} {ctx : CelContext}
    (h : values.intoContext lib now defs = .ok ctx) :
    Converts lib (initializeContext lib now) values (defs.getD [])
      ∧ (∀ name, ctx.param (.string name)
          = (boundValue lib (initializeContext lib now) values (defs.getD []) name).map
            (CelValue.atMidnight lib.midnight))
      ∧ ∀ key, (∀ d ∈ defs.getD [], key ≠ .string d.name) → ctx.param key = none := by
  cases defs with
  | none =>
      cases h
      exact ⟨⟨fun _ h => (List.not_mem_nil h).elim, fun _ h => (List.not_mem_nil h).elim⟩,
        fun name => by simp [boundValue, defaultsInUse, suppliedValue, declared,
          param_initializeContext], fun _ _ => rfl⟩
  | some defs =>
      obtain ⟨celMap, hbind, h⟩ := Foundations.bind_eq_ok.mp h
      cases h
      obtain ⟨hget, hother⟩ := get_bindParams defs hbind
      refine ⟨(succeeds_bindParams defs).mp ⟨_, hbind⟩, fun name => ?_, fun key hkey => ?_⟩
      · rw [param_addVariable, hget]
        exact congrArg _ (Option.or_none)
      · rw [param_addVariable, hother key hkey]
        rfl

theorem succeeds_intoContext {values : Params} {now : Timestamp}
    {defs : Option (List ParamDefinition)} :
    Foundations.Succeeds (values.intoContext lib now defs)
      ↔ Converts lib (initializeContext lib now) values (defs.getD []) := by
  constructor
  · rintro ⟨ctx, h⟩
    exact (intoContext_eq_ok h).1
  · intro h
    cases defs with
    | none => exact ⟨_, rfl⟩
    | some defs =>
        have hloop : Foundations.Succeeds
            (bindParams lib (initializeContext lib now) values [] defs) :=
          (succeeds_bindParams defs).mpr h
        obtain ⟨celMap, hbind⟩ := hloop
        exact ⟨_, Foundations.bind_eq_ok.mpr ⟨celMap, hbind, rfl⟩⟩

/-! ## Declared types are respected -/

/-- **What binding promises**: every value that expressions read has each type declared for its
name, no other name is bound, and a supplied value of its declared type is accepted and bound as it
is. -/
structure RespectsTypes (lib : Library) (values : Params) (now : Timestamp)
    (defs : Option (List ParamDefinition)) : Prop where
  typed : ∀ ctx, values.intoContext lib now defs = .ok ctx → ∀ d ∈ defs.getD [], ∀ v,
    ctx.param (.string d.name) = some v → d.type.HasType v
  declared : ∀ ctx, values.intoContext lib now defs = .ok ctx → ∀ key v,
    ctx.param key = some v → ∃ d ∈ defs.getD [], key = .string d.name
  kept : ∀ d ∈ defs.getD [], ∀ v, values.lookup d.name = some v → d.type.HasType v →
    d.type.coerceValue lib v = .ok v
      ∧ ∀ ctx, values.intoContext lib now defs = .ok ctx →
        ctx.param (.string d.name) = some v

/-- **The condition on the declarations, the supplied values and the defaults.** -/
structure FitsDeclarations (lib : Library) (ctx : CelContext) (values : Params)
    (defs : List ParamDefinition) : Prop where
  /-- no timestamp is supplied for a `Timestamp` -/
  timestamps : ∀ d ∈ defs, d.type = .timestamp → ∀ ts, values.lookup d.name ≠ some (.timestamp ts)
  /-- the supplied value that is bound has no date in it -/
  dates : Converts lib ctx values defs → ∀ d ∈ defs, defaultsInUse values defs d.name = [] →
    ∀ value, suppliedValue lib values defs d.name = some value → value.DateFree
  /-- the last default in use evaluates to a value of the declared type, and not to another one than
  a supplied value of that type -/
  defaults : Converts lib ctx values defs → ∀ d ∈ defs,
    ∀ expr ∈ (defaultsInUse values defs d.name).getLast?, ∀ value, expr.evaluate ctx = .ok value →
      d.type.HasType value
        ∧ ∀ v, values.lookup d.name = some v → d.type.HasType v → value = v
  /-- a name declared again without a default: the supplied value, coerced to the first type, has
  the others too, and is not another one than it was -/
  repeated : Converts lib ctx values defs → ∀ d ∈ defs, defaultsInUse values defs d.name = [] →
    ∀ value, suppliedValue lib values defs d.name = some value →
      d.type.HasType value
        ∧ ∀ v, values.lookup d.name = some v → d.type.HasType v → value = v

section Fits

variable {ctx : CelContext} {values : Params} {defs : List ParamDefinition}

/-- Where every default in use can be evaluated, the last one is bound. -/
theorem boundValue_of_defaults (h : Converts lib ctx values defs) {name : String}
    {expr : CelExpression} (hexpr : (defaultsInUse values defs name).getLast? = some expr) :
    ∃ value, expr.evaluate ctx = .ok value ∧ boundValue lib ctx values defs name = some value := by
  obtain ⟨front, hfront⟩ := List.getLast?_eq_some_iff.mp hexpr
  have hmem : expr ∈ defaultsInUse values defs name := by
    rw [hfront]
    exact List.mem_append_right _ (List.mem_singleton_self _)
  obtain ⟨d, hd, rfl⟩ := exists_declared_of_mem hmem
  obtain ⟨value, hvalue⟩ := h.defaults d hd expr hmem
  refine ⟨value, hvalue, ?_⟩
  rw [boundValue, hfront, List.filterMap_append]
  simp [hvalue, Except.toOption]

theorem boundValue_of_supplied {name : String} (h : defaultsInUse values defs name = []) :
    boundValue lib ctx values defs name = suppliedValue lib values defs name := by
  rw [boundValue, h]
  rfl

/-- A property of what is bound, read off the defaults in use and the supplied values. -/
theorem forall_boundValue (h : Converts lib ctx values defs) {name : String}
    {p : CelValue → Prop} :
    (∀ value, boundValue lib ctx values defs name = some value → p value)
      ↔ (∀ expr ∈ (defaultsInUse values defs name).getLast?, ∀ value,
            expr.evaluate ctx = .ok value → p value)
        ∧ (defaultsInUse values defs name = [] →
          ∀ value, suppliedValue lib values defs name = some value → p value) := by
  cases hlast : (defaultsInUse values defs name).getLast? with
  | none =>
      have hnil := List.getLast?_eq_none_iff.mp hlast
      rw [boundValue_of_supplied hnil, hnil]
      simp
  | some expr =>
      have hne : defaultsInUse values defs name ≠ [] := by
        intro hnil
        rw [hnil] at hlast
        cases hlast
      obtain ⟨value, hvalue, hbound⟩ := boundValue_of_defaults h hlast
      rw [hbound]
      simp [hvalue, hne]

theorem dateFree_evaluate {expr : CelExpression} {value : CelValue}
    (h : expr.evaluate ctx = .ok value) : value.DateFree := by
  obtain ⟨v, -, hv⟩ := Foundations.bind_eq_ok.mp h
  exact dateFree_fromCelValue hv

/-- The condition, read off what is bound. -/
theorem FitsDeclarations.bound (h : FitsDeclarations lib ctx values defs)
    (hconverts : Converts lib ctx values defs) {d : ParamDefinition} (hd : d ∈ defs)
    {value : CelValue} (hvalue : boundValue lib ctx values defs d.name = some value) :
    value.DateFree
      ∧ d.type.HasType value
      ∧ ∀ v, values.lookup d.name = some v → d.type.HasType v → value = v :=
  (forall_boundValue (p := fun value => value.DateFree ∧ d.type.HasType value
    ∧ ∀ v, values.lookup d.name = some v → d.type.HasType v → value = v) hconverts).mpr
    ⟨fun expr hexpr value hvalue =>
      ⟨dateFree_evaluate hvalue, h.defaults hconverts d hd expr hexpr value hvalue⟩,
      fun hnone value hvalue =>
        ⟨h.dates hconverts d hd hnone value hvalue, h.repeated hconverts d hd hnone value hvalue⟩⟩
    value hvalue

theorem isSome_boundValue (hconverts : Converts lib ctx values defs) {d : ParamDefinition}
    (hd : d ∈ defs) {v : CelValue} (hv : values.lookup d.name = some v) :
    (boundValue lib ctx values defs d.name).isSome := by
  rw [boundValue, Option.isSome_or, hconverts.supplied d hd v hv, Bool.or_true]

end Fits

/-- A value of type `Timestamp` is a timestamp. -/
theorem hasType_timestamp {v : CelValue} (h : ParamDataType.timestamp.HasType v) :
    ∃ ts, v = .timestamp ts := by
  cases v <;> first | exact ⟨_, rfl⟩ | cases h

/-- A supplied value that is bound, and reads as promised, has no date in it. -/
theorem dateFree_of_reads {ctx : CelContext} {values : Params} {defs : List ParamDefinition}
    (hreads : ∀ d ∈ defs, ∀ value, boundValue lib ctx values defs d.name = some value →
      d.type.HasType (value.atMidnight lib.midnight)
        ∧ ∀ v, values.lookup d.name = some v → d.type.HasType v →
          value.atMidnight lib.midnight = v)
    {name : String} (hnone : defaultsInUse values defs name = []) {value : CelValue}
    (hvalue : suppliedValue lib values defs name = some value) : value.DateFree := by
  have hbound : boundValue lib ctx values defs name = some value :=
    (boundValue_of_supplied hnone).trans hvalue
  obtain ⟨v, hv, hhead⟩ := Option.bind_eq_some_iff.mp hvalue
  obtain ⟨first, hfirst, hresult⟩ := Option.bind_eq_some_iff.mp hhead
  have hcoerced := Foundations.toOption_eq_some.mp hresult
  obtain ⟨hmem, hname⟩ := List.mem_filter.mp (List.mem_of_head? hfirst)
  obtain rfl : first.name = name := of_decide_eq_true hname
  obtain ⟨htype, hkept⟩ := hreads first hmem value hbound
  have howntype := hasType_of_coerceValue hcoerced
  by_cases hsame : value = v
  · subst hsame
    exact (atMidnight_eq_self lib.midnight).mp (hkept value hv howntype)
  · refine dateFree_of_coerceValue hcoerced hsame (fun hdate => ?_)
    -- a date is read as a timestamp
    rw [hdate] at htype howntype
    cases value with
    | date d => cases htype
    | _ => cases howntype

/-- **When binding respects the declared types**: no timestamp is supplied for a `Timestamp`
parameter and no date is bound at all, and the defaults in use, with the values of names declared
more than once, have the declared types of themselves. -/
theorem params_respect_types_iff (lib : Library)
    (news : Option (List (NewParamDefinition lib))) (values : Params) (now : Timestamp) :
    RespectsTypes lib values now (news.map (List.map ParamDefinition.ofNew))
      ↔ FitsDeclarations lib (initializeContext lib now) values
          ((news.map (List.map ParamDefinition.ofNew)).getD []) := by
  generalize news.map (List.map ParamDefinition.ofNew) = defs
  constructor
  · intro h
    -- what is bound is read so that both parts of the promise hold
    have hreads : Converts lib (initializeContext lib now) values (defs.getD []) →
        ∀ d ∈ defs.getD [], ∀ value,
          boundValue lib (initializeContext lib now) values (defs.getD []) d.name = some value →
          d.type.HasType (value.atMidnight lib.midnight)
            ∧ ∀ v, values.lookup d.name = some v → d.type.HasType v →
              value.atMidnight lib.midnight = v := by
      intro hconverts d hd value hvalue
      obtain ⟨ctx, hctx⟩ := succeeds_intoContext.mpr hconverts
      obtain ⟨-, hget, -⟩ := intoContext_eq_ok hctx
      have hget := hget d.name
      rw [hvalue, Option.map_some] at hget
      refine ⟨h.typed ctx hctx d hd _ hget, fun v hv htype => ?_⟩
      have hkept := (h.kept d hd v hv htype).2 ctx hctx
      exact Option.some.inj (hget.symm.trans hkept)
    refine ⟨fun d hd htype ts hts => ?_, fun hconverts d hd hnone value hvalue => ?_,
      fun hconverts d hd expr hexpr value hvalue => ?_,
      fun hconverts d hd hnone value hvalue => ?_⟩
    · have hcoerced := (h.kept d hd (.timestamp ts) hts (by rw [htype]; rfl)).1
      rw [htype] at hcoerced
      exact coerceValue_timestamp _ ⟨_, hcoerced⟩
    · exact dateFree_of_reads (hreads hconverts) hnone hvalue
    · obtain ⟨value', hvalue', hbound⟩ := boundValue_of_defaults hconverts hexpr
      obtain rfl := Except.ok.inj (hvalue.symm.trans hvalue')
      have hread := hreads hconverts d hd value hbound
      rwa [(atMidnight_eq_self lib.midnight).mpr (dateFree_evaluate hvalue)] at hread
    · have hfree := dateFree_of_reads (hreads hconverts) hnone hvalue
      have hread := hreads hconverts d hd value ((boundValue_of_supplied hnone).trans hvalue)
      rwa [(atMidnight_eq_self lib.midnight).mpr hfree] at hread
  · intro h
    -- what is bound is read as it is
    have hget : ∀ {ctx d value}, values.intoContext lib now defs = .ok ctx → d ∈ defs.getD [] →
        boundValue lib (initializeContext lib now) values (defs.getD []) d.name = some value →
        ctx.param (.string d.name) = some value ∧ d.type.HasType value
          ∧ ∀ v, values.lookup d.name = some v → d.type.HasType v → value = v := by
      intro ctx d value hctx hd hvalue
      obtain ⟨hconverts, hget, -⟩ := intoContext_eq_ok hctx
      obtain ⟨hfree, htypes⟩ := h.bound hconverts hd hvalue
      refine ⟨?_, htypes⟩
      rw [hget, hvalue, Option.map_some, (atMidnight_eq_self lib.midnight).mpr hfree]
    refine ⟨fun ctx hctx d hd v hv => ?_, fun ctx hctx key v hv => ?_, fun d hd v hv htype => ?_⟩
    · obtain ⟨hconverts, hparam, -⟩ := intoContext_eq_ok hctx
      rw [hparam] at hv
      obtain ⟨value, hvalue, -⟩ := Option.map_eq_some_iff.mp hv
      obtain ⟨hread, htypes⟩ := hget hctx hd hvalue
      rw [← hparam, hread] at hv
      obtain rfl := Option.some.inj hv
      exact htypes.1
    · obtain ⟨-, -, hother⟩ := intoContext_eq_ok hctx
      by_contra hnone
      rw [hother key (fun d hd hkey => hnone ⟨d, hd, hkey⟩)] at hv
      cases hv
    · refine ⟨coerceValue_of_hasType htype (fun htimestamp => ?_), fun ctx hctx => ?_⟩
      · rw [htimestamp] at htype
        obtain ⟨ts, rfl⟩ := hasType_timestamp htype
        exact h.timestamps d hd htimestamp ts hv
      · obtain ⟨hconverts, -, -⟩ := intoContext_eq_ok hctx
        obtain ⟨value, hvalue⟩ := Option.isSome_iff_exists.mp (isSome_boundValue hconverts hd hv)
        obtain ⟨hread, htypes⟩ := hget hctx hd hvalue
        rw [hread, htypes.2 v hv htype]

/-- **With names declared once, only a timestamp, a date or a default in use can be wrong.** -/
theorem fitsDeclarations_of_distinct {lib : Library} {ctx : CelContext} {values : Params}
    {defs : List ParamDefinition} (hdistinct : (defs.map ParamDefinition.name).Nodup) :
    FitsDeclarations lib ctx values defs
      ↔ (∀ d ∈ defs, d.type = .timestamp → ∀ ts, values.lookup d.name ≠ some (.timestamp ts))
        ∧ (Converts lib ctx values defs → ∀ d ∈ defs, ∀ v, values.lookup d.name = some v →
          d.type ≠ .date ∧ v.DateFree)
        ∧ (Converts lib ctx values defs → ∀ d ∈ defs, values.lookup d.name = none →
          ∀ expr ∈ d.default, ∀ value, expr.evaluate ctx = .ok value → d.type.HasType value) := by
  have hdeclared : ∀ d ∈ defs, declared defs d.name = [d] := by
    intro d hd
    obtain ⟨front, back, rfl⟩ := List.append_of_mem hd
    rw [List.map_append, List.map_cons, List.nodup_append, List.nodup_cons] at hdistinct
    obtain ⟨-, ⟨hback, -⟩, hfront⟩ := hdistinct
    have hnone : ∀ part : List ParamDefinition, (∀ d' ∈ part, d'.name ≠ d.name) →
        declared part d.name = [] := by
      intro part hpart
      exact List.filter_eq_nil_iff.mpr (fun d' hd' h => hpart d' hd' (of_decide_eq_true h))
    rw [declared, List.filter_append, List.filter_cons_of_pos (by simp)]
    change declared front d.name ++ d :: declared back d.name = [d]
    rw [hnone front (fun d' hd' => hfront _ (List.mem_map_of_mem hd') _ List.mem_cons_self),
      hnone back (fun d' hd' h => hback (h ▸ List.mem_map_of_mem hd')), List.nil_append]
  have huse : ∀ d ∈ defs, defaultsInUse values defs d.name
      = if (values.lookup d.name).isSome then [] else d.default.toList := by
    intro d hd
    rw [defaultsInUse, hdeclared d hd]
    split
    · rfl
    · cases hdefault : d.default <;> simp [hdefault]
  have hsupplied : ∀ d ∈ defs, ∀ v value, values.lookup d.name = some v →
      (suppliedValue lib values defs d.name = some value
        ↔ d.type.coerceValue lib v = .ok value) := by
    intro d hd v value hv
    rw [suppliedValue, hv, hdeclared d hd]
    exact Foundations.toOption_eq_some
  constructor
  · intro h
    refine ⟨h.timestamps, fun hconverts d hd v hv => ?_,
      fun hconverts d hd hnone expr hexpr value hvalue => ?_⟩
    · obtain ⟨value, hvalue⟩ := Option.isSome_iff_exists.mp (hconverts.supplied d hd v hv)
      refine (dateFree_coerceValue ((hsupplied d hd v value hv).mp hvalue)).mp
        (h.dates hconverts d hd ?_ value hvalue)
      rw [huse d hd, hv]
      rfl
    · refine (h.defaults hconverts d hd expr ?_ value hvalue).1
      rw [huse d hd, hnone, Option.mem_def.mp hexpr]
      rfl
  · rintro ⟨htimestamps, hdates, hdefaults⟩
    refine ⟨htimestamps, fun hconverts d hd _ value hvalue => ?_,
      fun hconverts d hd expr hexpr value hvalue => ?_, fun hconverts d hd _ value hvalue => ?_⟩
    · obtain ⟨v, hv, -⟩ := Option.bind_eq_some_iff.mp hvalue
      exact (dateFree_coerceValue ((hsupplied d hd v value hv).mp hvalue)).mpr
        (hdates hconverts d hd v hv)
    · rw [huse d hd] at hexpr
      cases hv : values.lookup d.name with
      | some v =>
          rw [hv] at hexpr
          cases hexpr
      | none =>
          refine ⟨hdefaults hconverts d hd hv expr ?_ value hvalue, fun v h => nomatch h⟩
          rw [hv] at hexpr
          cases hdefault : d.default with
          | none =>
              rw [hdefault] at hexpr
              cases hexpr
          | some e =>
              rw [hdefault] at hexpr
              exact hexpr
    · obtain ⟨v, hv, -⟩ := Option.bind_eq_some_iff.mp hvalue
      have hcoerced := (hsupplied d hd v value hv).mp hvalue
      have htype := hasType_of_coerceValue hcoerced
      refine ⟨htype, fun v' hv' htype' => ?_⟩
      rw [hv] at hv'
      cases hv'
      have hne : d.type ≠ .timestamp := by
        rintro heq
        rw [heq] at hcoerced
        exact coerceValue_timestamp _ ⟨_, hcoerced⟩
      rw [coerceValue_of_hasType htype' hne] at hcoerced
      exact (Except.ok.inj hcoerced).symm

/-! ## A date and a timestamp -/

/-- Days of 86400 seconds, and the one expression `date()`. -/
def sampleLibrary : Library :=
  { parseUuid := fun s => .error s
    parseDecimal := fun s => .error s
    parseDate := fun s => .error s
    dateNaive := fun ts => ts / 86400
    midnight := fun d => d * 86400
    compile := fun source =>
      if source = "date()" then
        .ok ⟨source, fun ctx => .ok (.timestamp (ctx.now / 86400 * 86400))⟩
      else
        .error ⟨source⟩
    debug := fun _ => "" }

/-- The day of the posting, unless another is given. -/
def effectiveParam : NewParamDefinition sampleLibrary :=
  { name := "effective"
    type := .date
    default := some "date()"
    description := none
    accepted := ⟨0, rfl⟩ }

def instantParam : NewParamDefinition sampleLibrary :=
  { name := "instant"
    type := .timestamp
    default := none
    description := none
    accepted := ⟨0, rfl⟩ }

/-- The default of a date binds a timestamp, as a date that is supplied does, and a timestamp is
refused where one is declared. -/
theorem params_lose_types :
    (∃ ctx ts, Params.intoContext sampleLibrary ∅ 0 (some [.ofNew effectiveParam]) = .ok ctx
        ∧ ctx.param (.string "effective") = some (.timestamp ts))
      ∧ ¬ RespectsTypes sampleLibrary ∅ 0 ((some [effectiveParam]).map
          (List.map ParamDefinition.ofNew))
      ∧ ¬ RespectsTypes sampleLibrary (AList.singleton "effective" (.date 1)) 0
          ((some [effectiveParam]).map (List.map ParamDefinition.ofNew))
      ∧ ¬ RespectsTypes sampleLibrary (AList.singleton "instant" (.timestamp 0)) 0
          ((some [instantParam]).map (List.map ParamDefinition.ofNew)) := by
  refine ⟨⟨_, 0, rfl, rfl⟩, fun h => ?_, fun h => ?_, fun h => ?_⟩
  · exact absurd (h.typed _ rfl _ List.mem_cons_self _ rfl) CelType.noConfusion
  · exact absurd (h.typed _ rfl _ List.mem_cons_self _ rfl) CelType.noConfusion
  · have hkept := h.kept _ List.mem_cons_self (.timestamp 0) rfl rfl
    exact coerceValue_timestamp _ ⟨_, hkept.1⟩

end Param

end CalaLedger
