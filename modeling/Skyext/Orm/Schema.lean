import Mathlib.Data.List.Lookmap
import Skyext.Config.Numeral

namespace Skyext.Orm
set_option autoImplicit true

/-- A Lua value that is no table. -/
inductive Scalar
  | number (x : LuaNumber)
  | string (s : String)
  | boolean (b : Bool)
  deriving DecidableEq

/-- `==` of such values -/
def Scalar.equals : Scalar → Scalar → Bool
  | .number x, .number y => x.equals y
  | s, s' => s = s'

theorem Scalar.equals_comm (s s' : Scalar) : s.equals s' = s'.equals s := by
  cases s <;> cases s'
  case number.number x y => exact x.equals_comm y
  all_goals simp only [Scalar.equals, eq_comm]

/-- A key that documents hold. Any other one is refused or is taken for what `math.tointeger` or
`tostring` makes of it. -/
inductive Key
  | integer (n : Int)
  | string (s : String)
  deriving DecidableEq

/-- A table of the generated schema; the structures and containers go by their names. -/
inductive SchemaType
  | integer
  | number
  | string
  | boolean
  | schema (name : String)
  deriving DecidableEq

inductive SchemaDef
  | struct (fields : List (String × SchemaType))
  | map (key value : SchemaType)
  | array (value : SchemaType)
  deriving DecidableEq

abbrev Schemas := String → Option SchemaDef

inductive Error
  | notEqualKey
  | notEqualValue
  | notExistKey
  | notSupportKey
  | needSchema
  | nonRoot
  | outOfBounds
  | compare
  | circular
  deriving DecidableEq

def Key.toInteger : Key → Option Int
  | .integer n => some n
  | .string s =>
    match Config.tonumber s.toByteArray.data.toList with
    | some (.integer n) => some n
    | some (.float f) => LuaNumber.floatToInteger f
    | _ => none

def parseKTp (k : Key) : SchemaType → Except Error Key
  | .integer =>
    match k.toInteger with
    | some n => .ok (.integer n)
    | none => .error .notEqualKey
  | .string =>
    match k with
    | .integer n => .ok (.string (toString n))
    | .string s => .ok (.string s)
  | _ => .error .notSupportKey

def checkKTp (k : Key) : SchemaType → Except Error Unit
  | .integer =>
    match k with
    | .integer _ => .ok ()
    | .string _ => .error .notEqualKey
  | .string =>
    match k with
    | .integer _ => .error .notEqualKey
    | .string _ => .ok ()
  | _ => .error .notSupportKey

/-- Of a document it is the schema that is compared. -/
def checkVTp (v : Scalar ⊕ SchemaType) (need : SchemaType) : Except Error Unit :=
  let fits : Bool :=
    match need, v with
    | .integer, .inl (.number x) => x.toInteger.isSome
    | .number, .inl (.number _) => true
    | .string, .inl (.string _) => true
    | .boolean, .inl (.boolean _) => true
    | .schema name, .inr schema => schema = .schema name
    | _, _ => false
  if fits then .ok () else .error .notEqualValue

namespace SchemaType

variable (schemas : Schemas)

/-- `schema[k]` of a key that is not the name of a member -/
def index (schema : SchemaType) (k : Key) : Option SchemaType :=
  match schema with
  | .schema name =>
    match schemas name, k with
    | some (.struct fields), .string field => fields.lookup field
    | some (.struct _), .integer _ => none
    | some (.map _ value), _ => some value
    | some (.array value), _ => some value
    | none, _ => none
  | _ => none

def keyType (schema : SchemaType) : Option SchemaType :=
  match schema with
  | .schema name =>
    match schemas name with
    | some (.map key _) => some key
    | some (.array _) => some .integer
    | _ => none
  | _ => none

def parseK (schema : SchemaType) (k : Key) : Except Error Key :=
  match schema.keyType schemas with
  | some key => parseKTp k key
  | none => if (schema.index schemas k).isSome then .ok k else .error .notExistKey

def checkK (schema : SchemaType) (k : Key) : Except Error Unit :=
  match schema.keyType schemas with
  | some key => checkKTp k key
  | none => if (schema.index schemas k).isSome then .ok () else .error .notExistKey

def checkKv (schema : SchemaType) (k : Key) (v : Scalar ⊕ SchemaType) : Except Error Unit :=
  match schema.index schemas k with
  | some need =>
    match schema.keyType schemas with
    | some key => do
      checkKTp k key
      checkVTp v need
    | none => checkVTp v need
  | none => .error .notExistKey

def IsSchema : SchemaType → Prop
  | .schema _ => True
  | _ => False

instance (schema : SchemaType) : Decidable schema.IsSchema := by
  cases schema <;> unfold IsSchema <;> infer_instance

variable {schemas} {schema need key : SchemaType} {k k' : Key}

theorem checkVTp_equals {s s' : Scalar} (h : s.equals s' = true) (need : SchemaType) :
    checkVTp (.inl s) need = checkVTp (.inl s') need := by
  have hplain : s = s' → checkVTp (.inl s) need = checkVTp (.inl s') need := by
    rintro rfl
    rfl
  cases s with
  | number x =>
    cases s' with
    | number y => cases need <;> simp [checkVTp, LuaNumber.equals_toInteger h]
    | _ => exact hplain (of_decide_eq_true h)
  | _ => exact hplain (of_decide_eq_true h)

theorem IsSchema.check (hn : need.IsSchema) : checkVTp (.inr need) need = .ok () := by
  cases need with
  | schema name => simp [checkVTp]
  | _ => exact hn.elim

theorem parseKTp_check (hp : parseKTp k key = .ok k') : checkKTp k' key = .ok () := by
  cases key with
  | integer =>
    simp only [parseKTp] at hp
    split at hp
    · cases hp
      rfl
    · cases hp
  | string => cases k <;> cases hp <;> rfl
  | _ => cases hp

/-- The slots of a container are all of one type; nothing else has integer keys. -/
theorem container_cases (schemas : Schemas) (schema : SchemaType) :
    (∃ key value, schema.keyType schemas = some key ∧ ∀ k, schema.index schemas k = some value) ∨
      schema.keyType schemas = none ∧ ∀ n, schema.index schemas (.integer n) = none := by
  cases schema with
  | schema name =>
    rcases hs : schemas name with _ | (fields | ⟨key, value⟩ | value)
    · exact .inr (by simp only [keyType, index, hs, implies_true, and_self])
    · exact .inr (by simp only [keyType, index, hs, implies_true, and_self])
    · exact .inl ⟨key, value, by simp only [keyType, index, hs, implies_true, and_self]⟩
    · exact .inl ⟨.integer, value, by simp only [keyType, index, hs, implies_true, and_self]⟩
  | _ => exact .inr ⟨rfl, fun _ => rfl⟩

/-- A key that has been parsed passes its check, and its slot is of the same type. -/
theorem parseK_spec (hp : schema.parseK schemas k = .ok k') :
    schema.checkK schemas k' = .ok () ∧ schema.index schemas k' = schema.index schemas k := by
  rcases container_cases schemas schema with ⟨key, value, hkey, hi⟩ | ⟨hkey, _⟩
  · simp only [parseK, hkey] at hp
    simp only [checkK, hkey, hi]
    exact ⟨parseKTp_check hp, trivial⟩
  · simp only [parseK, hkey] at hp
    split at hp
    · next hi =>
      cases hp
      simp only [checkK, hkey, hi, if_true]
      exact ⟨trivial, trivial⟩
    · cases hp

theorem index_of_checkK (hc : schema.checkK schemas k = .ok ()) :
    ∃ need, schema.index schemas k = some need := by
  rcases container_cases schemas schema with ⟨key, value, hkey, hi⟩ | ⟨hkey, _⟩
  · exact ⟨value, hi k⟩
  · simp only [checkK, hkey] at hc
    split at hc
    · next hi => exact Option.isSome_iff_exists.mp hi
    · cases hc

theorem index_of_parseK (hp : (schema.parseK schemas k).isOk) :
    ∃ need, schema.index schemas k = some need := by
  cases hk : schema.parseK schemas k with
  | error e =>
    rw [hk] at hp
    cases hp
  | ok k' =>
    obtain ⟨hc, hi⟩ := parseK_spec hk
    exact hi ▸ index_of_checkK hc

theorem checkK_integer {m : Int} (hc : schema.checkK schemas (.integer m) = .ok ()) :
    schema.keyType schemas = some .integer := by
  rcases container_cases schemas schema with ⟨key, value, hkey, hi⟩ | ⟨hkey, hi⟩
  · simp only [checkK, hkey] at hc
    cases key with
    | integer => exact hkey
    | _ => cases hc
  · simp only [checkK, hkey, hi] at hc
    cases hc

theorem keyType_integer (hk : schema.keyType schemas = some .integer) (m : Int) :
    schema.checkK schemas (.integer m) = .ok () ∧
      schema.parseK schemas (.integer m) = .ok (.integer m) := by
  simp only [checkK, parseK, hk]
  exact ⟨rfl, rfl⟩

theorem index_container (hk : schema.keyType schemas = some key) (k k' : Key) :
    schema.index schemas k = schema.index schemas k' := by
  rcases container_cases schemas schema with ⟨_, value, _, hi⟩ | ⟨hn, _⟩
  · rw [hi, hi]
  · cases hk.symm.trans hn

theorem checkKv_doc (hc : schema.checkK schemas k = .ok ())
    (hi : schema.index schemas k = some need) (hn : need.IsSchema) :
    schema.checkKv schemas k (.inr need) = .ok () := by
  rcases container_cases schemas schema with ⟨key, value, hkey, _⟩ | ⟨hkey, _⟩
  · simp only [checkK, hkey] at hc
    simp only [checkKv, hi, hkey, hc]
    exact hn.check
  · simp only [checkKv, hi, hkey]
    exact hn.check

end SchemaType

end Skyext.Orm
