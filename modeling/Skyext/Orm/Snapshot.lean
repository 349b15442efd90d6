import Skyext.Orm.System

namespace Skyext.Orm
set_option autoImplicit true

/-- A plain copy; `array` says whether it is encoded as an array. -/
inductive Bson
  | scalar (s : Scalar)
  | table (array : Bool) (entries : List (Key × Bson))

variable (schemas : Schemas)

def SchemaType.isArray (schema : SchemaType) : Bool :=
  match schema with
  | .schema name =>
    match schemas name with
    | some (.array _) => true
    | _ => false
  | _ => false

/-- The keys of a map are written as strings. -/
def SchemaType.bsonKey (schema : SchemaType) (k : Key) : Key :=
  match schema with
  | .schema name =>
    match schemas name, k with
    | some (.map ..), .integer n => .string (toString n)
    | _, _ => k
  | _ => k

def copyEntry (schema : SchemaType) (copy : Nat → Except Error Bson)
    (e : (_ : Key) × Value) : Except Error (Key × Bson) :=
  match e.2 with
  | .scalar s => .ok (schema.bsonKey schemas e.1, .scalar s)
  | .doc c => (copy c).map fun b => (schema.bsonKey schemas e.1, b)

/-- `copy_bson` of a document; a path of more than all documents meets one of them again. -/
def copyBsonFrom : Nat → Heap → Nat → Except Error Bson
  | 0, _, _ => .error .circular
  | n + 1, h, d =>
    ((h.docs d).stage.entries.mapM (copyEntry schemas (h.schema d) (copyBsonFrom n h))).map
      (.table ((h.schema d).isArray schemas))

def toBson (h : Heap) (d : Nat) : Except Error Bson := copyBsonFrom schemas h.size h d

end Skyext.Orm
