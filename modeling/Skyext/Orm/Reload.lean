import Skyext.Orm.Writes

namespace Skyext.Orm
set_option autoImplicit true

/-- A schema table: its name, what it defines, and the table its `new` makes documents of. -/
structure Table where
  name : String
  type : SchemaDef
  maker : String

/-- One type of a chunk that `gen_schema` makes; it refers to other types by their addresses. -/
structure Definition where
  address : String
  name : String
  type : SchemaDef
  deriving DecidableEq

def Definition.table (n : Definition) : Table := ⟨n.name, n.type, n.address⟩

/-- The types of the fields or of the elements. -/
def SchemaDef.types : SchemaDef → List SchemaType
  | .struct fields => fields.map Prod.snd
  | .map _ value => [value]
  | .array value => [value]

/-- The types at keys that can be parsed; a map has only keys of two types. -/
def SchemaDef.declared : SchemaDef → List SchemaType
  | .map key value => if key = .integer ∨ key = .string then [value] else []
  | type => type.types

/-- The fields of a structure have different names. -/
def SchemaDef.Distinct : SchemaDef → Prop
  | .struct fields => (fields.map Prod.fst).Nodup
  | _ => True

instance (type : SchemaDef) : Decidable type.Distinct := by
  cases type <;> unfold SchemaDef.Distinct <;> infer_instance

/-- The tables are distinct and so are their names, and every type that is used is there. -/
def Generated (chunk : List Definition) : Prop :=
  (chunk.map Definition.address).Nodup ∧ (chunk.map Definition.name).Nodup ∧
    ∀ n ∈ chunk, n.type.Distinct ∧ ∀ need ∈ n.type.types,
      need.IsSchema → need ∈ chunk.map fun m => SchemaType.schema m.address

instance (chunk : List Definition) : Decidable (Generated chunk) :=
  inferInstanceAs (Decidable (_ ∧ _))

/-- The process: its schema tables by address, the schema table `old` with the address of every
type, the chunk that was loaded last, and the documents, less those that nothing refers to any
more. -/
structure Process where
  tables : String → Option Table
  old : AList fun _ : String => String
  newest : List Definition
  heap : Heap
  dropped : List Nat

namespace Process

def schemas (s : Process) : Schemas := fun a => (s.tables a).map Table.type

def load (s : Process) (chunk : List Definition) : Process :=
  { s with
    tables := fun a => ((chunk.find? fun n => n.address = a).map Definition.table).or (s.tables a)
    newest := chunk }

/-- The first loop of `reload_schema`: the members and the metatable of a new table go into the
old one, and a type that is gone is taken out. -/
def copy (new : List Definition) (s : Process) (e : (_ : String) × String) : Process :=
  match new.find? fun n => n.name = e.1 with
  | some n => { s with tables := fun a => if a = e.2 then some n.table else s.tables a }
  | none => { s with old := s.old.erase e.1 }

/-- The second loop: a new type is taken in with its own table. -/
def add (s : Process) (n : Definition) : Process :=
  if (s.old.lookup n.name).isNone then { s with old := s.old.insert n.name n.address } else s

def reloadSchema (s : Process) (new : List Definition) : Process :=
  new.foldl add (s.old.entries.foldl (copy new) s)

def Holds (s : Process) (d : Nat) : Prop := d < s.heap.size ∧ d ∉ s.dropped

instance (s : Process) (d : Nat) : Decidable (s.Holds d) := inferInstanceAs (Decidable (_ ∧ _))

end Process

/-- The documents an operation is given. -/
def Action.docs : Action → List Nat
  | .new _ init => docsOf init
  | .assign d _ v => d :: (v.map Arg.docs).getD []
  | .insert d _ index v => d :: ((index.map Arg.docs).getD [] ++ (v.map Arg.docs).getD [])
  | .remove d _ _ => [d]
  | .clone d => [d]

def Action.isNew : Action → Bool
  | .new .. => true
  | _ => false

inductive ReloadAction
  | reload (chunk : List Definition)
  /-- `old.X.new(init)` -/
  | create (name : String) (init : List (Key × Arg))
  | edit (a : Action)
  /-- Nothing refers to these documents any more. -/
  | drop (docs : List Nat)

namespace Process

def edit (s : Process) (a : Action) : Option Process :=
  if ∀ d ∈ a.docs, s.Holds d then (Orm.step s.schemas s.heap a).map fun h => { s with heap := h }
  else none

/-- No document that is still held has one of these in a slot or as its parent. -/
def Unreferenced (s : Process) (docs : List Nat) : Prop :=
  ∀ d < s.heap.size, s.Holds d → d ∉ docs →
    (∀ c ∈ s.heap.children d, c ∉ docs) ∧ ∀ p ∈ s.heap.parent d, p ∉ docs

instance (s : Process) (docs : List Nat) : Decidable (s.Unreferenced docs) := by
  unfold Unreferenced
  have (d : Nat) : Decidable (∀ p ∈ s.heap.parent d, p ∉ docs) := inferInstance
  have (d : Nat) : Decidable (∀ c ∈ s.heap.children d, c ∉ docs) := inferInstance
  infer_instance

def step (s : Process) : ReloadAction → Option Process
  | .reload chunk =>
    if Generated chunk ∧ ∀ n ∈ chunk, (s.tables n.address).isNone then
      some ((s.load chunk).reloadSchema chunk)
    else none
  | .create name init =>
    (s.old.lookup name).bind fun address =>
      (s.tables address).bind fun table => s.edit (.new (.schema table.maker) init)
  | .edit a => if a.isNew then none else s.edit a
  | .drop docs => if s.Unreferenced docs then some { s with dropped := docs ++ s.dropped } else none

/-- What `require` of the first chunk gives. -/
def first (chunk : List Definition) (heap : Heap) : Process where
  tables a := (chunk.find? fun n => n.address = a).map Definition.table
  old := chunk.foldl (fun old n => old.insert n.name n.address) ∅
  newest := chunk
  heap := heap
  dropped := []

def system : Machine.System Process ReloadAction where
  init s := ∃ chunk heap, Generated chunk ∧ heap.size = 0 ∧ s = first chunk heap
  step := step

/-- Every document is of a type of the newest chunk and is checked against what that defines. -/
def Checked (s : Process) : Prop :=
  ∀ d, s.Holds d → ∀ a, s.heap.schema d = .schema a → ∃ table, s.tables a = some table ∧
    ∃ n ∈ s.newest, n.name = table.name ∧ n.type = table.type

def defined (chunk : List Definition) : Schemas := fun a =>
  (chunk.find? fun n => n.address = a).map Definition.type

/-- A chunk declares a type at a key of the documents of another. -/
def Declares (chunk : List Definition) (n : Definition) (k : Key) (m : Definition) : Prop :=
  n ∈ chunk ∧ m ∈ chunk ∧ ((SchemaType.schema n.address).parseK (defined chunk) k).isOk ∧
    (SchemaType.schema n.address).index (defined chunk) k = some (.schema m.address)

def typeName (s : Process) (d : Nat) : Option String :=
  match s.heap.schema d with
  | .schema a => (s.tables a).map Table.name
  | _ => none

/-- A document is of the type wherever the newest chunk declares one of that name. -/
def Accepted (s : Process) : Prop :=
  ∀ c n k m, s.Holds c → Declares s.newest n k m → s.typeName c = some m.name →
    checkVTp (.inr (s.heap.schema c)) (.schema m.address) = .ok ()

/-- A detached document can be assigned wherever the newest chunk declares its type: that raises no
error, and it returns where the chain of parents of the container ends without the document. -/
def Assignable (s : Process) : Prop :=
  ∀ d c k n m, s.Holds d → s.Holds c → s.heap.parent c = none → Declares s.newest n k m →
    s.typeName d = some n.name → s.typeName c = some m.name →
      (∀ t, ¬ Prog.Raises (assign s.schemas d k (some (.doc c))) s.heap t) ∧
        (s.heap.Ends d → ¬ Parents.Above s.heap.parent c d →
          ∃ t, assign s.schemas d k (some (.doc c)) s.heap = some (.ok (), t))

structure Usable (s : Process) : Prop where
  checked : s.Checked
  accepted : s.Accepted
  assignable : s.Assignable

/-- A document of this table stays usable: `old` holds the table for its type, or the type does not
change, and the new chunk declares that type for no field and no element. -/
def Stays (s : Process) (chunk : List Definition) (a : String) (table : Table) : Prop :=
  ∃ m ∈ chunk, m.name = table.name ∧ (s.old.lookup table.name = some a ∨ m.type = table.type) ∧
    ∀ n ∈ chunk, .schema m.address ∉ n.type.declared

instance (s : Process) (chunk : List Definition) (a : String) (table : Table) :
    Decidable (s.Stays chunk a table) := by
  unfold Stays
  infer_instance

/-- A reload finds only documents that stay usable. -/
def Unmixed (s : Process) : ReloadAction → Prop
  | .reload chunk => ∀ d < s.heap.size, s.Holds d →
      match s.heap.schema d with
      | .schema a => ∀ table ∈ s.tables a, s.Stays chunk a table
      | _ => True
  | _ => True

instance (s : Process) (a : ReloadAction) : Decidable (s.Unmixed a) := by
  cases a with
  | reload chunk =>
    unfold Unmixed
    have (d : Nat) : Decidable (match s.heap.schema d with
      | .schema a => ∀ table ∈ s.tables a, s.Stays chunk a table
      | _ => True) := by
      split <;> infer_instance
    infer_instance
  | _ => exact isTrue trivial

end Process
end Skyext.Orm
