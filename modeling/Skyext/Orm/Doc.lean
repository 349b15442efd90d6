import Mathlib.Data.List.AList
import Skyext.Lib.Prog
import Skyext.Orm.Schema

namespace Skyext.Orm
set_option autoImplicit true

inductive Value
  | scalar (s : Scalar)
  | doc (id : Nat)
  deriving DecidableEq

/-- `==` of what slots hold, which is identity for documents -/
def Value.equals : Option Value → Option Value → Bool
  | some (.scalar s), some (.scalar s') => s.equals s'
  | v, v' => v = v'

/-- What can be assigned: a scalar, a document or a plain table, its entries as `pairs` gives
them. -/
inductive Arg
  | scalar (s : Scalar)
  | doc (id : Nat)
  | table (entries : List (Key × Arg))

abbrev Slots := AList fun _ : Key => Value

def Slots.write (stage : Slots) (k : Key) : Option Value → Slots
  | some v => stage.insert k v
  | none => stage.erase k

structure Doc where
  schema : SchemaType
  parent : Option Nat
  stage : Slots
  changedKeys : List Key
  dirty : Bool
  allDirty : Bool
  revision : Nat

structure Heap where
  size : Nat
  docs : Nat → Doc

abbrev Run := Prog Heap Error

namespace Heap

def modify (h : Heap) (d : Nat) (f : Doc → Doc) : Heap :=
  { h with docs := fun d' => if d' = d then f (h.docs d) else h.docs d' }

def parent (h : Heap) (d : Nat) : Option Nat := (h.docs d).parent

def schema (h : Heap) (d : Nat) : SchemaType := (h.docs d).schema

def slot (h : Heap) (d : Nat) (k : Key) : Option Value := (h.docs d).stage.lookup k

def setParent (h : Heap) (d : Nat) (parent : Option Nat) : Heap :=
  h.modify d fun doc => { doc with parent := parent }

/-- A write to `__stage` together with its key in `__changed_keys`. -/
def move (h : Heap) (d : Nat) (k : Key) (v : Option Value) : Heap :=
  h.modify d fun doc =>
    { doc with stage := doc.stage.write k v, changedKeys := doc.changedKeys.insert k }

/-- The parent of a document that has left its slot. -/
def release (h : Heap) : Option Value → Heap
  | some (.doc c) => h.setParent c none
  | _ => h

/-- The parent of a displaced document that is back in a slot of `d`. -/
def restore (h : Heap) (d : Nat) : Value → Heap
  | .doc c => h.setParent c (some d)
  | .scalar _ => h

/-- `for i = index + n, index + 1, -1` of `doc_insert` -/
def shiftUp (h : Heap) (d index : Nat) : Nat → Heap
  | 0 => h
  | n + 1 =>
    (h.move d (.integer ↑(index + n + 2)) (h.slot d (.integer ↑(index + n + 1)))).shiftUp d index n

/-- `for i = index + 1, index + n` of `doc_remove` -/
def shiftDown (h : Heap) (d index : Nat) : Nat → Heap
  | 0 => h
  | n + 1 =>
    (h.move d (.integer index) (h.slot d (.integer ↑(index + 1)))).shiftDown d (index + 1) n

def touch (h : Heap) (d : Nat) : Heap :=
  h.modify d fun doc => { doc with dirty := true, revision := doc.revision + 1 }

/-- The loop of `mark_dirty`, which cannot go through more than all documents unless it never
ends. -/
def markDirtyFrom (h : Heap) : Nat → Option Nat → Option Heap
  | _, none => some h
  | 0, some _ => none
  | n + 1, some d => (h.touch d).markDirtyFrom n (h.parent d)

def clearDirtyDoc (h : Heap) (d : Nat) : Heap :=
  h.modify d fun doc => { doc with dirty := false, allDirty := false, changedKeys := [] }

def children (h : Heap) (d : Nat) : List Nat :=
  (h.docs d).stage.entries.filterMap fun e =>
    match e.2 with
    | .doc c => some c
    | .scalar _ => none

def clearDirtyFrom : Nat → Heap → Nat → Heap
  | 0, h, _ => h
  | n + 1, h, d => (h.children d).foldl (clearDirtyFrom n) (h.clearDirtyDoc d)

def clearDirty (h : Heap) (d : Nat) : Heap := clearDirtyFrom h.size h d

/-- `doc_totable` with its lookup table; running out of documents is meeting one twice. -/
def toTableFrom : Nat → Heap → Nat → List Nat → Except Error (List (Key × Arg) × List Nat)
  | 0, _, _, _ => .error .circular
  | n + 1, h, d, lookup =>
    if d ∈ lookup then .error .circular
    else
      (h.docs d).stage.entries.foldlM (fun copied e =>
        match e.2 with
        | .scalar s => .ok (copied.1 ++ [(e.1, .scalar s)], copied.2)
        | .doc c => do
          let sub ← toTableFrom n h c copied.2
          .ok (copied.1 ++ [(e.1, .table sub.1)], sub.2)) ([], d :: lookup)

def toTable (h : Heap) (d : Nat) : Except Error (List (Key × Arg)) :=
  (toTableFrom h.size h d []).map Prod.fst

end Heap

variable (schemas : Schemas)

def markDirty (d : Nat) : Run Unit := fun h =>
  (h.markDirtyFrom h.size (some d)).map fun h => (.ok (), h)

/-- `doc[k]`, or `doc.__stage[k]`, which checks a key it does not have. -/
def index (d : Nat) (k : Key) : Run (Option Value) := do
  let h ← get
  match h.slot d k with
  | some v => pure (some v)
  | none => do
    Prog.lift ((h.schema d).checkK schemas k)
    pure none

def checkKv (d : Nat) (k : Key) (v : Option Value) : Run Unit := do
  let h ← get
  match v with
  | some (.scalar s) => Prog.lift ((h.schema d).checkKv schemas k (.inl s))
  | some (.doc c) => Prog.lift ((h.schema d).checkKv schemas k (.inr (h.schema c)))
  | none => pure ()

def docChangeValue (d : Nat) (k : Key) (v : Option Value) : Run Unit := do
  checkKv schemas d k v
  let lv ← index schemas d k
  if ¬ Value.equals v lv then do
    modify fun h => (h.release lv).move d k v
    markDirty d

/-- `doc_change_recursively` with the document that is to be attached. -/
def attach (d : Nat) (k : Key) (c : Nat) : Run Unit := do
  modify fun h => h.setParent c (some d)
  docChangeValue schemas d k (some (.doc c))
  modify fun h => h.modify c fun doc => { doc with allDirty := true }

/-- `doc_change` with anything but a plain table. -/
def docChange (d : Nat) (k : Key) (v : Option Value) : Run Unit := do
  let h ← get
  let k ← Prog.lift ((h.schema d).parseK schemas k)
  match v with
  | some (.doc c) => if (h.parent c).isSome then throw .nonRoot else attach schemas d k c
  | _ => do
    let lv ← index schemas d k
    if ¬ Value.equals lv v then docChangeValue schemas d k v

/-- A table becomes an empty document. -/
def alloc (schema : SchemaType) : Run Nat := do
  let h ← get
  set { h with
    size := h.size + 1
    docs := fun d => if d = h.size then ⟨schema, none, ∅, [], false, false, 0⟩ else h.docs d }
  pure h.size

/-- `_new_doc` up to what it fills the document with. -/
def newDocBy (schema : Option SchemaType) (fill : Nat → SchemaType → Run Unit) : Run Nat :=
  match schema with
  | none => throw .needSchema
  | some schema => do
    let c ← alloc schema
    fill c schema
    pure c

mutual

/-- The loop of `_new_doc`; `clone` is for a document that has a parent. -/
def fill (clone : Nat → Run Nat) (d : Nat) (schema : SchemaType) : List (Key × Arg) → Run Unit
  | [] => pure ()
  | (k, v) :: entries => do
    let v ← toValue clone (schema.index schemas k) v
    docChange schemas d k (some v)
    fill clone d schema entries

def toValue (clone : Nat → Run Nat) (schema : Option SchemaType) : Arg → Run Value
  | .scalar s => pure (.scalar s)
  | .doc c => do
    let h ← get
    if (h.parent c).isSome then do
      let c ← clone c
      pure (.doc c)
    else pure (.doc c)
  | .table entries => do
    let c ← newDocBy schema fun c schema => fill clone c schema entries
    pure (.doc c)

end

/-- A copy made by `doc_totable` holds no documents that could be cloned in turn. -/
def cloneDoc (d : Nat) : Run Nat := do
  let h ← get
  let init ← Prog.lift (h.toTable d)
  newDocBy (some (h.schema d)) fun c schema => fill schemas (fun _ => throw .circular) c schema init

def newDoc (schema : Option SchemaType) (init : List (Key × Arg)) : Run Nat :=
  newDocBy schema fun c schema => fill schemas (cloneDoc schemas) c schema init

def assign (d : Nat) (k : Key) : Option Arg → Run Unit
  | some (.table entries) => do
    let h ← get
    let k ← Prog.lift ((h.schema d).parseK schemas k)
    let c ← newDoc schemas ((h.schema d).index schemas k) entries
    attach schemas d k c
  | some (.scalar s) => docChange schemas d k (some (.scalar s))
  | some (.doc c) => docChange schemas d k (some (.doc c))
  | none => docChange schemas d k none

/-- `orm.new`, also of a stored document that `orm.decode` has aligned. -/
def new (schema : SchemaType) (init : List (Key × Arg)) : Run Nat := do
  let d ← newDoc schemas (some schema) init
  modify fun h => h.clearDirty d
  pure d

/-- What `#` may give for the slots of a document. -/
def Heap.IsLen (h : Heap) (d len : Nat) : Prop :=
  (len = 0 ∨ (h.slot d (.integer len)).isSome) ∧ h.slot d (.integer ↑(len + 1)) = none

instance (h : Heap) (d len : Nat) : Decidable (h.IsLen d len) := inferInstanceAs (Decidable (_ ∧ _))

/-- The check of a position. A string that passes `math.tointeger` cannot be compared. -/
def position (len : Nat) : Option Arg → Except Error Nat
  | some (.scalar (.number x)) =>
    match x.toInteger with
    | some i => if 1 ≤ i ∧ i ≤ len + 1 then .ok i.toNat else .error .outOfBounds
    | none => .error .outOfBounds
  | some (.scalar (.string s)) =>
    if (Key.string s).toInteger.isSome then .error .compare else .error .outOfBounds
  | _ => .error .outOfBounds

/-- `doc_insert` from the position on. -/
def insertAt (d len i : Nat) (v : Option Arg) : Run Unit := do
  let displaced ← index schemas d (.integer i)
  let before ← get
  assign schemas d (.integer i) v
  modify fun h => h.shiftUp d i (len - i)
  match displaced with
  | some value => modify fun h => (h.move d (.integer ↑(i + 1)) (some value)).restore d value
  | none => pure ()
  let h ← get
  if (h.docs d).revision = (before.docs d).revision then markDirty d

def insert (d len : Nat) (index v : Option Arg) : Run Unit :=
  match v with
  | none => insertAt schemas d len (len + 1) index
  | some v => do
    let i ← Prog.lift (position len index)
    insertAt schemas d len i (some v)

/-- The position of `doc_remove`, 0 for an empty list. -/
def removePosition (len : Nat) : Option Arg → Except Error Nat
  | none => .ok len
  | some (.scalar (.boolean false)) => .ok len
  | some (.scalar (.number x)) =>
    if len = 0 ∧ x.equals (.integer 0) then .ok 0 else position len (some (.scalar (.number x)))
  | index => position len index

def remove (d len : Nat) (index : Option Arg) : Run (Option Value) := do
  let i ← Prog.lift (removePosition len index)
  if i = 0 ∨ len < i then pure none
  else do
    let v ← Orm.index schemas d (.integer i)
    docChange schemas d (.integer i) none
    modify fun h => (h.shiftDown d i (len - i)).move d (.integer len) none
    pure v

end Skyext.Orm
