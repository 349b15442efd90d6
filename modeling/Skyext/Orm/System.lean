import Skyext.Lib.Machine
import Skyext.Orm.Forest

namespace Skyext.Orm
set_option autoImplicit true

open Parents

mutual

def docsOf : List (Key × Arg) → List Nat
  | [] => []
  | (_, v) :: entries => v.docs ++ docsOf entries

def Arg.docs : Arg → List Nat
  | .scalar _ => []
  | .doc c => [c]
  | .table entries => docsOf entries

end

theorem docsOf_snoc (entries : List (Key × Arg)) (k : Key) (a : Arg) :
    docsOf (entries ++ [(k, a)]) = docsOf entries ++ a.docs := by
  induction entries with
  | nil => simp only [List.nil_append, docsOf, List.append_nil]
  | cons e entries ih => simp only [List.cons_append, docsOf, ih, List.append_assoc]

mutual

def keysOf : List (Key × Arg) → List Key
  | [] => []
  | (k, v) :: entries => k :: v.keys ++ keysOf entries

def Arg.keys : Arg → List Key
  | .table entries => keysOf entries
  | _ => []

end

mutual

/-- Every document and plain table has the type that is declared for its slot. -/
def Fits (schemas : Schemas) (h : Heap) (schema : SchemaType) : List (Key × Arg) → Prop
  | [] => True
  | (k, v) :: entries => v.Fits schemas h (schema.index schemas k) ∧ Fits schemas h schema entries

def Arg.Fits (schemas : Schemas) (h : Heap) (need : Option SchemaType) : Arg → Prop
  | .scalar _ => True
  | .doc c => ∀ schema ∈ need, h.schema c = schema ∧ schema.IsSchema
  | .table entries => ∀ schema ∈ need, schema.IsSchema ∧ Orm.Fits schemas h schema entries

end

mutual

def decFits (schemas : Schemas) (h : Heap) (schema : SchemaType) :
    (entries : List (Key × Arg)) → Decidable (Fits schemas h schema entries)
  | [] => isTrue trivial
  | (k, v) :: entries =>
    have := v.decFits schemas h (schema.index schemas k)
    have := decFits schemas h schema entries
    inferInstanceAs (Decidable (_ ∧ _))

def Arg.decFits (schemas : Schemas) (h : Heap) (need : Option SchemaType) :
    (v : Arg) → Decidable (v.Fits schemas h need)
  | .scalar _ => isTrue trivial
  | .doc c => inferInstanceAs (Decidable (∀ schema ∈ need, h.schema c = schema ∧ schema.IsSchema))
  | .table entries =>
    have (schema : SchemaType) := Orm.decFits schemas h schema entries
    inferInstanceAs (Decidable (∀ schema ∈ need, schema.IsSchema ∧
      Orm.Fits schemas h schema entries))

end

instance : Decidable (Fits schemas h schema entries) := decFits schemas h schema entries

instance : Decidable (Arg.Fits schemas h need v) := v.decFits schemas h need

/-- The operations of the ORM; `len` is what `#` gives. -/
inductive Action
  | new (schema : SchemaType) (init : List (Key × Arg))
  | assign (d : Nat) (k : Key) (v : Option Arg)
  | insert (d len : Nat) (index v : Option Arg)
  | remove (d len : Nat) (index : Option Arg)
  | clone (d : Nat)

namespace Heap

def Known (h : Heap) (v : Option Arg) : Prop := ∀ a ∈ v, ∀ c ∈ a.docs, c < h.size

instance (h : Heap) (v : Option Arg) : Decidable (h.Known v) := by
  unfold Known
  infer_instance

/-- What is named exists, and `len` is a length. -/
def Enabled (h : Heap) : Action → Prop
  | .new _ init => ∀ c ∈ docsOf init, c < h.size
  | .assign d _ v => d < h.size ∧ h.Known v
  | .insert d len index v => d < h.size ∧ h.IsLen d len ∧ h.Known index ∧ h.Known v
  | .remove d len _ => d < h.size ∧ h.IsLen d len
  | .clone d => d < h.size

instance (h : Heap) (a : Action) : Decidable (h.Enabled a) := by
  cases a <;> unfold Enabled <;> infer_instance

end Heap

def run (schemas : Schemas) : Action → Run Unit
  | .new schema init => do
    let _ ← new schemas schema init
    pure ()
  | .assign d k v => assign schemas d k v
  | .insert d len index v => insert schemas d len index v
  | .remove d len index => do
    let _ ← remove schemas d len index
    pure ()
  | .clone d => do
    let _ ← cloneDoc schemas d
    pure ()

/-- An operation that raises an error is caught; one that never ends has no next state. -/
def step (schemas : Schemas) (h : Heap) (a : Action) : Option Heap :=
  if h.Enabled a then (run schemas a h).map Prod.snd else none

def system (schemas : Schemas) : Machine.System Heap Action where
  init h := h.size = 0 ∧ (∀ d k, h.slot d k = none) ∧ ∀ d, h.parent d = none
  step := step schemas

/-- The members of documents and of schema tables. -/
def memberNames : List String :=
  ["__dirty", "__all_dirty", "__revision", "__parent", "__changed_keys", "__stage", "__schema",
    "type", "new", "fields", "_parse_k", "_check_k", "_check_kv"]

/-- An assignment to a member's name does not get to `__newindex`. -/
def Key.IsMember : Key → Prop
  | .integer _ => False
  | .string s => s ∈ memberNames

instance (k : Key) : Decidable k.IsMember := by
  cases k <;> unfold Key.IsMember <;> infer_instance

/-- The nodes above `d` as far as `n` steps go. -/
def Heap.aboveFrom (h : Heap) : Nat → Nat → List Nat
  | 0, d => [d]
  | n + 1, d =>
    match h.parent d with
    | some p => d :: h.aboveFrom n p
    | none => [d]

def Heap.above (h : Heap) (d : Nat) : List Nat := h.aboveFrom h.size d

/-- A value may be attached below `d` at `k`: it has the declared type, and no root of it is `d`
itself or above it. -/
def MayAttach (schemas : Schemas) (h : Heap) (d : Nat) (k : Key) (v : Arg) : Prop :=
  v.Fits schemas h ((h.schema d).index schemas k) ∧
    ∀ c ∈ v.docs, h.parent c = none → c ∉ h.above d

instance : Decidable (MayAttach schemas h d k v) := by
  unfold MayAttach
  infer_instance

/-- Documents and tables have the declared types, no root is attached to itself or below itself,
no element is inserted at an empty position within the length, and no key is a member's name. -/
def InForest (schemas : Schemas) (h : Heap) : Action → Prop
  | .new schema init => Fits schemas h schema init ∧ ∀ k ∈ keysOf init, ¬ k.IsMember
  | .assign d k v =>
    ¬ k.IsMember ∧ ∀ a ∈ v, MayAttach schemas h d k a ∧ ∀ k ∈ a.keys, ¬ k.IsMember
  | .insert d len index v =>
    (∀ a ∈ v <|> index, MayAttach schemas h d (.integer 1) a ∧ ∀ k ∈ a.keys, ¬ k.IsMember) ∧
      (v.isSome → ∀ i ∈ (position len index).toOption, i ≤ len → (h.slot d (.integer i)).isSome)
  | .remove .. => True
  | .clone _ => True

instance (schemas : Schemas) (h : Heap) (a : Action) : Decidable (InForest schemas h a) := by
  cases a <;> unfold InForest <;> infer_instance

end Skyext.Orm
