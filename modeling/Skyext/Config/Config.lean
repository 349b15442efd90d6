import Mathlib.Logic.Function.Basic
import Skyext.Lib.Machine
import Skyext.Config.Source

namespace Skyext
set_option autoImplicit true

namespace Config

open LuaNumber (minInteger maxInteger)

def Scalar.Valid : Scalar → Prop
  | .integer i => minInteger ≤ i ∧ i ≤ maxInteger
  | _ => True

mutual

/-- Integers are in their range, and tables have distinct keys, as tables keep them. -/
def Value.Valid : Value → Prop
  | .scalar a => a.Valid
  | .table entries => (entries.map Prod.fst).Nodup ∧ ValidEntries entries

def ValidEntries : List (Scalar × Value) → Prop
  | [] => True
  | (k, v) :: entries => (k.Valid ∧ tableKey k = some k ∧ v.Valid) ∧ ValidEntries entries

end

def Value.text : Value → Text
  | .scalar a => tostring a
  | .table entries => serialize (.table entries)

/-- A configuration as it is loaded. The environment takes a key and its text as one string of C,
which ends at the first NUL and is parted at the first space. -/
structure AppConfig where
  entries : List (Text × Value)
  nodup : (entries.map Prod.fst).Nodup
  valid : ∀ e ∈ entries, e.2.Valid
  keys : ∀ e ∈ entries, 0 ∉ e.1 ∧ byte ' ' ∉ e.1
  texts : ∀ e ∈ entries, 0 ∉ e.2.text

/-- A scalar that its text within a table stands for. -/
def Scalar.Survives : Scalar → Prop
  | .integer i => i ≠ minInteger
  | .float f => tonumber (floatText f) = some (.float f)
  | _ => True

mutual

def Value.Survives : Value → Prop
  | .scalar a => a.Survives
  | .table entries => SurvivesEntries entries

def SurvivesEntries : List (Scalar × Value) → Prop
  | [] => True
  | (k, v) :: entries => (k.Survives ∧ v.Survives) ∧ SurvivesEntries entries

end

/-- How deep the parser goes; a minus is a level. -/
def Scalar.depth (a : Scalar) : Nat :=
  if (serializeScalar a).head? = some (byte '-') then 2 else 1

mutual

def Value.depth : Value → Nat
  | .scalar a => a.depth
  | .table entries => entriesDepth entries + 1

def entriesDepth : List (Scalar × Value) → Nat
  | [] => 0
  | (k, v) :: entries => max (max k.depth v.depth) (entriesDepth entries)

end

/-- A value of Lua: one that configurations hold, or another one. -/
inductive Form (ω : Type)
  | value (v : Value)
  | other (o : ω)

namespace Form

def string (s : Text) : Form ω := .value (.scalar (.string s))

def boolean (b : Bool) : Form ω := .value (.scalar (.boolean b))

end Form

/-- `load` and a call of what it gives: how deep the parser goes, and what becomes of the texts that
are no constants and no constructors of such. The outer `none` is an error, the inner one nil. -/
structure Lua (ω : Type) where
  depth : Nat
  other : Text → Option (Option (Form ω))

/-- What the text `return s` evaluates to. -/
def Lua.load (L : Lua ω) (s : Text) : Option (Option (Form ω)) :=
  match readExp L.depth s with
  | some (v, []) => some (some (.value v))
  | _ => L.other s

abbrev Environment := Text → Option Text

/-- `skynet.setenv`, which does not take a key twice. -/
def setenv (env : Environment) (k v : Text) : Option Environment :=
  if env k = none then some (Function.update env k (some v)) else none

def setenvAll (env : Environment) : List (Text × Value) → Option Environment
  | [] => some env
  | (k, v) :: result => (setenv env k v.text).bind fun env => setenvAll env result

/-- `init`, with what `load_config` makes of the files; `none` where it raises an error. -/
def init (loadConfig : Text → Option (List (Text × Value))) (env : Environment) :
    Option Environment :=
  match env (word "app_config_loaded") with
  | some _ => some env
  | none => do
    let path ← env (word "app_config_path")
    let result ← loadConfig path
    let env ← setenv env (word "app_config_loaded") (word "true")
    setenvAll env result

/-- A service: the environment, and the values it keeps. -/
structure Service (ω : Type) where
  env : Environment
  conf : Text → Option (Form ω)

namespace Service

def store (s : Service ω) (key : Text) (value : Option (Form ω)) : Service ω :=
  { s with conf := Function.update s.conf key value }

/-- The part the getters of strings, booleans and numbers share. -/
def getAs (convert : Text → Option (Form ω)) (key : Text) (s : Service ω) :
    Option (Form ω) × Service ω :=
  match s.conf key with
  | some x => (some x, s)
  | none =>
    match s.env key with
    | none => (none, s)
    | some value =>
      let s := s.store key (convert value)
      (s.conf key, s)

def get (key : Text) (s : Service ω) : Option (Form ω) × Service ω :=
  s.getAs (fun value => some (.string value)) key

def getBoolean (key : Text) (s : Service ω) : Option (Form ω) × Service ω :=
  s.getAs (fun value => some (.boolean (value = word "true"))) key

def getNumber (key : Text) (s : Service ω) : Option (Form ω) × Service ω :=
  s.getAs (fun value => (tonumber value).map fun a => .value (.scalar a)) key

/-- The outer `none` is an error. -/
def getTable (L : Lua ω) (key : Text) (s : Service ω) : Option (Option (Form ω)) × Service ω :=
  let (x, s) := s.get key
  match x with
  | some (.value (.scalar (.string text))) =>
    match L.load text with
    | none => (none, s)
    | some x => (some x, s.store key x)
  | x => (some x, s)

end Service

inductive Getter
  | get
  | getBoolean
  | getNumber
  | getTable
  deriving DecidableEq

structure Call where
  getter : Getter
  key : Text

def Call.run (L : Lua ω) (c : Call) (s : Service ω) :
    Option (Option (Form ω)) × Service ω :=
  match c.getter with
  | .get => ((s.get c.key).map some id)
  | .getBoolean => ((s.getBoolean c.key).map some id)
  | .getNumber => ((s.getNumber c.key).map some id)
  | .getTable => s.getTable L c.key

/-- A service that has not called a getter yet, after `init` has written the configuration. -/
def service (L : Lua ω) (config : AppConfig) : Machine.System (Service ω) Call where
  init s := ∃ loadConfig env path, env (word "app_config_loaded") = none ∧
    env (word "app_config_path") = some path ∧ loadConfig path = some config.entries ∧
    init loadConfig env = some s.env ∧ ∀ key, s.conf key = none
  step s c := some (c.run L s).2

def Getter.Fits : Getter → Value → Prop
  | .get, _ => True
  | .getBoolean, .scalar (.boolean _) => True
  | .getNumber, .scalar (.integer _) => True
  | .getNumber, .scalar (.float _) => True
  | .getTable, .table _ => True
  | _, _ => False

def Getter.form (g : Getter) (v : Value) : Form ω :=
  match g with
  | .get => .string v.text
  | _ => .value v

/-- The answer is the configured value, or its text. -/
def Right (config : AppConfig) (c : Call) (answer : Option (Option (Form ω))) : Prop :=
  ∀ v, (c.key, v) ∈ config.entries → c.getter.Fits v → answer = some (some (c.getter.form v))

/-- A value that its text in the environment stands for. -/
def Value.Travels (depth : Nat) : Value → Prop
  | .scalar (.float f) => tonumber (floatText f) = some (.float f)
  | .scalar _ => True
  | .table entries => (Value.table entries).Survives ∧ (Value.table entries).depth ≤ depth

/-- No other getter has left its form of the value, but for the text where a table is wanted; and
what has to be read from the text can be. -/
def Clean (L : Lua ω) (config : AppConfig) (s : Service ω) (c : Call) : Prop :=
  ∀ v, (c.key, v) ∈ config.entries → c.getter.Fits v →
    s.conf c.key = some (c.getter.form v) ∨
      (s.conf c.key = none ∨ c.getter = .getTable ∧ s.conf c.key = some (.string v.text)) ∧
        (c.getter ≠ .get → v.Travels L.depth)

end Config
end Skyext
