import Mathlib.Data.List.AList
import Mathlib.Data.NNRat.Defs
import Mathlib.Data.Rat.Floor

namespace Skyext
set_option autoImplicit true

namespace Log

abbrev Bytes := List UInt8

/-- The files and what has been written to them, flushed or not. -/
abbrev Files := AList fun _ : String => Bytes

/-- What `os.date` gives. -/
structure Date where
  year : Int
  month : Int
  day : Int
  hour : Int
  deriving DecidableEq

inductive Period
  | hour
  | day
  deriving DecidableEq

def Period.Same : Period → Date → Date → Prop
  | .hour, t, last =>
    t.year = last.year ∧ t.month = last.month ∧ t.day = last.day ∧ t.hour = last.hour
  | .day, t, last => t.year = last.year ∧ t.month = last.month ∧ t.day = last.day

instance (p : Period) (t last : Date) : Decidable (p.Same t last) := by
  cases p <;> unfold Period.Same <;> infer_instance

/-- The parameters of a split; `maxsize` as `parse_bytes` gives it. -/
inductive Splitting
  | line (maxline : Rat)
  | size (maxsize : NNRat)
  | time (split : Period)

/-- The metatable of a `split_mgr` with the fields it needs. -/
inductive Mode
  | line (maxline : Rat) (linecount : Nat)
  | size (maxsize : NNRat) (size : Nat)
  | time (split : Period) (last : Date)
  deriving DecidableEq

def Mode.needSplit (str : Bytes) (t : Date) : Mode → Bool × Mode
  | .line maxline linecount =>
    if (linecount + 1 : Nat) > maxline then (true, .line maxline 0)
    else (false, .line maxline (linecount + 1))
  | .size maxsize n =>
    let delta := str.length + 1
    let n := n + delta
    if n > delta ∧ n > maxsize then (true, .size maxsize delta) else (false, .size maxsize n)
  | .time split last => if split.Same t last then (false, .time split last) else (true,
      .time split t)

/-- `split_mgr.size` after a file of that size has been opened -/
def Mode.grow (n : Nat) : Mode → Mode
  | .size maxsize used => .size maxsize (used + n)
  | mode => mode

structure SplitMgr where
  count : Nat
  lastprefixed : Option String
  mode : Mode
  deriving DecidableEq

def newSplitMgr (params : Splitting) (t : Date) : SplitMgr where
  count := 0
  lastprefixed := none
  mode := match params with
    | .line maxline => .line maxline 0
    | .size maxsize => .size maxsize 0
    | .time split => .time split t

structure Level where
  lower : Int
  upper : Int
  deriving DecidableEq

def shouldLog (level : Option Level) (recordLevel : Int) : Bool :=
  match level with
  | some level => ¬ (recordLevel < level.lower ∨ recordLevel > level.upper)
  | none => true

/-- A bucket with the files of its host and, as a record, the names `split` has renamed to. -/
structure FileObj where
  path : String
  splitMgr : Option SplitMgr
  level : Option Level
  size : Nat
  files : Files
  renames : List String

namespace FileObj

/-- Opens the file to append, which creates it where it does not exist. -/
def reload (self : FileObj) : FileObj :=
  let files := if self.path ∈ self.files then self.files else self.files.insert self.path []
  { self with files := files, size := ((files.lookup self.path).getD []).length }

/-- The name one round of the loop of `split` tries. -/
def nextName (filename : String) (mgr : SplitMgr) : String × SplitMgr :=
  if mgr.lastprefixed = some filename then
    (filename ++ "." ++ toString (mgr.count + 1), { mgr with count := mgr.count + 1 })
  else (filename, { mgr with count := 0, lastprefixed := some filename })

/-- The loop of `split`, for a number of rounds. -/
def newPath (files : Files) (filename : String) : Nat → SplitMgr → Option (String × SplitMgr)
  | 0, _ => none
  | n + 1, mgr =>
    let (name, mgr) := nextName filename mgr
    if name ∈ files then newPath files filename n mgr else some (name, mgr)

/-- `os.rename`, whose errors are ignored -/
def rename (files : Files) (old new : String) : Files :=
  match files.lookup old with
  | some content => (files.erase old).insert new content
  | none => files

def split (self : FileObj) (mgr : SplitMgr) : Option FileObj :=
  (newPath self.files self.path (self.files.entries.length + 2) mgr).map fun (name, mgr) =>
    let self := { self with
      files := rename self.files self.path name
      renames := self.renames ++ [name] }.reload
    { self with splitMgr := some { mgr with mode := mgr.mode.grow self.size } }

def init (self : FileObj) : Option FileObj :=
  let self := self.reload
  match self.splitMgr with
  | some mgr => if 0 < self.size then self.split mgr else some self
  | none => some self

/-- `write(str, "\n")` -/
def write (self : FileObj) (str : Bytes) : FileObj :=
  { self with
    files := self.files.insert self.path ((self.files.lookup self.path).getD [] ++ (str ++ [10])) }

/-- `put` of a record that the formatter turns into `str`. -/
def put (self : FileObj) (recordLevel : Int) (str : Bytes) (t : Date) : Option FileObj :=
  if shouldLog self.level recordLevel then
    match self.splitMgr with
    | none => some (self.write str)
    | some mgr =>
      let (need, mode) := mgr.mode.needSplit str t
      let mgr := { mgr with mode := mode }
      if need then (self.split mgr).map fun self => self.write str
      else some ({ self with splitMgr := some mgr }.write str)
  else some self

end FileObj

/-- `M.new` in a host that has these files already. -/
def new (files : Files) (filename : String) (level : Option Level) (params : Option Splitting)
    (t : Date) : Option FileObj :=
  FileObj.init ⟨filename, params.map fun params => newSplitMgr params t, level, 0, files, []⟩

/-- A record as `put` gets it, with its formatted text and the time then. -/
structure Put where
  level : Int
  str : Bytes
  time : Date

def putAll (self : FileObj) (puts : List Put) : Option FileObj :=
  puts.foldlM (fun self p => self.put p.level p.str p.time) self

def accepted (level : Option Level) (puts : List Put) : List Put :=
  puts.filter fun p => shouldLog level p.level

end Log
end Skyext
