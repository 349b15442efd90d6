import Mathlib.Data.List.Basic
import Mathlib.Logic.Function.Basic

namespace Skyext
set_option autoImplicit true

namespace Fs

abbrev Text := List UInt8

abbrev Loc := List Text

def slash : UInt8 := 47

def backslash : UInt8 := 92

inductive Kind
  | file (data : Text)
  | link (target : Text)
  | other
  | dir
  deriving DecidableEq

inductive Mode
  | file
  | link
  | other
  | directory
  deriving DecidableEq

def Kind.mode : Kind → Mode
  | .file _ => .file
  | .link _ => .link
  | .other => .other
  | .dir => .directory

/-- What is at each place, by the names from the root on; a list of places with all that there are;
and the directory that relative paths start at. -/
structure Files where
  kind : Loc → Option Kind
  locs : List Loc
  cwd : Loc

/-- A name other than those of the directory and of its parent. -/
def isName (c : Text) : Bool := c ≠ [] && c ≠ [46] && c ≠ [46, 46]

namespace Files

/-- Places are in directories and have proper names, and links have targets. -/
structure Ok (fs : Files) : Prop where
  root : fs.kind [] = some .dir
  parent : ∀ l c, fs.kind (l ++ [c]) ≠ none → fs.kind l = some .dir
  name : ∀ l c, fs.kind (l ++ [c]) ≠ none → isName c = true ∧ slash ∉ c
  link : ∀ l target, fs.kind l = some (.link target) → target ≠ []
  covers : ∀ l, fs.kind l ≠ none → l ∈ fs.locs
  nodup : fs.locs.Nodup

def put (fs : Files) (l : Loc) (k : Option Kind) : Files where
  kind := Function.update fs.kind l k
  locs := if l ∈ fs.locs then fs.locs else l :: fs.locs
  cwd := fs.cwd

def nameIn (fs : Files) (l l' : Loc) : Option Text :=
  l'.getLast?.bind fun c => if l' = l ++ [c] ∧ fs.kind l' ≠ none then some c else none

def names (fs : Files) (l : Loc) : List Text := fs.locs.filterMap (fs.nameIn l)

end Files

def components (path : Text) : List Text := path.splitOn slash

def isRooted (path : Text) : Bool := path.head? = some slash

/-- What is done with the last name of a path: a link is kept or followed, and a file that is not
there may be created. -/
inductive Last
  | keep
  | follow
  | create
  deriving DecidableEq

namespace Files

def follow (fs : Files) (onLink : Loc → List Text → Option Loc) (last : Last) :
    Loc → List Text → Option Loc
  | l, [] => some l
  | l, c :: rest =>
    if c = [] ∨ c = [46] then fs.follow onLink last l rest
    else if c = [46, 46] then fs.follow onLink last l.dropLast rest
    else
      match fs.kind (l ++ [c]) with
      | none => if rest = [] ∧ last = .create then some (l ++ [c]) else none
      | some (.link target) =>
        if rest = [] ∧ last = .keep then some (l ++ [c])
        else onLink (if isRooted target then [] else l) (components target ++ rest)
      | some .dir => fs.follow onLink last (l ++ [c]) rest
      | some _ => if rest = [] then some (l ++ [c]) else none

/-- Path resolution, with a number of links that it may follow. -/
def resolveFrom (fs : Files) (last : Last) : Nat → Loc → List Text → Option Loc
  | 0 => fs.follow (fun _ _ => none) last
  | n + 1 => fs.follow (fs.resolveFrom last n) last

end Files

def maxLinks : Nat := 40

/-- The names of a path up to the last one, and that one; slashes at the end do not count. -/
def splitLast (path : Text) : Option (List Text × Text) :=
  match (components path).reverse.dropWhile (· = []) with
  | [] => none
  | c :: before => if isName c then some (before.reverse, c) else none

namespace Files

def start (fs : Files) (path : Text) : Loc := if isRooted path then [] else fs.cwd

def resolve (fs : Files) (last : Last) (path : Text) : Option Loc :=
  if path = [] then none else fs.resolveFrom last maxLinks (fs.start path) (components path)

def place (fs : Files) (path : Text) : Option Loc :=
  (splitLast path).bind fun (before, c) =>
    (fs.resolveFrom .follow maxLinks (fs.start path) before).bind fun l =>
      if fs.kind l = some .dir then some (l ++ [c]) else none

def mode (fs : Files) (path : Text) : Option Mode :=
  ((fs.resolve .keep path).bind fs.kind).map Kind.mode

def target (fs : Files) (path : Text) : Option Text :=
  match (fs.resolve .keep path).bind fs.kind with
  | some (.link target) => some target
  | _ => none

/-- `lfs.dir` without the names of the directory and its parent -/
def dir (fs : Files) (path : Text) : Option (List Text) :=
  (fs.resolve .follow path).bind fun l =>
    if fs.kind l = some .dir then some (fs.names l) else none

def rmdir (fs : Files) (path : Text) : Option Files :=
  (fs.place path).bind fun l =>
    if fs.kind l = some .dir ∧ fs.names l = [] then some (fs.put l none) else none

/-- `os.remove` -/
def remove (fs : Files) (path : Text) : Option Files :=
  (fs.place path).bind fun l =>
    match fs.kind l with
    | none => none
    | some .dir => fs.rmdir path
    | some _ => some (fs.put l none)

/-- `lfs.mkdir` -/
def mkdir (fs : Files) (path : Text) : Option Files :=
  (fs.place path).bind fun l =>
    if fs.kind l = none then some (fs.put l (some .dir)) else none

def contents (fs : Files) (l : Loc) : Text :=
  match fs.kind l with
  | some (.file data) => data
  | _ => []

/-- `io.open(path, "wb")`: the place that is written, if it is a file, and the files with that one
empty. -/
def openWrite (fs : Files) (path : Text) : Option (Option Loc × Files) :=
  (fs.resolve .create path).bind fun l =>
    match fs.kind l with
    | none => some (some l, fs.put l (some (.file [])))
    | some (.file _) => some (some l, fs.put l (some (.file [])))
    | some .other => some (none, fs)
    | some _ => none

end Files

end Fs
end Skyext
