import Skyext.Fs.Files

namespace Skyext
set_option autoImplicit true

namespace Fs

def isSeparator (c : UInt8) : Bool := c = slash || c = backslash

def isLetter (c : UInt8) : Bool := (97 ≤ c && c ≤ 122) || (65 ≤ c && c ≤ 90)

/-- `native` on a host that separates by slashes -/
def native (path : Text) : Text := path.map fun c => if isSeparator c then slash else c

/-- `^[/\\]` or `^%a:[/\\]` -/
def isAbsolute : Text → Bool
  | [] => false
  | c :: rest =>
    isSeparator c ||
      match rest with
      | colon :: sep :: _ => isLetter c && colon = 58 && isSeparator sep
      | _ => false

def stripLast (path : Text) : Text :=
  if path.getLast?.any isSeparator then path.dropLast else path

def join (parts : List Text) : Text :=
  parts.foldl (fun path part =>
    if part = [] then path
    else
      let part := native part
      if path = [] ∨ isAbsolute part then part else stripLast path ++ slash :: part) []

/-- `^(.*)[/\\][^/\\]+$` -/
def parentOf (path : Text) : Option Text :=
  let name := path.reverse.takeWhile (!isSeparator ·)
  match path.reverse.drop name.length with
  | [] => none
  | _ :: before => if name = [] then none else some before.reverse

/-- `^%a:$` -/
def isDrive : Text → Bool
  | [c, colon] => isLetter c && colon = 58
  | _ => false

/-- `M.mkdir` with a stack of so many calls; whether it returns, and the files after it. -/
def mkdirFrom : Nat → Text → Files → Bool × Files
  | 0, _, fs => (false, fs)
  | n + 1, path, fs =>
    let path := native path
    match fs.mode path with
    | some mode => (decide (mode = Mode.directory), fs)
    | none =>
      let (ok, fs) :=
        match parentOf path with
        | none => (true, fs)
        | some parent =>
          if parent = [] ∨ parent = path then (true, fs)
          else if isDrive parent then
            (decide (fs.mode (parent ++ [slash]) = some Mode.directory), fs)
          else mkdirFrom n parent fs
      if ok then
        match fs.mkdir path with
        | some fs => (true, fs)
        | none => (decide (fs.mode path = some Mode.directory), fs)
      else (false, fs)

/-- Parents are shorter, so that the stack is deep enough. -/
def mkdir (path : Text) (fs : Files) : Bool × Files := mkdirFrom (path.length + 1) path fs

def entries (fs : Files) (path : Text) : Option (List Text) :=
  (fs.dir path).map fun names => names.mergeSort fun a b => decide (a ≤ b)

structure Item where
  path : Text
  relative : Text
  mode : Mode
  deriving DecidableEq

/-- A link in `walk`, which is a file if its target is one beside it. -/
def linkMode (fs : Files) (dir path : Text) : Option Mode :=
  (fs.target path).bind fun target =>
    if target.any isSeparator then none
    else if fs.mode (join [dir, target]) = some .file then some .file
    else none

def itemMode (fs : Files) (dir path : Text) : Option Mode :=
  match fs.mode path with
  | some .link => linkMode fs dir path
  | some .file => some .file
  | some .directory => some .directory
  | _ => none

def relativeTo (start name : Text) : Text := if start = [] then name else start ++ slash :: name

/-- `visit` with a stack of so many calls; `none` where an assertion fails. -/
def visit (fs : Files) (accept : Text → Option Mode → Bool) : Nat → Text → Text → Option (List Item)
  | 0, _, _ => none
  | n + 1, dir, start => do
    let names ← entries fs dir
    let items ← names.mapM fun name => do
      let relative := relativeTo start name
      let path := join [dir, name]
      if accept relative (fs.mode path) then
        let mode ← itemMode fs dir path
        let below ← if mode = .directory then visit fs accept n path relative else some []
        some (⟨path, relative, mode⟩ :: below)
      else some []
    some items.flatten

def walk (n : Nat) (fs : Files) (root : Text) (accept : Text → Option Mode → Bool) :
    Option (List Item) := visit fs accept n root []

def copy (source target : Text) (fs : Files) : Bool × Files :=
  let (ok, fs) := mkdir ((parentOf target).getD [46]) fs
  if ok then
    match fs.resolve .follow source with
    | none => (false, fs)
    | some input =>
      match fs.openWrite target with
      | none => (false, fs)
      | some (none, fs) => (true, fs)
      | some (some output, fs) => (true, fs.put output (some (.file (fs.contents input))))
  else (false, fs)

def copyItem (target : Text) (item : Item) (fs : Files) : Bool × Files :=
  let dest := join [target, item.relative]
  if item.mode = .directory then mkdir dest fs else copy item.path dest fs

def copyItems (target : Text) : List Item → Files → Bool × Files
  | [], fs => (true, fs)
  | item :: items, fs =>
    let (ok, fs) := copyItem target item fs
    if ok then copyItems target items fs else (false, fs)

def copyTree (n : Nat) (source target : Text) (accept : Text → Option Mode → Bool) (fs : Files) :
    Bool × Files :=
  if fs.mode source = some .directory then
    let (ok, fs) := mkdir target fs
    if ok then
      match walk n fs source accept with
      | none => (false, fs)
      | some items => copyItems target items fs
    else (false, fs)
  else (false, fs)

/-- A loop that stops where its body fails. -/
def forEach (body : Text → Files → Bool × Files) : List Text → Files → Bool × Files
  | [], fs => (true, fs)
  | name :: names, fs =>
    let (ok, fs) := body name fs
    if ok then forEach body names fs else (false, fs)

/-- `remove_tree` with a stack of so many calls -/
def removeTree : Nat → Text → Files → Bool × Files
  | 0, _, fs => (false, fs)
  | n + 1, path, fs =>
    match fs.mode path with
    | none => (true, fs)
    | some .directory =>
      match entries fs path with
      | none => (false, fs)
      | some names =>
        let (ok, fs) := forEach (fun name => removeTree n (join [path, name])) names fs
        if ok then
          match fs.rmdir path with
          | some fs => (true, fs)
          | none => (false, fs)
        else (false, fs)
    | some _ =>
      match fs.remove path with
      | some fs => (true, fs)
      | none => (false, fs)

end Fs
end Skyext
