import DocTree.Text.Encoding
import DocTree.Text.Quoted
/-!
Files and folders by their paths. A path that does not begin at the root of all folders is read from
one folder, and leads somewhere only if every step before its last one ends at a folder.
-/

namespace DocTree

/-- The names on the way from the root of all folders to a place. -/
abbrev Path := List Text

namespace Path

def slash : CodePoint := CodePoint.ofChar '/'

/-- The slashes that an absolute path begins with: two only if it was written with two. -/
def root (t : Text) : Text :=
  match (t.takeWhile (· == slash)).length with
  | 0 => []
  | 2 => "//"
  | _ => "/"

def isAbsolute (t : Text) : Bool := !(root t).isEmpty

def steps (t : Text) : List Text := (t.splitOn slash).filter (· ≠ [])

def moves (t : Text) : List Text := (steps t).filter (· ≠ ".")

/-- Whether a path says by a slash at its end that it leads to a folder. -/
def endsOpen (t : Text) : Bool := t.getLast? == some slash

def toText (root : Text) (steps : List Text) : Text :=
  if root.isEmpty && steps.isEmpty then "." else root ++ Text.joinWith "/" steps

def tidy (t : Text) : Text := toText (root t) (moves t)

/-- Goes one step on; `done` holds the steps so far, the latest first. -/
def climb (absolute : Bool) (done : List Text) (step : Text) : List Text :=
  if step ≠ ".." then step :: done
  else match done with
    | [] => if absolute then [] else [step]
    | last :: before => if last = ".." then step :: done else before

/-- A path in which every step up has taken back the step before it. -/
def normal (t : Text) : Text :=
  toText (root t) ((moves t).foldl (climb (isAbsolute t)) []).reverse

def upToNull (t : Text) : Text := t.takeWhile (·.val ≠ 0)

/-- The last name on the way, without the ending after its last dot. A dot at either end of the name
begins no ending. -/
def stem (t : Text) : Text :=
  let name := ((moves t).getLast?).getD []
  match name.cutLast? (CodePoint.ofChar '.') with
  | some (start, ending) => if start.isEmpty ∨ ending.isEmpty then name else start
  | none => name

def pathLimit : Nat := 4095

def nameLimit : Nat := 255

def standsForByte (c : CodePoint) : Bool := 0xDC80 ≤ c.val && c.val ≤ 0xDCFF

/-- The bytes of a path. A surrogate that stands for no byte has none. -/
def bytes (t : Text) : Except Encoding.EncodeFault Bytes :=
  let whole (c : CodePoint) : Bool := !c.isSurrogate || standsForByte c
  match t.dropWhile whole with
  | [] => .ok (t.flatMap fun c =>
    if standsForByte c then [UInt8.ofNat (c.val % 0x100)] else Encoding.utf8Bytes c)
  | c :: rest =>
    .error ⟨c, (t.takeWhile whole).length, 1 + (rest.takeWhile (·.isSurrogate)).length⟩

def exceeds (name : Text) : Bool :=
  match bytes name with
  | .ok bs => nameLimit < bs.length
  | .error _ => false

end Path

inductive FileFault
  | absent
  | notFolder
  | isFolder
  | tooLong
  /-- A path ends at its first null byte, and so can have none inside. -/
  | nullByte
  | noBytes (fault : Encoding.EncodeFault)
  deriving DecidableEq, Repr

/-- A fault with the path as it is shown. A text that is no path at all is not shown. -/
def FileFault.message (fault : FileFault) (shown : Text) : Text :=
  match fault with
  | absent => "[Errno 2] No such file or directory: " ++ shown.quoted
  | notFolder => "[Errno 20] Not a directory: " ++ shown.quoted
  | isFolder => "[Errno 21] Is a directory: " ++ shown.quoted
  | tooLong => "[Errno 36] File name too long: " ++ shown.quoted
  | nullByte => "embedded null byte"
  | noBytes fault => fault.message

/-- Whether the fault is in what the path leads to, and not in the text that should be a path. -/
def FileFault.isSystem : FileFault → Bool
  | nullByte | noBytes _ => false
  | _ => true

/-- A folder with everything that paths from it can lead to. -/
structure Folder where
  home : Path
  folders : List Path
  files : List (Path × Bytes)

namespace Folder

variable (f : Folder)

def file? (p : Path) : Option Bytes := f.files.lookup p

/-- Whether a folder stands at a place. The folder itself and those above it always do. -/
def isFolder (p : Path) : Bool := p.isPrefixOf f.home || f.folders.contains p

/-- Where a path leads: to a folder for certain, or to a name in one. -/
inductive Goal
  | folder
  | entry (path : Path)

def enter (here : Path) (step : Text) : Except FileFault Path :=
  if step = "." then .ok here
  else if step = ".." then .ok here.dropLast
  else if Path.exceeds step then .error .tooLong
  else
    let next := here ++ [step]
    if f.isFolder next then .ok next
    else .error (if (f.file? next).isSome then .notFolder else .absent)

def checkPath (t : Text) : Except FileFault Unit := do
  let bytes ← (Path.bytes t).mapError .noBytes
  if t.any (·.val = 0) then throw .nullByte
  if t.isEmpty then throw .absent
  if Path.pathLimit < bytes.length then throw .tooLong

def goal (t : Text) : Except FileFault Goal := do
  checkPath t
  let steps := Path.steps t
  let here ← steps.dropLast.foldlM f.enter (if Path.isAbsolute t then [] else f.home)
  match steps.getLast? with
  | none => return .folder
  | some last => if last = "." ∨ last = ".." then return .folder else return .entry (here ++ [last])

def find (t : Text) : Except FileFault (Path × Bytes) := do
  match ← f.goal t with
  | .folder => throw .isFolder
  | .entry path =>
    if (path.getLast?).any Path.exceeds then throw .tooLong
    if f.isFolder path then throw .isFolder
    match f.file? path with
    | none => throw .absent
    | some content => if Path.endsOpen t then throw .notFolder else return (path, content)

def read (t : Text) : Except FileFault Bytes := return (← f.find t).2

/-- The place of a file to be written, whether there is one now or not. -/
def target (t : Text) : Except FileFault Path := do
  match ← f.goal t with
  | .folder => throw .isFolder
  | .entry path =>
    if Path.endsOpen t then throw .isFolder
    if (path.getLast?).any Path.exceeds then throw .tooLong
    if f.isFolder path then throw .isFolder else return path

def putIn (path : Path) (content : Bytes) : List (Path × Bytes) → List (Path × Bytes)
  | [] => [(path, content)]
  | (p, old) :: rest =>
    if p = path then (p, content) :: rest else (p, old) :: putIn path content rest

def put (path : Path) (content : Bytes) : Folder :=
  { f with files := putIn path content f.files }

def append (path : Path) (content : Bytes) : Folder :=
  f.put path ((f.file? path).getD [] ++ content)

def absolute (t : Text) : Text :=
  let name := Path.toText "/" f.home
  if Path.isAbsolute t then t else if t = "." then name else name ++ "/" ++ t

end Folder

end DocTree
