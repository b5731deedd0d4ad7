import Shorthand.Error
import Shorthand.Registry

/-!
File trees: the directories and files below the root, each under the names that lead to it.
Entries are listed in the order of their routes, so a directory comes before what it holds and
names in it follow each other by code point. The root itself is always there.
-/

namespace Shorthand

/-- What a file holds: a text, or bytes that are not UTF-8. -/
inductive Content where
  | text (t : Text)
  | binary (bytes : List UInt8)
  deriving DecidableEq, Repr

def Content.ofBytes (bytes : ByteArray) : Content :=
  match String.fromUTF8? bytes with
  | some s => .text s.toList
  | none => .binary bytes.toList

inductive Entry where
  | directory
  | file (content : Content)
  deriving DecidableEq, Repr

/-- The text of a file. -/
def Entry.read : Entry → Except Error Text
  | directory => .error .isDirectory
  | file (.text t) => .ok t
  | file (.binary _) => .error .notUtf8

/-- The names from the root to an entry. -/
abbrev Route := List Text

def Route.before (a b : Route) : Bool :=
  List.lex a b Text.before

structure FileTree where
  entries : List (Route × Entry)
  deriving DecidableEq, Repr

namespace FileTree

def empty : FileTree := ⟨[]⟩

def lookup (route : Route) : List (Route × Entry) → Option Entry
  | [] => none
  | (r, e) :: rest => if r = route then some e else lookup route rest

def get? (t : FileTree) (route : Route) : Option Entry :=
  if route = [] then some .directory else lookup route t.entries

def place (route : Route) (entry : Entry) : List (Route × Entry) → List (Route × Entry)
  | [] => [(route, entry)]
  | (r, e) :: rest =>
      if r = route then (route, entry) :: rest
      else if route.before r then (route, entry) :: (r, e) :: rest
      else (r, e) :: place route entry rest

def put (t : FileTree) (route : Route) (entry : Entry) : FileTree :=
  ⟨place route entry t.entries⟩

def erase (t : FileTree) (route : Route) : FileTree :=
  ⟨t.entries.filter fun (r, _) => r ≠ route⟩

/-- Makes the directories on the way that are missing. -/
def makeDirectories (t : FileTree) (route : Route) : FileTree :=
  ((List.range route.length).map fun n => route.take (n + 1)).foldl
    (fun t r => if (t.get? r).isSome then t else t.put r .directory) t

/-- The entries below a directory, in order, with their routes from there. -/
def under (t : FileTree) (route : Route) : List (Route × Entry) :=
  t.entries.filterMap fun (r, e) =>
    match List.isPrefixOf? route r with
    | none | some [] => none
    | some rest => some (rest, e)

/-- The length in bytes up to which a name is looked up. -/
def nameLimit : Nat := 255

/-- The length in bytes up to which a path is followed. -/
def pathLimit : Nat := 4095

/-- Why a path leads nowhere. -/
inductive LookupFault where
  | missing
  | notDirectory
  | tooLong
  deriving DecidableEq, Repr

/-- Follows the segments of a path. Each is looked up in a directory that must exist. -/
def follow (t : FileTree) : Route → List Text → Except LookupFault Route
  | here, [] => .ok here
  | here, s :: rest =>
      match t.get? here with
      | none => .error .missing
      | some (.file _) => .error .notDirectory
      | some .directory =>
          match Component.ofSegment? s with
          | some (.name n) =>
              if n.byteLength ≤ nameLimit then follow t (here ++ [n]) rest else .error .tooLong
          | some .parent => follow t here.dropLast rest
          | _ => follow t here rest

/-- What an absolute path leads to. -/
def find (t : FileTree) (p : Path) : Except LookupFault Entry :=
  if p.text.byteLength > pathLimit then .error .tooLong
  else if p.isAbsolute then do
    match t.get? (← t.follow [] (p.text.splitOn '/')) with
    | some e => .ok e
    | none => .error .missing
  else .error .missing

def pathExists (t : FileTree) (p : Path) : Bool :=
  match t.find p with
  | .ok _ => true
  | .error _ => false

/-- The text of the file at a path, if there is something at that path. -/
def readText? (t : FileTree) (p : Path) : Except Error (Option Text) :=
  match t.find p with
  | .error .missing => .ok none
  | .error .notDirectory => .error .notDirectory
  | .error .tooLong => .error .nameTooLong
  | .ok entry => entry.read.map some

/-- The files that differ from those of an earlier tree, or are not in it. -/
def changedFiles (earlier later : FileTree) : List (Route × Content) :=
  later.entries.filterMap fun (route, entry) =>
    match entry with
    | .directory => none
    | .file content => if earlier.get? route = some entry then none else some (route, content)

/-- The names of an absolute path in normal form. -/
def routeOf (p : Path) : Route :=
  p.components.filterMap fun
    | .name n => some n
    | _ => none

end FileTree
end Shorthand
