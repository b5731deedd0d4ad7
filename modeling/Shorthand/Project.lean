import Shorthand.Config
import Shorthand.FileTree
import Shorthand.Link.Occurrence
import Shorthand.Resolve

/-!
Projects: a directory with its configuration. The documents of a project are the entries below
it whose names end in `.md` and that its configuration covers; scanning lists their links.
-/

namespace Shorthand

/-- Whether a name has the extension of a document and something before it. -/
def isDocumentName (name : Text) : Bool :=
  match List.isSuffixOf? (".md" : Text) name with
  | some stem => !stem.isEmpty
  | none => false

/-- The path that a route leads to from a directory. -/
def Path.along (root : Path) (route : Route) : Path :=
  if route = [] then root else root.join (Text.joinWith ['/'] route)

/-- An entry of a tree as a document of the project above it. -/
structure Source where
  route : Route
  /-- The path from the project. -/
  relative : Text
  path : Path
  entry : Entry
  deriving DecidableEq, Repr

/-- The entry at a route from the project as a source. -/
def Source.ofRoute (root : Path) (route : Route) (entry : Entry) : Source where
  route := FileTree.routeOf root ++ route
  relative := Text.joinWith ['/'] route
  path := root.along route
  entry

/-- The text of a document, if its path can be followed. -/
def Source.read (s : Source) : Except Error Text :=
  if s.path.text.byteLength > FileTree.pathLimit then .error .nameTooLong else s.entry.read

namespace FileTree

/-- Whether a walk from a directory comes to what is at a route from there. It goes into a directory
only if the path of the directory can be followed. -/
def isListed (root : Path) (route : Route) : Bool :=
  route = [] || (root.along route.dropLast).text.byteLength ≤ pathLimit

/-- Whether a walk from a project's directory takes what is at a route for a document. -/
def isDocument (root : Path) (route : Route) : Bool :=
  ((routeOf root ++ route).getLast?.map isDocumentName).getD false && isListed root route

/-- The entries at and below a project's directory that have the extension of documents. -/
def sources (t : FileTree) (root : Path) : List Source :=
  let all := ([], Entry.directory) :: t.under (routeOf root)
  all.filterMap fun (route, entry) =>
    if isDocument root route then some (.ofRoute root route entry) else none

end FileTree

def Config.file (root : Path) : Path :=
  root.join configFile

/-- The configuration of the project at `root`. Without a file it is the default one. -/
def Config.load (root : Path) (t : FileTree) : Except Error Config := do
  match ← t.readText? (Config.file root) with
  | none => .ok {}
  | some content => Config.parse (Config.file root) content

/-- The documents that a configuration covers. -/
def Config.sources (c : Config) (root : Path) (t : FileTree) : List Source :=
  (t.sources root).filter fun s => c.covers s.relative

structure Project where
  root : Path
  config : Config
  deriving DecidableEq, Repr

namespace Project

def load (root : Path) (t : FileTree) : Except Error Project :=
  (Config.load root t).map fun config => { root, config }

def workspaces (p : Project) : Workspaces :=
  p.config.workspaceFolders p.root

def resolver (p : Project) : Resolver where
  table := p.config.table
  options := p.config.options
  workspaces := p.workspaces

/-- A path as the user sees it: without the project's directory in front. -/
def shown (p : Project) (path : Path) : Text :=
  ((path.below? p.root).getD path).text

/-- The links of all documents, document by document. -/
def scan (p : Project) (t : FileTree) : Except Error (List Occurrence) := do
  let found ← (p.config.sources p.root t).mapM fun s =>
    s.read.map (Occurrence.ofDocument s.path)
  return found.flatten

/-- The links of one document named on the command line. -/
def scanDocument (p : Project) (t : FileTree) (document : Text) :
    Except Error (List Occurrence) := do
  let path := p.root.join document
  match ← t.readText? path with
  | none => .error (.fileNotFound path)
  | some content => .ok (Occurrence.ofDocument path content)

end Project
end Shorthand
