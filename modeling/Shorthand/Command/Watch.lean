import Shorthand.Command.Check

/-!
Watching a project: a check at the start and one after every change. Each check loads the
project anew, so it never depends on what was there before.
-/

namespace Shorthand

/-- A file that was written or removed. -/
structure FileChange where
  route : Route
  /-- What the file holds now, unless it is gone. -/
  content : Option Content
  deriving DecidableEq, Repr

def FileTree.changed (t : FileTree) (c : FileChange) : FileTree :=
  match c.content with
  | some content => t.put c.route (.file content)
  | none => t.erase c.route

namespace Watch

/-- A check that logs its error and goes on. -/
def recheck (root : Path) (t : FileTree) : Report :=
  match (Project.load root t).bind fun p => p.check t with
  | .ok r => r
  | .error e => { exit := .failed, log := logLine "error" e.message, error := some e }

/-- The directories to watch: the workspace folders and those of all documents with links. -/
def directories (p : Project) (links : List Occurrence) : List Path :=
  (p.workspaces.roots ++ links.map fun o => o.source.directory).eraseDups

def watchedDirectories (root : Path) (t : FileTree) : Except Error (List Path) := do
  let p ← Project.load root t
  return directories p (← p.scan t)

/-- The start of watching. It ends at once if the project cannot be loaded or scanned. -/
def start (root : Path) (t : FileTree) : Report × Bool :=
  let first := recheck root t
  let log := logLine "watch" "initial check" ++ first.log
  match watchedDirectories root t with
  | .ok dirs =>
      let message := "monitoring " ++ Text.ofNat dirs.length ++
        " directories, press Ctrl+C to stop"
      ({ first with log := log ++ logLine "watch" message }, true)
  | .error e =>
      ({ Report.ofError e with output := first.output, log := log ++ e.terminalReport }, false)

/-- What a change causes, given the tree after it. -/
def change (root : Path) (t : FileTree) : Report :=
  let r := recheck root t
  { r with log := logLine "watch" "change detected, re-checking..." ++ r.log }

/-- What watching holds between two changes. -/
structure Session where
  root : Path
  /-- Watched with all that is below them. They are chosen at the start and never again. -/
  directories : List Path
  /-- How the latest check ended. -/
  exit : Exit
  deriving DecidableEq, Repr

namespace Session

/-- A directory that does not exist at the start is not watched. -/
def start (root : Path) (t : FileTree) : Except Error Session :=
  (watchedDirectories root t).map fun dirs =>
    { root, directories := dirs.filter t.pathExists, exit := (recheck root t).exit }

/-- Whether a change happens in a watched directory. Of others watching hears nothing. -/
def notices (s : Session) (c : FileChange) : Bool :=
  s.directories.any fun d => (FileTree.routeOf d).isPrefixOf c.route

/-- A check of the tree after a change. -/
def next (s : Session) (t : FileTree) : Session × Report :=
  let r := change s.root t
  ({ s with exit := r.exit }, r)

/-- What is told after each of a number of changes. -/
def serve : Session → FileTree → List FileChange → List (Option Report)
  | _, _, [] => []
  | s, t, c :: rest =>
      if s.notices c then
        let (later, r) := s.next (t.changed c)
        some r :: serve later (t.changed c) rest
      else none :: serve s (t.changed c) rest

end Session
end Watch
end Shorthand
