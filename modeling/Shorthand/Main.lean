import Shorthand.Command.Help
import Shorthand.Command.Run

/-!
The command line. The working directory is read into a file tree, the invocation runs on it and
the files that it changed are written back.
-/

namespace Shorthand
namespace CommandLine

def contentAt (path : Path) : IO Content := do
  return .ofBytes (← IO.FS.readBinFile (String.ofList path.text))

def pathOf (route : Route) : Path :=
  ⟨'/' :: Text.joinWith ['/'] route⟩

/-- Adds what is below a directory. Links to directories are not followed, and only documents and
the configuration are read: of other files it is enough that they are there. -/
partial def readBelow (route : Route) (entries : Array IO.FS.DirEntry) (tree : FileTree) :
    IO FileTree := do
  let mut tree := tree
  for entry in entries do
    let name := entry.fileName.toList
    let here := route ++ [name]
    if ← entry.path.isDir then
      tree := tree.put here .directory
      if (← entry.path.symlinkMetadata).type != .symlink then
        tree ← readBelow here (← entry.path.readDir) tree
    else if isDocumentName name || name == configFile then
      tree := tree.put here (.file (← contentAt (pathOf here)))
    else
      tree := tree.put here (.file (.text []))
  return tree

/-- Adds what a path leads to, if it leads anywhere. -/
def readAt (path : Path) (tree : FileTree) : IO FileTree := do
  let place := (← IO.currentDir) / String.ofList path.text
  let route := FileTree.routeOf path.normalize
  if ← place.isDir then return tree.makeDirectories route
  if ← place.pathExists then
    return (tree.makeDirectories route.dropLast).put route (.file (← contentAt path))
  return tree

/-- The tree that a command sees: the project, the documents it names and, outside of the
project, everything that links lead to. -/
def snapshot (root : Path) (documents : List Text) : IO FileTree := do
  let route := FileTree.routeOf root
  let entries ← (← IO.currentDir).readDir
  let mut tree ← readBelow route entries (FileTree.empty.makeDirectories route)
  for document in documents do
    tree ← readAt (root.join document) tree
  if let .ok project := Project.load root tree then
    for path in project.locations tree do
      if !tree.pathExists path then tree ← readAt path tree
  return tree

def printReport (report : Report) : IO Unit := do
  IO.eprint (String.ofList report.log)
  IO.print (String.ofList report.output)
  (← IO.getStdout).flush

/-- The first tree after `before` that differs from it and stays the same for a while. -/
partial def settled (root : Path) (before : FileTree) : IO FileTree := do
  IO.sleep 100
  let now ← snapshot root []
  if now.entries == before.entries then settled root before
  else
    IO.sleep 100
    if (← snapshot root []).entries == now.entries then return now
    settled root before

partial def keepWatching (s : Watch.Session) (before : FileTree) : IO UInt32 := do
  let tree ← settled s.root before
  let (s, report) := s.next tree
  printReport report
  keepWatching s tree

def watch (root : Path) : IO UInt32 := do
  let tree ← snapshot root []
  let report := (Watch.start root tree).1
  printReport report
  match Watch.Session.start root tree with
  | .ok s => keepWatching s tree
  | .error _ => return .ofNat report.exit.code

def run (i : Invocation) : IO UInt32 := do
  let root : Path := ⟨(← IO.currentDir).toString.toList⟩
  if i.command = .watch then watch root
  else
    let tree ← snapshot root i.command.documents
    let outcome := i.run root tree
    for (route, content) in tree.changedFiles outcome.tree do
      if let .text text := content then
        IO.FS.writeFile (String.ofList (pathOf route).text) (String.ofList text)
    printReport outcome.report
    return .ofNat outcome.report.exit.code

end CommandLine
end Shorthand

open Shorthand in
def main (args : List String) : IO UInt32 := do
  match Invocation.parse (args.map String.toList) with
  | .ok invocation => CommandLine.run invocation
  | .error usage =>
      let text := String.ofList usage.message
      if usage.exitCode = 0 then IO.print text else IO.eprint text
      return .ofNat usage.exitCode
