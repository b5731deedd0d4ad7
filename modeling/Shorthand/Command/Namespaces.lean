import Shorthand.Command.Report
import Shorthand.Config.Edit
import Shorthand.Project
import Shorthand.Toml.Printer

/-!
Listing, adding, removing and renaming namespaces. Adding and removing change the configuration
file only; renaming also changes the link targets in the documents that the changed configuration
covers.
-/

namespace Shorthand
namespace Project

/-- A namespace with its root and the wrappers that stand for it. -/
def namespaceLine (table : NamespaceTable) (name root : Text) : Text :=
  let wrappers := Wrapper.all.filter fun w => table.wrapperNamespace? w = some name
  let note : Text :=
    if wrappers.isEmpty then []
    else "  (wrapper " ++ Text.joinWith [' '] (wrappers.map fun w => w.wrap []) ++ ")"
  name ++ " -> " ++ root ++ note

def listNamespaces (p : Project) : Report where
  output := Text.ofLines (p.config.table.roots.map fun (name, root) =>
    namespaceLine p.config.table name root)

/-- How many links use a namespace by its name. -/
def countUses (p : Project) (t : FileTree) (name : Text) : Except Error Nat :=
  (p.scan t).map fun links =>
    (links.filter fun o => (name ++ [':']).isPrefixOf o.link.target.trimmed).length

end Project

namespace Outcome

def ofError (t : FileTree) (e : Error) : Outcome :=
  ⟨.ofError e, t⟩

def logged (t : FileTree) (message : Text) : Outcome :=
  ⟨{ log := logLine "namespace" message }, t⟩

end Outcome

/-- The document of the configuration file of the project at `root`. A missing file counts as
empty. -/
def configDocument (root : Path) (t : FileTree) : Except Error Toml.Document := do
  let file := Config.file root
  let content ← t.readText? file
  match Toml.Document.parse (content.getD []) with
  | .error fault => .error (.parseFailed file fault.message)
  | .ok d => .ok d

def putConfig (root : Path) (t : FileTree) (d : Toml.Document) : FileTree :=
  t.put (FileTree.routeOf root ++ [configFile]) (.file (.text d.write))

def addNamespace (root : Path) (t : FileTree) (name path : Text) : Outcome :=
  match Namespace.nameFault? name with
  | some reason => .ofError t (.invalidNamespace name reason)
  | none =>
      match configDocument root t with
      | .error e => .ofError t e
      | .ok d =>
          match d.addNamespace name path with
          | .ok d => .logged (putConfig root t d) ("added " ++ name ++ " -> " ++ path)
          | .error (.error e) => .ofError t e
          | .error .noTable => ⟨{ exit := .aborted }, t⟩

/-- Without `force`, a namespace that links still use is not removed. -/
def removeNamespace (root : Path) (t : FileTree) (name : Text) (force : Bool) : Outcome :=
  let removed : Except Error FileTree := do
    let project ← Project.load root t
    if !force then
      let count ← project.countUses t name
      if count > 0 then throw (.namespaceInUse name count)
    return putConfig root t (← (← configDocument root t).removeNamespace name)
  match removed with
  | .ok t => .logged t ("removed " ++ name)
  | .error e => .ofError t e

/-- The start of a link target in a namespace, with the end of the label before it. -/
def targetStart (name : Text) : Text :=
  "](" ++ name ++ ":"

/-- The order in which documents are come to. A walk that does not sort takes the entries of a
directory as the file system lists them, which can be in any order. -/
structure Walk where
  arrange : List Source → List Source
  perm : ∀ documents, (arrange documents).Perm documents

/-- The walk that takes entries by their names. -/
def Walk.byName : Walk where
  arrange := id
  perm := .refl

/-- What came of renaming in documents: those changed, and the error that ended it. -/
structure Retargeting where
  tree : FileTree
  changed : List Text := []
  error : Option Error := none

def retarget (old new : Text) : List Source → FileTree → Retargeting
  | [], t => { tree := t }
  | s :: rest, t =>
      match s.read with
      | .error e => { tree := t, error := some e }
      | .ok content =>
          if Text.occurs (targetStart old) content then
            let content := Text.replaceAll (targetStart old) (targetStart new) content
            let done := retarget old new rest (t.put s.route (.file (.text content)))
            { done with changed := s.relative :: done.changed }
          else retarget old new rest t

/-- Renames in the documents that a configuration covers, as a walk comes to them. -/
def Config.retarget (c : Config) (root : Path) (old new : Text) (walk : Walk) (t : FileTree) :
    Retargeting :=
  Shorthand.retarget old new (walk.arrange (c.sources root t)) t

def renameNamespace (root : Path) (t : FileTree) (old new : Text) (verbose : Bool)
    (walk : Walk) : Outcome :=
  match Namespace.nameFault? new with
  | some reason => .ofError t (.invalidNamespace new reason)
  | none =>
      match (configDocument root t).bind fun d => d.renameNamespace old new with
      | .error e => .ofError t e
      | .ok d =>
          let edited := putConfig root t d
          match Config.load root edited with
          | .error e => .ofError edited e
          | .ok config =>
              let done := config.retarget root old new walk edited
              let log := if verbose then
                  done.changed.flatMap fun d => logLine "namespace" ("rewrote " ++ d)
                else []
              match done.error with
              | some e => ⟨{ Report.ofError e with log := log ++ e.terminalReport }, done.tree⟩
              | none =>
                  let message := "renamed " ++ old ++ " -> " ++ new ++ " (" ++
                    Text.ofNat done.changed.length ++ " files rewritten)"
                  ⟨{ log := log ++ logLine "namespace" message }, done.tree⟩

end Shorthand
