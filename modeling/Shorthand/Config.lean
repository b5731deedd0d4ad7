import Shorthand.Config.Settings
import Shorthand.Namespace.Table
import Shorthand.Options
import Shorthand.Toml.Assembly
import Shorthand.Workspace

/-!
Configurations: the namespaces and wrappers of a project, its options, its workspace folders and
the documents that it covers. Every configured wrapper names a registered namespace.
-/

namespace Shorthand

structure Config where
  included : List Text := []
  excluded : List Text := []
  table : NamespaceTable := .default
  options : Options := {}
  /-- Folders relative to the project. -/
  workspaces : List Text := [['.']]
  deriving DecidableEq, Repr

namespace Config

def addNamespaces (t : NamespaceTable) (namespaces : Registry) : Except Error NamespaceTable :=
  namespaces.foldlM (fun t (name, root) => t.insert name root) t

def setWrappers (file : Path) (t : NamespaceTable) (wrappers : Registry) :
    Except Error NamespaceTable :=
  wrappers.foldlM (fun t (key, name) =>
    match Wrapper.ofKey? key with
    | some w => t.setWrapper w name
    | none => .error (.parseFailed file
        ("unknown wrapper `" ++ key ++ "` (expected `brackets` or `parens`)"))) t

def ofSettings (file : Path) (s : Settings) : Except Error Config := do
  let named ← addNamespaces .default s.namespaces
  let table ← setWrappers file named s.wrappers
  let options : Options := {}
  let config : Config := {}
  return {
    included := s.included
    excluded := s.excluded
    table
    options := {
      indexFile := s.indexFile.getD options.indexFile
      urlPlaceholders := s.urlPlaceholders.getD options.urlPlaceholders }
    workspaces := s.workspaces.getD config.workspaces }

/-- `file` is only named in errors. -/
def parse (file : Path) (content : Text) : Except Error Config :=
  match Toml.Document.parse content with
  | .error fault => .error (.tomlInvalid fault.message)
  | .ok d =>
      match Settings.ofDocument? d with
      | none => .error (.tomlInvalid Error.notConfiguration)
      | some s => ofSettings file s

/-- Whether the document at a path, relative to the project, is covered. The paths to include
and exclude are text prefixes; without any to include, all are. -/
def covers (c : Config) (relative : Text) : Bool :=
  (c.included.isEmpty || c.included.any fun p => p.isPrefixOf relative) &&
    !c.excluded.any fun p => p.isPrefixOf relative

def workspaceFolders (c : Config) (root : Path) : Workspaces :=
  .ofFolders (c.workspaces.map root.join)

end Config
end Shorthand
