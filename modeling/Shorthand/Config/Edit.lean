import Shorthand.Error
import Shorthand.Namespace.Name
import Shorthand.Toml.Document
import Shorthand.Toml.Spelling

/-!
Edits of the namespaces in a configuration file. They change the file's document and leave
everything else in it as it was written.
-/

namespace Shorthand

inductive EditFault where
  | error (e : Error)
  /-- `namespaces` is neither a table nor an inline table. -/
  | noTable
  deriving DecidableEq, Repr

namespace Toml

/-- A text as a value that brings no white space of its own. -/
def Item.ofText (value : Text) : Item :=
  .scalar (.text value) (stringSpelling value) {}

namespace Document

/-- The error for a name that the file does not define. -/
def notConfigured (name : Text) : Error :=
  if Namespace.isBuiltin name then .builtinNamespace name else .unknownNamespace name

/-- Puts a new namespace after the entries `es` and the result back by `rebuild`. -/
def extendNamespaces (d : Document) (name root : Text) (es : Entries)
    (rebuild : Entries → Item) : Except EditFault Document :=
  if es.has name then .error (.error (.namespaceExists name))
  else
    let item := rebuild (es ++ [(Key.bare name, Item.ofText root)])
    .ok { d with entries := d.entries.set "namespaces" item }

/-- Adds a namespace that the file does not define yet. -/
def addNamespace (d : Document) (name root : Text) : Except EditFault Document :=
  match d.entries.get? "namespaces" with
  | none =>
      let item := Item.table {} [(Key.bare name, Item.ofText root)]
      .ok { d with entries := d.entries ++ [(Key.bare "namespaces", item)] }
  | some (.table head es) => d.extendNamespaces name root es (.table head)
  | some (.inline dotted opening es decor) =>
      d.extendNamespaces name root es fun es => .inline dotted opening es decor
  | some _ => .error .noTable

/-- The table of namespaces, unless it is written as a value. -/
def namespaceTable? (d : Document) : Option (Head × Entries) :=
  match d.entries.get? "namespaces" with
  | some (.table head es) => some (head, es)
  | _ => none

def removeNamespace (d : Document) (name : Text) : Except Error Document :=
  match d.namespaceTable? with
  | none => .error (notConfigured name)
  | some (head, es) =>
      if es.has name then
        .ok { d with entries := d.entries.set "namespaces" (.table head (es.erase name)) }
      else .error (notConfigured name)

/-- Points the wrappers of one namespace at another, unless they are written as a value. -/
def renameInWrappers (old new : Text) (es : Entries) : Entries :=
  match es.get? "wrappers" with
  | some (.table head wrappers) =>
      es.set "wrappers" (.table head (wrappers.map fun (k, i) =>
        if i.text? = some old then (k, Item.ofText new) else (k, i)))
  | _ => es

/-- The namespace moves to the end of its table under the new name. -/
def renameNamespace (d : Document) (old new : Text) : Except Error Document :=
  match d.namespaceTable? with
  | none => .error (notConfigured old)
  | some (head, es) =>
      if es.has new then .error (.namespaceExists new)
      else match es.get? old with
        | none => .error (notConfigured old)
        | some item =>
            let renamed := Item.table head (es.erase old ++ [(Key.bare new, item)])
            let entries := d.entries.set "namespaces" renamed
            .ok { d with entries := renameInWrappers old new entries }

end Document
end Toml
end Shorthand
