import Shorthand.Registry
import Shorthand.Toml.Document

/-!
The settings that a configuration file holds, before they are checked against each other.
-/

namespace Shorthand

structure Settings where
  included : List Text := []
  excluded : List Text := []
  indexFile : Option Text := none
  namespaces : Registry := []
  urlPlaceholders : Option Bool := none
  workspaces : Option (List Text) := none
  wrappers : Registry := []
  deriving DecidableEq, Repr

namespace Settings

/-- The key under which a date or time holds its text where a table is expected. No namespace
and no wrapper can have this name. -/
def momentKey : Text := "$__toml_private_datetime"

/-- A table of texts under names. -/
def registryOf? : Toml.Item → Option Registry
  | .scalar .moment spelling _ => some [(momentKey, spelling)]
  | item => do
      (← Toml.Entries.of? item).foldlM (fun r (k, i) => i.text?.map fun t => r.put k.name t) []

/-- Takes in one entry of the file. Other keys and other types are refused. -/
def read? (s : Settings) (key : Text) (item : Toml.Item) : Option Settings :=
  if key = ("include" : Text) then item.texts?.map fun l => { s with included := l }
  else if key = ("exclude" : Text) then item.texts?.map fun l => { s with excluded := l }
  else if key = ("index_file" : Text) then item.text?.map fun t => { s with indexFile := some t }
  else if key = ("namespaces" : Text) then
    (registryOf? item).map fun r => { s with namespaces := r }
  else if key = ("url_placeholders" : Text) then
    item.boolean?.map fun b => { s with urlPlaceholders := some b }
  else if key = ("workspaces" : Text) then
    item.texts?.map fun l => { s with workspaces := some l }
  else if key = ("wrappers" : Text) then (registryOf? item).map fun r => { s with wrappers := r }
  else none

def ofDocument? (d : Toml.Document) : Option Settings :=
  d.entries.foldlM (fun s (k, i) => s.read? k.name i) {}

end Settings
end Shorthand
