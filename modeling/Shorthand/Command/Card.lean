import Shorthand.Command.Report
import Shorthand.Json
import Shorthand.Project

/-!
The reference card: the shorthand grammar, the commands and the configuration of the project at
hand. A configuration that cannot be loaded is reported and the default one is shown.
-/

namespace Shorthand

def version : Text := "0.1.0"

/-- What the card says about a project. -/
structure CardState where
  configError : Option Error
  configFound : Bool
  config : Config

namespace CardState

def ofProject (root : Path) (t : FileTree) : CardState :=
  let configFound := t.pathExists (Config.file root)
  match Config.load root t with
  | .ok config => { configError := none, configFound, config }
  | .error e => { configError := some e, configFound, config := {} }

def wrappers (s : CardState) : List (Text × Text) :=
  Wrapper.all.filterMap fun w =>
    (s.config.table.wrapperNamespace? w).map fun name => (w.wrap [], name)

end CardState

def cardGuide : Text :=
  "# colonlink " ++ version ++ "\n\n" ++
  "Shorthand link targets for markdown, resolved to real paths.\n\n" ++
  "## Shorthand Syntax\n\n" ++
  Text.ofLines [
    "    [label]()              label as a path beside the document (`dir/` -> `dir/index.md`)",
    "    [label]([])            blocks:label",
    "    [label]([.])           ./label beside the document",
    "    [label]([!])           blocks:!label",
    "    [label]([X])           blocks:X",
    "    [label](())            comps:label   ((.), (!), (X) likewise)",
    "    [label](\x7b\x7d)            \x7blabel\x7d beside the document",
    "    [label](dir/:.md)      colon is replaced by the label: dir/label.md",
    "    [label](blocks:X)      X under the blocks root",
    "    [label](/X)            X under the workspace root",
    "    [label](https://..)    passed through (colons after :// are placeholders)"] ++
  "\n## Commands\n\n" ++
  Text.ofLines [
    "    colonlink resolve <doc> [target] --text <label>   Resolve one shorthand",
    "    colonlink links                                    List every link and its resolution",
    "    colonlink check                                    Verify every link exists (exit 0/2)",
    "    colonlink render <doc>                             Print doc with hrefs rewritten",
    "    colonlink namespace list|add|rename|remove         Manage namespaces",
    "    colonlink watch                                    Re-check on markdown changes"] ++
  "\n## Configuration (.colonlink.toml)\n\n" ++
  Text.ofLines [
    "    include = [\"docs/\"]                 # only scan these paths",
    "    exclude = [\"docs/archive/\"]         # skip these paths",
    "    index_file = \"index.md\"             # appended to targets ending in /",
    "    url_placeholders = true             # colons after :// are placeholders",
    "    workspaces = [\".\"]                  # workspace folders for /-rooted targets",
    "",
    "    [namespaces]",
    "    blocks = \"src/cavalion-blocks\"      # blocks:x -> src/cavalion-blocks/x",
    "",
    "    [wrappers]",
    "    brackets = \"blocks\"",
    "    parens = \"comps\""] ++
  "\n## Exit Codes\n\n" ++
  Text.ofLines [
    "| Code | Meaning |",
    "|------|---------|",
    "| 0    | Success / all links resolve |",
    "| 2    | Missing or unresolved links found |",
    "| 3    | Runtime error |"] ++
  "\n## Current State\n\n"

def arrows (pairs : List (Text × Text)) : Text :=
  Text.joinWith ", " (pairs.map fun (name, path) => name ++ " -> " ++ path)

def CardState.lines (s : CardState) : List Text :=
  let found : Text := match s.configError with
    | some e => "invalid, showing defaults: " ++ e.message
    | none => if s.configFound then "found" else "not found"
  let roots := s.config.table.roots
  ["Config:     " ++ configFile ++ " (" ++ found ++ ")",
    "Index file: " ++ s.config.options.indexFile,
    "Namespaces: " ++ (if roots.isEmpty then ("(none)" : Text) else arrows roots),
    "Wrappers:   " ++ arrows s.wrappers]

def jsonPairs (pairs : List (Text × Text)) : Json :=
  .array (pairs.map fun (name, path) => .object [("name", .text name), ("path", .text path)])

def CardState.json (s : CardState) : Json :=
  let exitCode (code : Nat) (meaning : Text) : Json :=
    .object [("code", .number code), ("meaning", .text meaning)]
  let grammar : List Text := ["[]", "[.]", "[!]", "[X]", "()", "(.)", "(!)", "(X)", "\x7b\x7d",
    "ns:X", ":", "scheme://"]
  .object [
    ("current_state", .object [
      ("config_error", .ofText? (s.configError.map Error.message)),
      ("config_found", .boolean s.configFound),
      ("index_file", .text s.config.options.indexFile),
      ("namespaces", jsonPairs s.config.table.roots),
      ("wrappers", jsonPairs s.wrappers)]),
    ("exit_codes", .array [
      exitCode 0 "Success / all links resolve",
      exitCode 2 "Missing or unresolved links found",
      exitCode 3 "Runtime error"]),
    ("grammar", .array (grammar.map .text)),
    ("version", .text version)]

/-- The card never fails. -/
def card (root : Path) (t : FileTree) (json : Bool) : Report :=
  let state := CardState.ofProject root t
  { output := if json then Text.ofLines [state.json.write]
      else cardGuide ++ Text.ofLines state.lines
    error := state.configError }

end Shorthand
