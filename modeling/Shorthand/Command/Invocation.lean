import Shorthand.Command.Arguments

/-!
Invocations: the commands with their arguments, and how argument lists spell them.
-/

namespace Shorthand

inductive NamespaceAction where
  | add (name path : Text)
  | list
  | remove (name : Text) (force : Bool)
  | rename (old new : Text)
  deriving DecidableEq, Repr

inductive Command where
  | check
  | info (json : Bool)
  | links (documents : List Text) (json : Bool)
  | namespaces (action : NamespaceAction)
  | render (document : Text)
  | resolve (document target label : Text) (absolute workspaceRelative json : Bool)
  | watch
  deriving DecidableEq, Repr

/-- The documents that a command reads by name. -/
def Command.documents : Command → List Text
  | links documents _ => documents
  | render document => [document]
  | _ => []

structure Invocation where
  command : Command
  verbose : Bool
  deriving DecidableEq, Repr

namespace Command
open Arguments

/-- A command and whether its own arguments ask for a verbose log. -/
abbrev Parsed := Except Usage (Command × Bool)

/-- Flags that a level accepts besides `--verbose`, which every level does. -/
def level (flags : List Text) (capacity : Option Nat) : Level where
  flags := "verbose" :: flags
  capacity := capacity

def isVerbose (s : State) : Bool :=
  s.flags.contains "verbose"

def has (s : State) (flag : Text) : Bool :=
  s.flags.contains flag

def parsePlain (command : Command) (args : List Text) : Parsed := do
  let s ← (level [] (some 0)).readAll args
  return (command, isVerbose s)

def parseInfo (args : List Text) : Parsed := do
  let s ← (level ["json"] (some 0)).readAll args
  return (info (has s "json"), isVerbose s)

def parseLinks (args : List Text) : Parsed := do
  let s ← (level ["json"] none).readAll args
  return (links s.values (has s "json"), isVerbose s)

def parseRender (args : List Text) : Parsed := do
  let s ← (level [] (some 1)).readAll args
  match s.values with
  | [document] => return (render document, isVerbose s)
  | _ => throw .missingArgument

/-- The two flags that choose a shape exclude each other, which is noticed before a missing
document is. -/
def parseResolve (args : List Text) : Parsed := do
  let flags : List Text := ["absolute", "json", "workspace-relative"]
  let s ← { level flags (some 2) with option := some ("text", 't') : Level }.readAll args
  if has s "absolute" && has s "workspace-relative" then throw .conflict
  match s.values with
  | [] => throw .missingArgument
  | document :: rest =>
      return (resolve document (rest.headD []) (s.option.getD []) (has s "absolute")
        (has s "workspace-relative") (has s "json"), isVerbose s)

def parseAction (name : Text) (args : List Text) : Parsed := do
  let action (a : NamespaceAction) (s : State) : Command × Bool := (namespaces a, isVerbose s)
  if name = ("add" : Text) then
    let s ← (level [] (some 2)).readAll args
    match s.values with
    | [name, path] => return action (.add name path) s
    | _ => throw .missingArgument
  else if name = ("remove" : Text) then
    let s ← (level ["force"] (some 1)).readAll args
    match s.values with
    | [name] => return action (.remove name (has s "force")) s
    | _ => throw .missingArgument
  else if name = ("rename" : Text) then
    let s ← (level [] (some 2)).readAll args
    match s.values with
    | [old, new] => return action (.rename old new) s
    | _ => throw .missingArgument
  else
    let s ← (level [] (some 0)).readAll args
    return action .list s

def helpName : Text := "help"

def actionNames : List Text := ["add", "list", "remove", "rename"]

def names : List Text := ["check", "info", "links", "namespace", "render", "resolve", "watch"]

/-- The commands that a command leads to. -/
def below (name : Text) : List Text :=
  if name = ("namespace" : Text) then helpName :: actionNames else []

/-- Help on a command, found by the names that lead to it. -/
def helpOn : (commands path : List Text) → Usage
  | _, [] => .help
  | commands, name :: rest =>
      if name ∈ commands then helpOn (below name) rest else .unknownCommand

/-- Reads a level whose arguments lead to a command. -/
def parseGroup (commands : List Text) (hasVersion : Bool) (args : List Text)
    (next : Text → List Text → Parsed) : Parsed := do
  let all := helpName :: commands
  let (s, command) ← { level [] (some 0) with commands := all, hasVersion : Level }.read {} args
  match command with
  | none => throw (if s.flags.isEmpty then .nothingGiven else .missingCommand)
  | some (name, rest) =>
      if name = helpName then throw (helpOn all rest)
      else
        let (command, verbose) ← next name rest
        return (command, verbose || isVerbose s)

def parse (name : Text) (args : List Text) : Parsed :=
  if name = ("check" : Text) then parsePlain check args
  else if name = ("info" : Text) then parseInfo args
  else if name = ("links" : Text) then parseLinks args
  else if name = ("namespace" : Text) then parseGroup actionNames false args parseAction
  else if name = ("render" : Text) then parseRender args
  else if name = ("resolve" : Text) then parseResolve args
  else parsePlain watch args

end Command

def Invocation.parse (args : List Text) : Except Usage Invocation :=
  (Command.parseGroup Command.names true args Command.parse).map fun (command, verbose) =>
    { command, verbose }

end Shorthand
