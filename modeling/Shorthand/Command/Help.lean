import Shorthand.Command.Arguments
import Shorthand.Command.Card

/-!
What is shown instead of running a command: the help, the version, or why an argument list was
not understood.
-/

namespace Shorthand

def versionLine : Text :=
  "colonlink " ++ version ++ "\n"

def helpText : Text :=
  "Resolve shorthand link targets in markdown\n\n" ++
  "Usage: colonlink [--verbose] <command>\n\n" ++
  "Commands:\n" ++
  Text.ofLines [
    "  check                                  Report links whose targets do not exist",
    "  info [--json]                          Show the grammar and the configuration",
    "  links [--json] [document]...           List links with their resolutions",
    "  namespace add <name> <path>            Add a namespace",
    "  namespace list                         List namespaces",
    "  namespace remove [--force] <name>      Remove a namespace",
    "  namespace rename <old> <new>           Rename a namespace and the links that use it",
    "  render <document>                      Print a document with resolved links",
    "  resolve <document> [target]            Resolve one target",
    "          [--text <label>] [--json] [--absolute | --workspace-relative]",
    "  watch                                  Check again after every change"]

namespace Usage

/-- Asking for help or the version is no error. -/
def exitCode : Usage → Nat
  | help | version => 0
  | _ => 2

def reason : Usage → Text
  | help | version => []
  | nothingGiven | missingCommand => "a command is required"
  | unknownCommand => "there is no such command"
  | unknownArgument => "an argument was not expected"
  | missingArgument => "an argument is missing"
  | missingValue => "an option lacks its value"
  | unexpectedValue => "a flag was given a value"
  | conflict => "two arguments exclude each other"

def message : Usage → Text
  | help | nothingGiven => helpText
  | version => versionLine
  | usage => "error: " ++ usage.reason ++ "\n\n" ++ helpText

end Usage
end Shorthand
