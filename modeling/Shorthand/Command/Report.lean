import Shorthand.Error.Report
import Shorthand.FileTree

/-!
What a command leaves behind: how it ended, its output and log, and the file tree.
-/

namespace Shorthand

inductive Exit where
  | success
  /-- Some links are broken. -/
  | broken
  /-- The command ended with an error. -/
  | failed
  /-- The configuration file cannot hold what was to be put into it. -/
  | aborted
  deriving DecidableEq, Repr

def Exit.code : Exit → Nat
  | success => 0
  | broken => 2
  | failed => 3
  | aborted => 101

structure Report where
  exit : Exit := .success
  output : Text := []
  log : Text := []
  /-- The error that the output or the log tells of. -/
  error : Option Error := none
  deriving DecidableEq, Repr

/-- Lines with their line feeds. -/
def Text.ofLines (lines : List Text) : Text :=
  lines.flatMap fun line => line ++ ['\n']

def logLine (topic message : Text) : Text :=
  topic ++ ": " ++ message ++ "\n"

namespace Report

def ofError (e : Error) : Report where
  exit := .failed
  log := e.terminalReport
  error := some e

def ofResult : Except Error Report → Report
  | .ok r => r
  | .error e => ofError e

end Report

/-- A report together with the tree after the command. -/
structure Outcome where
  report : Report
  tree : FileTree
  deriving DecidableEq, Repr

end Shorthand
