import Shorthand.Command.Report
import Shorthand.Project

/-!
The check of a project: every link that is no URL must lead to something that exists.
-/

namespace Shorthand

inductive LinkStatus where
  | external
  | found
  | missing (path : Path)
  | unresolved
  deriving DecidableEq, Repr

def LinkStatus.ofPath (t : FileTree) (path : Path) : LinkStatus :=
  if t.pathExists path then found else missing path

namespace Project

def status (p : Project) (t : FileTree) (o : Occurrence) : LinkStatus :=
  match p.resolver.resolve (o.request .location) with
  | .display text => .ofPath t ⟨text⟩
  | .external _ => .external
  | .location path => .ofPath t path
  | .unresolved => .unresolved

/-- The line for a link that is broken. -/
def brokenLine? (p : Project) (t : FileTree) (o : Occurrence) : Option Text :=
  let place := p.shown o.source ++ ":" ++ Text.ofNat o.line
  match p.status t o with
  | .external | .found => none
  | .missing path =>
      some ("MISSING     " ++ place ++ "  " ++ o.link.written ++ " -> " ++ p.shown path)
  | .unresolved => some ("UNRESOLVED  " ++ place ++ "  " ++ o.link.written)

/-- Where the links of the documents lead, if all documents can be read. -/
def locations (p : Project) (t : FileTree) : List Path :=
  match p.scan t with
  | .error _ => []
  | .ok links => links.filterMap fun o =>
      match p.resolver.resolve (o.request .location) with
      | .location path => some path
      | _ => none

/-- The largest 32-bit number, where the count of broken links stops. -/
def lastCount : Nat := 4294967295

def check (p : Project) (t : FileTree) : Except Error Report := do
  let links ← p.scan t
  let broken := links.filterMap (p.brokenLine? t)
  return if broken.isEmpty then
    { output := "All " ++ Text.ofNat links.length ++ " links resolve\n" }
  else
    { exit := .broken
      output := Text.ofLines broken ++ "\n" ++ Text.ofNat (min broken.length lastCount) ++
        " broken\n" }

end Project
end Shorthand
