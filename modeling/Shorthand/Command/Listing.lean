import Shorthand.Command.Report
import Shorthand.Json
import Shorthand.Link.Render
import Shorthand.Project
import Shorthand.Text.Quoted

/-!
Listings of resolved links, as lines or as JSON, and single documents rendered.
-/

namespace Shorthand

/-- A resolution as the log names it. -/
def Resolution.described : Resolution → Text
  | .display text => "Display(" ++ text.quoted ++ ")"
  | .external text => "External(" ++ text.quoted ++ ")"
  | .location path => "Location(" ++ path.text.quoted ++ ")"
  | .unresolved => "Unresolved"

namespace Project

/-- The record of a link. A link from the command line has no position. -/
def record (p : Project) (o : Occurrence) (positioned : Bool) (r : Resolution) : Json :=
  let target := o.link.target.trimmed
  let config := p.config
  .object [
    ("canonical", .text (config.table.expandTarget config.options target o.link.label)),
    ("column", if positioned then .number o.column else .null),
    ("kind", .text r.kind),
    ("label", .text o.link.label),
    ("line", if positioned then .number o.line else .null),
    ("resolved", .text r.text),
    ("rule", .ofText? ((Rule.of? target).map Rule.name)),
    ("source", .text (p.shown o.source)),
    ("target", .text o.link.target),
    ("tooltip", .text r.tooltip)]

def listingLine (p : Project) (o : Occurrence) (r : Resolution) : Text :=
  p.shown o.source ++ ":" ++ Text.ofNat o.line ++ ":" ++ Text.ofNat o.column ++ "  " ++
    o.link.written ++ " -> " ++ r.text ++ "  (" ++ r.tooltip ++ ")"

def verboseLine (o : Occurrence) (r : Resolution) : Text :=
  logLine "links" (o.source.text ++ ":" ++ Text.ofNat o.line ++ " " ++ o.link.target.quoted ++
    " -> " ++ r.described)

/-- The links of the whole project if no documents are named. -/
def linksOf (p : Project) (t : FileTree) (documents : List Text) :
    Except Error (List Occurrence) :=
  if documents.isEmpty then p.scan t
  else (documents.mapM (p.scanDocument t)).map List.flatten

def listLinks (p : Project) (t : FileTree) (documents : List Text) (json verbose : Bool) :
    Except Error Report := do
  let links ← p.linksOf t documents
  let resolved := links.map fun o => (o, p.resolver.resolve (o.request .fromDocument))
  return {
    output := Text.ofLines (if json then [(Json.array (resolved.map fun (o, r) =>
        p.record o true r)).write]
      else resolved.map fun (o, r) => p.listingLine o r)
    log := if verbose then resolved.flatMap fun (o, r) => verboseLine o r else [] }

/-- Every failure to read the document means that it is not there. -/
def renderDocument (p : Project) (t : FileTree) (document : Text) : Except Error Report :=
  let path := p.root.join document
  match t.readText? path with
  | .ok (some content) => .ok { output := p.resolver.render path content }
  | _ => .error (.fileNotFound path)

/-- Resolves a target as if it stood in a document, which need not exist. -/
def resolveTarget (p : Project) (document target label : Text) (mode : Mode) (json : Bool) :
    Report :=
  let o : Occurrence :=
    { link := ⟨label, target⟩, source := p.root.join document, line := 0, column := 0 }
  let r := p.resolver.resolve (o.request mode)
  { output := Text.ofLines [if json then (p.record o false r).write else r.text] }

end Project
end Shorthand
