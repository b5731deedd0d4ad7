import Shorthand.Toml.Statement

/-!
Assembly of a document from its statements. No key is given twice, a table has at most one
header, and dotted keys do not reach into tables that have one.
-/

namespace Shorthand
namespace Toml
namespace Entries

/-- Goes down a path, making the tables that are missing, and changes the entries at its end.
Dotted keys enter only tables without a header. An array of tables is entered at its last
element. The change is told whether the entries belong to a table made by dotted keys. -/
def within (byDots : Bool) (change : (dotted : Bool) → Entries → Option (α × Entries)) :
    (path : List Key) → (dotted : Bool) → Entries → Option (α × Entries)
  | [], dotted, es => change dotted es
  | k :: path, _, es =>
      match es.get? k.name with
      | none => do
          let (a, inner) ← within byDots change path byDots []
          return (a, es ++ [(k, .table { implicit := true, dotted := byDots } inner)])
      | some (.table head inner) =>
          if byDots && !head.implicit then none
          else do
            let (a, inner) ← within byDots change path head.dotted inner
            return (a, es.set k.name (.table head inner))
      | some (.tables elements) => do
          let (head, inner) ← elements.getLast?
          let (a, inner) ← within byDots change path head.dotted inner
          return (a, es.set k.name (.tables (elements.dropLast ++ [(head, inner)])))
      | some _ => none

/-- Adds a pair. Keys with and without dots do not define the same table. -/
def addPair (path : List Key) (key : Key) (item : Item) (es : Entries) : Option Entries := do
  let (_, es) ← within true (fun dotted inner =>
    if dotted == path.isEmpty || inner.has key.name then none
    else some ((), inner ++ [(key, item)])) path false es
  return es

/-- Takes out the entries that a table already has before its header. -/
def takeImplicit (path : List Key) (key : Key) (es : Entries) : Option (Entries × Entries) :=
  within false (fun _ inner =>
    match inner.get? key.name with
    | none => some ([], inner)
    | some (.table head own) =>
        if head.implicit && !head.dotted then some (own, inner.erase key.name) else none
    | some _ => none) path false es

def openArray (path : List Key) (key : Key) (es : Entries) : Option Entries := do
  let (_, es) ← within false (fun _ inner =>
    match inner.get? key.name with
    | none => some ((), inner ++ [(key, .tables [])])
    | some (.tables _) => some ((), inner)
    | some _ => none) path false es
  return es

def addTable (path : List Key) (key : Key) (head : Head) (es own : Entries) :
    Option Entries := do
  let (_, es) ← within false (fun _ inner =>
    if inner.has key.name then none
    else some ((), inner ++ [(key, .table head own)])) path false es
  return es

def addElement (path : List Key) (key : Key) (head : Head) (es own : Entries) :
    Option Entries := do
  let (_, es) ← within false (fun _ inner =>
    match inner.get? key.name with
    | some (.tables elements) =>
        some ((), inner.set key.name (.tables (elements ++ [(head, own)])))
    | _ => none) path false es
  return es

end Entries

/-- The table whose pairs are being read. -/
inductive Section where
  | root
  | table (path : List Key) (key : Key) (head : Head)
  | element (path : List Key) (key : Key) (head : Head)

structure Draft where
  root : Entries := []
  current : Section := .root
  own : Entries := []
  headers : Nat := 0

namespace Draft

/-- Puts the entries of the current section where its header says. -/
def close (d : Draft) : Option Entries :=
  match d.current with
  | .root => some d.own
  | .table path key head => d.root.addTable path key head d.own
  | .element path key head => d.root.addElement path key head d.own

def add (d : Draft) : Statement → Option Draft
  | .pair path key item => do
      return { d with own := ← d.own.addPair path key item }
  | .header keys decor => do
      let root ← d.close
      let key ← keys.getLast?
      let (own, root) ← root.takeImplicit keys.dropLast key
      let head := { decor, position := some (d.headers + 1) }
      return { root, current := .table keys.dropLast key head, own, headers := d.headers + 1 }
  | .arrayHeader keys decor => do
      let root ← d.close
      let key ← keys.getLast?
      let root ← root.openArray keys.dropLast key
      let head := { decor, position := some (d.headers + 1) }
      return { root, current := .element keys.dropLast key head, own := []
               headers := d.headers + 1 }

end Draft

namespace Document

/-- Of two faults, that of the earlier statement counts. -/
def parse (content : Text) : Except Fault Document :=
  let (statements, outcome) := Statement.readAll content
  match statements.foldlM Draft.add {} with
  | none => .error .unexpected
  | some draft =>
      match outcome, draft.close with
      | .error fault, _ => .error fault
      | .ok _, none => .error .unexpected
      | .ok trailing, some entries => .ok { entries, trailing }

end Document
end Toml
end Shorthand
