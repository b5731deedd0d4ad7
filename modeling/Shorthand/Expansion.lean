import Shorthand.Namespace.Table

/-!
Expansion of wrapper shorthands into the form `namespace:payload`. The rules are tried in order
and the first that matches decides, so `[]`, `[.]` and `[!]` are not taken as payloads.
-/

namespace Shorthand

inductive Rule where
  /-- `[]` becomes the placeholder `[:]`. -/
  | emptyPlaceholder (w : Wrapper)
  /-- `[.]` becomes `ns:./:`, a file named by the label beside the document. -/
  | selfDirectory (w : Wrapper)
  /-- `[!]` becomes `ns:!:`. -/
  | sentinel (w : Wrapper)
  /-- `[X]` becomes `ns:X`. -/
  | wrapped (w : Wrapper)
  /-- `{}` becomes the placeholder `{:}`. -/
  | emptyBraces
  deriving DecidableEq, Repr

namespace Rule

/-- Every rule, the earlier ones first. -/
def all : List Rule :=
  (Wrapper.all.flatMap fun w => [emptyPlaceholder w, selfDirectory w, sentinel w, wrapped w]) ++
    [emptyBraces]

def applies (target : Text) : Rule → Bool
  | emptyPlaceholder w => w.payload? target = some []
  | selfDirectory w => w.payload? target = some ['.']
  | sentinel w => w.payload? target = some ['!']
  | wrapped w => (w.payload? target).isSome
  | emptyBraces => target = ['{', '}']

def name : Rule → Text
  | emptyPlaceholder _ => "empty-placeholder"
  | selfDirectory _ => "self-directory"
  | sentinel _ => "sentinel"
  | wrapped _ => "generic-wrapper"
  | emptyBraces => "empty-braces"

def wrapper? : Rule → Option Wrapper
  | emptyPlaceholder w | selfDirectory w | sentinel w | wrapped w => some w
  | emptyBraces => none

/-- The first rule that applies. -/
def of? (target : Text) : Option Rule :=
  all.find? (applies target)

end Rule

namespace NamespaceTable

/-- `payload` in the namespace of a wrapper family. A family without one leaves the target. -/
def inWrapper (t : NamespaceTable) (w : Wrapper) (payload target : Text) : Text :=
  match t.wrapperNamespace? w with
  | some name => name ++ ':' :: payload
  | none => target

/-- What a rule makes of a target to which it applies. -/
def expandBy (t : NamespaceTable) (target : Text) : Rule → Text
  | .emptyPlaceholder w => w.wrap [':']
  | .selfDirectory w => t.inWrapper w ['.', '/', ':'] target
  | .sentinel w => t.inWrapper w ['!', ':'] target
  | .wrapped w => t.inWrapper w ((w.payload? target).getD []) target
  | .emptyBraces => ['{', ':', '}']

def expand (t : NamespaceTable) (target : Text) : Text :=
  match Rule.of? target with
  | some rule => t.expandBy target rule
  | none => target

/-- Puts a label that replaced the colon of `[:]` or `(:)` into the family's namespace. -/
def expandPlaceholder (t : NamespaceTable) (expanded substituted : Text) : Text :=
  match Wrapper.all.find? fun w =>
      expanded = w.wrap [':'] && (Rule.wrapped w).applies substituted with
  | some w => t.expandBy substituted (.wrapped w)
  | none => substituted

end NamespaceTable
end Shorthand
