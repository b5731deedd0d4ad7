import Shorthand.Expansion
import Shorthand.Options
import Shorthand.Scheme

/-!
Colon placeholders: the last colon of a target stands for the label of its link, unless it
belongs to a protocol or namespace marker.
-/

namespace Shorthand

/-- Puts `label` in place of the last colon, if that is not among the first `floor` characters. -/
def spliceLastColon (target : Text) (floor : Nat) (label : Text) : Text :=
  match target.splitLast? ':' with
  | some (before, after) => if floor ≤ before.length then before ++ label ++ after else target
  | none => target

namespace NamespaceTable

def substituteColon (t : NamespaceTable) (options : Options) (target label : Text) : Text :=
  match schemeLength? target with
  | some marker => if options.urlPlaceholders then spliceLastColon target marker label else target
  | none =>
      match t.splitPrefix? target with
      | some (name, []) => name ++ ':' :: label
      | some (name, _) => spliceLastColon target (name.length + 1) label
      | none => spliceLastColon target 0 label

/-- The canonical form of a target: wrappers expanded and the label put in. -/
def expandTarget (t : NamespaceTable) (options : Options) (target label : Text) : Text :=
  let expanded := t.expand target
  t.expandPlaceholder expanded (t.substituteColon options expanded label)

end NamespaceTable
end Shorthand
