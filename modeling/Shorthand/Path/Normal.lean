import Shorthand.Path

/-!
Normal form of paths: `.` is dropped, `..` takes back the name before it, is absorbed at the
root and kept where a relative path climbs above its start.
-/

namespace Shorthand

/-- One step of normalization. The components kept so far are listed latest first. -/
def Component.settle (kept : List Component) : Component → List Component
  | .current => kept
  | .parent =>
      match kept with
      | .name _ :: outer => outer
      | .root :: _ => kept
      | _ => .parent :: kept
  | c => c :: kept

namespace Path

def normalize (p : Path) : Path :=
  ofComponents (p.components.foldl Component.settle []).reverse

/-- A leading `/` of the target means `base` itself, so it never replaces the base. -/
def joinTarget (base : Path) (target : Text) : Path :=
  (base.join (target.dropWhile (· == '/'))).normalize

end Path
end Shorthand
