import Shorthand.Path

/-!
Paths seen from an anchor that contains them, component by component.
-/

namespace Shorthand
namespace Path

/-- The components of `p` below `anchor`, joined by `/`. -/
def relativeTo? (p anchor : Path) : Option Text :=
  (anchor.components.isPrefixOf? p.components).map fun rest =>
    Text.joinWith ['/'] (rest.map Component.text)

/-- Drops segments up to and including the first `n` that stand for a component. -/
def dropComponents : Nat → List Text → List Text
  | 0, segments => segments
  | _, [] => []
  | n + 1, s :: segments =>
      if (Component.ofSegment? s).isNone then dropComponents (n + 1) segments
      else dropComponents n segments

/-- What `p` says below `base`, as written there. -/
def below? (p base : Path) : Option Path :=
  if p.isUnder base then
    let (first, segments) := p.opening
    match base.components.length with
    | 0 => some (ofOpening first (trimSegments segments))
    | n + 1 =>
        let rest := dropComponents (if first.isSome then n else n + 1) segments
        some (ofOpening none
          (trimSegments (rest.dropWhile fun s => (Component.ofSegment? s).isNone)))
  else none

end Path
end Shorthand
