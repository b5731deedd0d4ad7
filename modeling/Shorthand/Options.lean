import Shorthand.Text

/-!
The settings, apart from namespaces and workspaces, that shape every resolution.
-/

namespace Shorthand

structure Options where
  /-- Completes a target that ends in `/`. -/
  indexFile : Text := "index.md"
  /-- Whether a colon after `scheme://` stands for the label. -/
  urlPlaceholders : Bool := true
  deriving DecidableEq, Repr

end Shorthand
