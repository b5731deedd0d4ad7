import Shorthand.Path.Normal

/-!
Workspace folders. A document belongs to the innermost folder that contains it.
-/

namespace Shorthand

structure Workspaces where
  roots : List Path
  deriving DecidableEq, Repr

namespace Workspaces

def ofFolders (folders : List Path) : Workspaces :=
  ⟨folders.map Path.normalize⟩

/-- The deeper of two folders, the later one if they are equally deep. -/
def deeper (best : Option Path) (folder : Path) : Option Path :=
  match best with
  | none => some folder
  | some b => if b.components.length ≤ folder.components.length then some folder else some b

def rootOf? (w : Workspaces) (document : Path) : Option Path :=
  (w.roots.filter document.normalize.isUnder).foldl deeper none

end Workspaces
end Shorthand
