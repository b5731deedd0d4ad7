import Shorthand.Command.Card
import Shorthand.Command.Invocation
import Shorthand.Command.Listing
import Shorthand.Command.Namespaces
import Shorthand.Command.Watch

/-!
Running an invocation in the project at `root`. Only commands on namespaces change the tree, and
only the renaming among them depends on the order of a walk.
-/

namespace Shorthand

/-- A command that only looks at the tree. -/
def inspect (root : Path) (t : FileTree) (command : Project → Except Error Report) : Outcome :=
  ⟨.ofResult ((Project.load root t).bind command), t⟩

def NamespaceAction.run (root : Path) (t : FileTree) (verbose : Bool) (walk : Walk) :
    NamespaceAction → Outcome
  | add name path => addNamespace root t name path
  | list => inspect root t fun p => .ok p.listNamespaces
  | remove name force => removeNamespace root t name force
  | rename old new => renameNamespace root t old new verbose walk

def Invocation.run (root : Path) (t : FileTree) (i : Invocation) (walk : Walk := .byName) :
    Outcome :=
  match i.command with
  | .check => inspect root t fun p => p.check t
  | .info json => ⟨card root t json, t⟩
  | .links documents json => inspect root t fun p => p.listLinks t documents json i.verbose
  | .namespaces action => action.run root t i.verbose walk
  | .render document => inspect root t fun p => p.renderDocument t document
  | .resolve document target label absolute workspaceRelative json =>
      inspect root t fun p =>
        .ok (p.resolveTarget document target label { absolute, workspaceRelative } json)
  | .watch => ⟨(Watch.start root t).1, t⟩

end Shorthand
