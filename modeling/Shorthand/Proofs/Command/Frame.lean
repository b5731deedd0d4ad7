import Shorthand.Proofs.Command.Renaming

/-!
What a command writes. Only commands on namespaces write, each of them the configuration, and
renaming also the covered documents in which a target names the namespace. However a command ends it
has written nothing else, and if it succeeds it has written all of this.
-/

namespace Shorthand

variable {root : Path} {t : FileTree} {old new : Text} {walk : Walk}

/-- The document at a route, which the project covers and which has targets in one namespace, is as
it was with these targets moved to another. -/
def Project.Retargets (p : Project) (t later : FileTree) (old new : Text) (route : Route) : Prop :=
  ∃ r content, route = FileTree.routeOf p.root ++ r ∧ p.Visits t r (.file (.text content)) ∧
    targetStart old <:+: content ∧
    later.get? route =
      some (.file (.text (Text.replaceAll (targetStart old) (targetStart new) content)))

/-- The changes that a command is allowed. A renaming reads the configuration again after its edit
and goes through the documents that this one covers. -/
def Command.Allows (root : Path) (t later : FileTree) : Command → Prop
  | .namespaces (.add _ _) | .namespaces (.remove _ _) =>
      ∀ route, route ≠ configRoute root → later.get? route = t.get? route
  | .namespaces (.rename old new) =>
      ∀ route, route ≠ configRoute root → later.get? route = t.get? route ∨
        ∃ d config, renamedConfig root t old new = .ok d ∧
          Config.load root (putConfig root t d) = .ok config ∧
          Project.Retargets ⟨root, config⟩ t later old new route
  | _ => later = t

/-- The edited configuration is in its place. -/
def Toml.Document.IsWritten (edited : Toml.Document) (root : Path) (later : FileTree) : Prop :=
  later.get? (configRoute root) = some (.file (.text edited.write))

/-- The changes that a command owes. -/
def Command.Owes (root : Path) (t later : FileTree) : Command → Prop
  | .namespaces (.add name path) => ∃ d edited, configDocument root t = .ok d ∧
      d.addNamespace name path = .ok edited ∧ edited.IsWritten root later
  | .namespaces (.remove name _) => ∃ d edited, configDocument root t = .ok d ∧
      d.removeNamespace name = .ok edited ∧ edited.IsWritten root later
  | .namespaces (.rename old new) => ∃ edited config, renamedConfig root t old new = .ok edited ∧
      Config.load root (putConfig root t edited) = .ok config ∧ edited.IsWritten root later ∧
      ∀ r content, r ≠ [] → Project.Visits ⟨root, config⟩ t r (.file (.text content)) →
        later.get? (FileTree.routeOf root ++ r) =
          some (.file (.text (Text.replaceAll (targetStart old) (targetStart new) content)))
  | _ => True

theorem get?_putConfig_of_ne {route : Route} (h : route ≠ configRoute root) (d : Toml.Document) :
    (putConfig root t d).get? route = t.get? route :=
  (FileTree.get?_put configRoute_ne_nil t _ route).trans (if_neg h)

theorem isWritten_putConfig (root : Path) (t : FileTree) (d : Toml.Document) :
    d.IsWritten root (putConfig root t d) :=
  (FileTree.get?_put configRoute_ne_nil ..).trans (if_pos rfl)

theorem writes_add (root : Path) (t : FileTree) (name path : Text) :
    let o := addNamespace root t name path
    let c := Command.namespaces (.add name path)
    c.Allows root t o.tree ∧ (o.report.exit = .success → c.Owes root t o.tree) := by
  intro o c
  rcases addNamespace_cases root t name path with
    ⟨hexit, htree⟩ | ⟨d, edited, -, hd, hedit, -, htree⟩
  · refine ⟨fun route _ => ?_, fun h => absurd h hexit⟩
    rw [show o.tree = t from htree]
  · rw [show o.tree = _ from htree]
    exact ⟨fun route hroute => get?_putConfig_of_ne hroute edited,
      fun _ => ⟨d, edited, hd, hedit, isWritten_putConfig root t edited⟩⟩

theorem writes_remove (root : Path) (t : FileTree) (name : Text) (force : Bool) :
    let o := removeNamespace root t name force
    let c := Command.namespaces (.remove name force)
    c.Allows root t o.tree ∧ (o.report.exit = .success → c.Owes root t o.tree) := by
  intro o c
  rcases removeNamespace_cases root t name force with
    ⟨hexit, htree⟩ | ⟨_, d, edited, -, -, hd, hedit, -, htree⟩
  · refine ⟨fun route _ => ?_, fun h => absurd h hexit⟩
    rw [show o.tree = t from htree]
  · rw [show o.tree = _ from htree]
    exact ⟨fun route hroute => get?_putConfig_of_ne hroute edited,
      fun _ => ⟨d, edited, hd, hedit, isWritten_putConfig root t edited⟩⟩

/-- Going through the documents of a project changes only those in which something moves. -/
theorem retarget_keeps_or_retargets (h : t.Ordered) (config : Config) (d : Toml.Document)
    {route : Route} (hroute : route ≠ configRoute root) :
    let later := (config.retarget root old new walk (putConfig root t d)).tree
    later.get? route = t.get? route ∨
      Project.Retargets ⟨root, config⟩ t later old new route := by
  intro later
  rcases config.retarget_retargetedFrom root old new walk (putConfig root t d) route with
    hsame | ⟨s, hs, content, rfl, hread, hlater⟩
  · exact .inl (hsame.trans (get?_putConfig_of_ne hroute d))
  · rw [Config.sources_putConfig] at hs
    have hentry := (Source.read_eq_ok_iff.mp hread).2
    obtain ⟨r, hvisits, hsource⟩ := Config.visits_of_mem_sources h hs (by simp [hentry])
    have hroute : s.route = FileTree.routeOf root ++ r := congrArg Source.route hsource
    rw [hentry] at hvisits
    by_cases hoccurs : targetStart old <:+: content
    · exact .inr ⟨r, content, hroute, hvisits, hoccurs, hlater⟩
    · rw [Text.replaceAll_of_not_infix hoccurs] at hlater
      rw [hroute] at hlater ⊢
      exact .inl (hlater.trans hvisits.found.symm)

/-- Going through the documents of a project, if it comes to the end, moves what it visits and
leaves the configuration. -/
theorem owes_rename {d : Toml.Document} {config : Config} (h : t.Ordered)
    (hedit : renamedConfig root t old new = .ok d)
    (hload : Config.load root (putConfig root t d) = .ok config)
    (hdone : (config.retarget root old new walk (putConfig root t d)).error = none) :
    (Command.namespaces (.rename old new)).Owes root t
      (config.retarget root old new walk (putConfig root t d)).tree := by
  have hordered : (putConfig root t d).Ordered := h.put ..
  refine ⟨d, config, hedit, hload, ?_, fun r content hne hvisits => ?_⟩
  · exact (get?_configRoute_retarget config root _).trans (isWritten_putConfig root t d)
  · have hsource := hvisits.mem_sources hne
    rw [← Config.sources_putConfig _ _ _ d] at hsource
    exact config.get?_retarget hordered hdone hsource

theorem writes_rename (h : t.Ordered) (root : Path) (old new : Text) (verbose : Bool)
    (walk : Walk) :
    let o := renameNamespace root t old new verbose walk
    let c := Command.namespaces (.rename old new)
    c.Allows root t o.tree ∧ (o.report.exit = .success → c.Owes root t o.tree) := by
  intro o c
  cases hedit : renamedConfig root t old new with
  | error e =>
      rw [show o = _ from renameNamespace_of_refused hedit verbose]
      exact ⟨fun route _ => .inl rfl, nofun⟩
  | ok d =>
      cases hload : Config.load root (putConfig root t d) with
      | error e =>
          rw [show o = _ from renameNamespace_of_unloadable hedit hload verbose]
          exact ⟨fun route hroute => .inl (get?_putConfig_of_ne hroute d), nofun⟩
      | ok config =>
          obtain ⟨htree, hexit⟩ := renameNamespace_of_loaded hedit hload verbose walk
          rw [show o.tree = _ from htree]
          refine ⟨fun route hroute => ?_,
            fun hsuccess => owes_rename h hedit hload (hexit.mp hsuccess)⟩
          exact (retarget_keeps_or_retargets h config d hroute).imp_right
            fun hretargets => ⟨d, config, hedit, hload, hretargets⟩

/-- A command changes nothing but what it is allowed, whether it succeeds, fails or stops halfway,
and if it succeeds it has made the changes that it owes. -/
theorem command_changes_only (h : t.Ordered) (root : Path) (i : Invocation) (walk : Walk) :
    let o := i.run root t walk
    i.command.Allows root t o.tree ∧ (o.report.exit = .success → i.command.Owes root t o.tree) := by
  obtain ⟨command, verbose⟩ := i
  cases command with
  | check | info json | links documents json | render document | watch
  | resolve document target label absolute workspaceRelative json => exact ⟨rfl, fun _ => trivial⟩
  | namespaces action =>
      cases action with
      | add name path => exact writes_add root t name path
      | list => exact ⟨rfl, fun _ => trivial⟩
      | remove name force => exact writes_remove root t name force
      | rename old new => exact writes_rename h root old new verbose walk

/-- A project with a namespace, with a document that is not UTF-8 between two that name `docs`, a
third that is not covered, and a file that is no document. -/
def haltingProject : FileTree where
  entries := [(["ws"], .directory),
    (["ws", ".colonlink.toml"],
      .file (.text "exclude = [\"drafts/\"]\n\n[namespaces]\ndocs = \"handbook\"\n")),
    (["ws", "a.md"], .file (.text "[x](docs:a)\n")), (["ws", "b.md"], .file (.binary [255])),
    (["ws", "c.md"], .file (.text "[z](docs:c)\n")), (["ws", "drafts"], .directory),
    (["ws", "drafts", "d.md"], .file (.text "[y](docs:b)\n")),
    (["ws", "notes.txt"], .file (.text "[y](docs:b)\n"))]

/-- The renaming stops at a document. What is not covered or is no document has not been changed,
and each of the other documents is as it was or has moved, depending on the order of the walk. -/
theorem halted_rename_changes_only :
    let o := (⟨.namespaces (.rename "docs" "guide"), false⟩ : Invocation).run ⟨"/ws"⟩ haltingProject
    let keepsOrMoves (name kept moved : Text) :=
      o.tree.get? ["ws", name] = some (.file (.text kept)) ∨
        o.tree.get? ["ws", name] = some (.file (.text moved))
    haltingProject.Ordered ∧ o.report.exit ≠ .success ∧
      keepsOrMoves "a.md" "[x](docs:a)\n" "[x](guide:a)\n" ∧
      keepsOrMoves "c.md" "[z](docs:c)\n" "[z](guide:c)\n" ∧
      o.tree.get? ["ws", "drafts", "d.md"] = some (.file (.text "[y](docs:b)\n")) ∧
      o.tree.get? ["ws", "notes.txt"] = some (.file (.text "[y](docs:b)\n")) := by
  intro o keepsOrMoves
  have hordered : haltingProject.Ordered := by decide +kernel
  have hexit : o.report.exit ≠ .success := by decide +kernel +revert
  obtain ⟨hchanges, -⟩ :=
    command_changes_only hordered ⟨"/ws"⟩ ⟨.namespaces (.rename "docs" "guide"), false⟩ .byName
  have hdocument {name kept moved : Text} (hne : (["ws", name] : Route) ≠ configRoute ⟨"/ws"⟩)
      (hkept : haltingProject.get? ["ws", name] = some (.file (.text kept)))
      (hmoved : Text.replaceAll (targetStart "docs") (targetStart "guide") kept = moved) :
      keepsOrMoves name kept moved := by
    rcases hchanges ["ws", name] hne with
      hsame | ⟨_, _, -, -, r, content, hroute, hvisits, -, hlater⟩
    · exact .inl (hsame.trans hkept)
    · have hfound := hvisits.found
      rw [← hroute, hkept] at hfound
      cases hfound
      rw [hmoved] at hlater
      exact .inr hlater
  have hdrafts : ((renamedConfig ⟨"/ws"⟩ haltingProject "docs" "guide").bind fun d =>
      (Config.load ⟨"/ws"⟩ (putConfig ⟨"/ws"⟩ haltingProject d)).map
        (·.covers "drafts/d.md")) = .ok false := by decide +kernel
  refine ⟨hordered, hexit, ?_, ?_, ?_, ?_⟩
  · exact hdocument (by decide +kernel) (by decide +kernel) (by decide +kernel)
  · exact hdocument (by decide +kernel) (by decide +kernel) (by decide +kernel)
  · rcases hchanges ["ws", "drafts", "d.md"] (by decide +kernel) with
      hsame | ⟨d, config, hedit, hload, r, _, hroute, hvisits, -⟩
    · rw [hsame]
      decide +kernel
    · have hws : FileTree.routeOf ⟨"/ws"⟩ = ["ws"] := by decide +kernel
      rw [hws] at hroute
      obtain rfl : ["drafts".toList, "d.md"] = r := (List.cons.inj hroute).2
      have hcovers : config.covers "drafts/d.md" = true := hvisits.isCovered
      rw [hedit, Except.bind, hload] at hdrafts
      cases hcovers.symm.trans (Except.ok.inj hdrafts)
  · rcases hchanges ["ws", "notes.txt"] (by decide +kernel) with
      hsame | ⟨_, _, -, -, r, _, hroute, hvisits, -⟩
    · rw [hsame]
      decide +kernel
    · obtain ⟨name, hname, hdocument⟩ := hvisits.isNamed
      rw [← hroute] at hname
      cases hname
      exact absurd hdocument (by decide)

end Shorthand
