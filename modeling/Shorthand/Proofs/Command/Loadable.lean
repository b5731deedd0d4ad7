import Shorthand.Proofs.Command.Failure
import Shorthand.Proofs.Config.Removal
import Shorthand.Proofs.Documents
import Shorthand.Proofs.Project

/-!
Which commands on namespaces leave a project that can be loaded. Adding and renaming always do.
Removing does unless a wrapper stands for the namespace that goes.
-/

namespace Shorthand
open Toml

namespace Settings

variable {s : Settings} {d : Document} {name : Text}

namespace Describes

theorem isConsistent_added (h : s.Describes d) (hs : s.IsConsistent) (hname : Namespace.IsName name)
    (hnew : name ∉ Registry.names (textsOf d "namespaces")) (path : Text) :
    (s.added d name path).IsConsistent := by
  have hnames := h.textsOf_names_nodup "namespaces"
  obtain ⟨hisName, hisWrapper, hregistered⟩ := (isConsistent_iff h.namespaces_eq hnames).mp hs
  refine (isConsistent_iff rfl (Registry.names_nodup_append hnames hnew)).mpr
    ⟨List.forall_mem_append.mpr ⟨hisName, by simpa using hname⟩, hisWrapper, fun p hp => ?_⟩
  rw [Registry.names_append]
  exact (hregistered p hp).imp_left (List.mem_append_left _)

end Describes
end Settings

variable {root : Path} {t : FileTree} {c : Config} {d : Document} {old new : Text} {walk : Walk}

/-- A missing file has the settings of an empty one. -/
theorem Settings.describes_empty : Settings.Describes {} ⟨[], []⟩ where
  sound := ⟨Entries.sound_nil, [], [], rfl, .nil, .nil⟩
  isPlain := nofun
  ofDocument := rfl

theorem Settings.isConsistent_empty : Settings.IsConsistent {} :=
  ⟨nofun, nofun, nofun⟩

/-- The document that an edit starts from is that of the configuration in force. -/
theorem exists_settings (hload : Config.load root t = .ok c) (hd : configDocument root t = .ok d) :
    ∃ s : Settings, s.Describes d ∧ s.IsConsistent ∧ c = s.config := by
  obtain ⟨content, hread, hd⟩ := bind_eq_ok_iff.mp hd
  cases content with
  | none =>
      cases (Config.load_of_missing hread).symm.trans hload
      cases hd
      exact ⟨{}, Settings.describes_empty, Settings.isConsistent_empty, rfl⟩
  | some content =>
      rw [Config.load_of_content hread] at hload
      obtain ⟨d', s, hparse, hdescribes, hconsistent, rfl⟩ := Config.exists_of_parse hload
      rw [Option.getD_some, hparse] at hd
      cases hd
      exact ⟨s, hdescribes, hconsistent, rfl⟩

theorem get?_configRoute_retarget (config : Config) (root : Path) (t : FileTree) :
    (config.retarget root old new walk t).tree.get? (configRoute root) =
      t.get? (configRoute root) := by
  have hretargeted := config.retarget_retargetedFrom root old new walk t
  refine (hretargeted (configRoute root)).resolve_right ?_
  rintro ⟨s, hs, content, hroute, -, -⟩
  obtain ⟨name, hname, hdocument⟩ := FileTree.mem_sources_route (List.mem_filter.mp hs).1
  rw [hroute, configRoute, List.getLast?_concat] at hname
  cases hname
  exact absurd hdocument (by decide)

/-- Renaming in documents leaves the configuration file and the directories above it. -/
theorem load_retarget (hroot : root.IsResolved) (config : Config) :
    Config.load root (config.retarget root old new walk t).tree = Config.load root t := by
  refine Config.load_congr hroot ?_ (get?_configRoute_retarget config root t)
  intro r more hr hmore
  refine (config.retarget_retargetedFrom root old new walk t r).resolve_right ?_
  rintro ⟨s, hs, content, hroute, hread, -⟩
  rcases FileTree.mem_sources (List.mem_filter.mp hs).1 with
    ⟨-, hdirectory⟩ | ⟨-, below, hbelow, hentry⟩
  · rw [(Source.read_eq_ok_iff.mp hread).2] at hdirectory
    contradiction
  · have hlength := congrArg List.length (hentry.symm.trans hroute)
    have hlength' := congrArg List.length hr
    have hpos := List.length_pos_of_ne_nil hmore
    have hpos' := List.length_pos_of_ne_nil hbelow
    simp only [configRoute, List.length_append, List.length_singleton] at hlength hlength'
    omega

/-- The configuration file is no document. -/
theorem Config.sources_putConfig (c : Config) (root : Path) (t : FileTree) (d : Document) :
    c.sources root (putConfig root t d) = c.sources root t := by
  rw [sources, putConfig, FileTree.sources_put List.getLast?_concat (by decide)]
  rfl

theorem configDocument_of_missing (h : t.readText? (Config.file root) = .ok none) :
    configDocument root t = .ok ⟨[], []⟩ := by
  rw [configDocument, h]
  rfl

/-- An edited configuration is loaded with the settings that its document has. -/
theorem load_putConfig_eq (hroot : root.IsResolved) (hload : Config.load root t = .ok c)
    {d₀ : Document} (hd₀ : configDocument root t = .ok d₀) (hne : d₀ ≠ ⟨[], []⟩) {s : Settings}
    (h : s.Describes d) :
    Config.load root (putConfig root t d) = Config.ofSettings (Config.file root) s := by
  have hread : t.readText? (Config.file root) ≠ .ok none := fun hread =>
    hne (Except.ok.inj (hd₀.symm.trans (configDocument_of_missing hread)))
  rw [(Config.load_putConfig hroot hload d).resolve_right fun h => hread h.2, Config.parse_write h]

/-- An edited configuration is loaded if its settings are consistent. -/
theorem load_putConfig_eq_ok_iff (hroot : root.IsResolved) (hload : Config.load root t = .ok c)
    {d₀ : Document} (hd₀ : configDocument root t = .ok d₀) (hne : d₀ ≠ ⟨[], []⟩) {s : Settings}
    (h : s.Describes d) {later : Config} :
    Config.load root (putConfig root t d) = .ok later ↔ s.IsConsistent ∧ later = s.config := by
  rw [load_putConfig_eq hroot hload hd₀ hne h, Config.ofSettings_eq_ok_iff h.wrappers_names_nodup]

theorem exists_load_putConfig (hroot : root.IsResolved) (hload : Config.load root t = .ok c)
    {s : Settings} (h : s.Describes d) (hs : s.IsConsistent) :
    ∃ later, Config.load root (putConfig root t d) = .ok later := by
  rcases Config.load_putConfig hroot hload d with hparse | ⟨hempty, -⟩
  · exact ⟨s.config, hparse.trans (Config.parse_write_eq_ok_iff h |>.mpr ⟨hs, rfl⟩)⟩
  · exact ⟨{}, hempty⟩

/-- What a removal leaves cannot be loaded if it takes away the namespace that a wrapper stands
for. -/
def NamespaceAction.Unhooks (c : Config) : NamespaceAction → Prop
  | .remove name _ =>
      Namespace.isBuiltin name = false ∧ ∃ w, c.table.wrapperNamespace? w = some name
  | _ => False

/-- After a command on namespaces that succeeds the project can be loaded, unless the command
removed the namespace of a wrapper. -/
theorem loadable_after_action {verbose : Bool} {a : NamespaceAction} (hroot : root.IsResolved)
    (hload : Config.load root t = .ok c)
    (hexit : (a.run root t verbose walk).report.exit = .success) :
    (∃ later, Config.load root (a.run root t verbose walk).tree = .ok later) ↔ ¬ a.Unhooks c := by
  cases a with
  | add name path =>
      refine ⟨fun _ => id, fun _ => ?_⟩
      rcases addNamespace_cases root t name path with
        ⟨hfailed, -⟩ | ⟨d, edited, hname, hd, hedit, -, htree⟩
      · exact absurd hexit hfailed
      · obtain ⟨s, hs, hconsistent, rfl⟩ := exists_settings hload hd
        have hisName := Namespace.nameFault?_eq_none_iff.mp hname
        obtain ⟨hnew, hadded⟩ := hs.addNamespace hisName hedit
        change ∃ later, Config.load root (addNamespace root t name path).tree = .ok later
        rw [htree]
        exact exists_load_putConfig hroot hload hadded
          (hs.isConsistent_added hconsistent hisName hnew path)
  | list => exact ⟨fun _ => id, fun _ => ⟨c, hload⟩⟩
  | remove name force =>
      rw [run_remove] at hexit ⊢
      rcases removeNamespace_cases root t name force with
        ⟨hfailed, -⟩ | ⟨p, d, edited, -, -, hd, hedit, -, htree⟩
      · exact absurd hexit hfailed
      · obtain ⟨s, hs, hconsistent, rfl⟩ := exists_settings hload hd
        have hremoved := (hs.removeNamespace hedit).2
        have hne : d ≠ ⟨[], []⟩ := by
          rintro rfl
          contradiction
        simp only [htree, load_putConfig_eq_ok_iff hroot hload hd hne hremoved,
          hs.isConsistent_removed hconsistent, NamespaceAction.Unhooks]
        cases Namespace.isBuiltin name <;> simp
  | rename old new =>
      refine ⟨fun _ => id, fun _ => ?_⟩
      rw [run_rename] at hexit ⊢
      cases hedit : renamedConfig root t old new with
      | error e =>
          rw [renameNamespace_of_refused hedit] at hexit
          contradiction
      | ok edited =>
          cases hconfig : Config.load root (putConfig root t edited) with
          | error e =>
              rw [renameNamespace_of_unloadable hedit hconfig] at hexit
              contradiction
          | ok config =>
              obtain ⟨htree, -⟩ := renameNamespace_of_loaded hedit hconfig verbose walk
              rw [htree, load_retarget hroot]
              exact ⟨config, hconfig⟩

/-- A project whose brackets stand for its own namespace. -/
def hookedProject : FileTree where
  entries := [(["ws"], .directory), (["ws", ".colonlink.toml"],
    .file (.text "[namespaces]\ndocs = \"handbook\"\n\n[wrappers]\nbrackets = \"docs\"\n"))]

/-- The removal succeeds, and what it wrote is refused. -/
theorem remove_hooked_namespace :
    let o := (NamespaceAction.remove "docs" false).run ⟨"/ws"⟩ hookedProject false .byName
    (∃ c, Config.load ⟨"/ws"⟩ hookedProject = .ok c) ∧ o.report.exit = .success ∧
      ¬ ∃ later, Config.load ⟨"/ws"⟩ o.tree = .ok later := by
  have hroot : Path.IsResolved ⟨"/ws"⟩ := ⟨by decide, by decide⟩
  have hload : Config.load ⟨"/ws"⟩ hookedProject = .ok { table := { NamespaceTable.default with
      roots := [("blocks", "src/cavalion-blocks"), ("comps", "src/vcl-comps"), ("docs", "handbook")]
      brackets := some "docs" } } := by
    decide +kernel
  have hexit : ((NamespaceAction.remove "docs" false).run ⟨"/ws"⟩ hookedProject false
      .byName).report.exit = .success := by
    decide +kernel
  refine ⟨⟨_, hload⟩, hexit, ?_⟩
  rw [loadable_after_action hroot hload hexit, not_not]
  exact ⟨by decide, .brackets, rfl⟩

end Shorthand
