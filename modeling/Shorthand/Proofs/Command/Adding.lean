import Shorthand.Proofs.Command.Unconfigured
import Shorthand.Proofs.FileTree.Following

/-!
What adding a namespace comes to. It is only refused for a name that is not valid or that the file
has already, however the namespaces are written there, and the configuration that is loaded
afterwards differs by the root of that name.
-/

namespace Shorthand
open Toml

namespace Settings

variable {s : Settings} {d : Document} {pairs : List (Text × Text)} {name path : Text}

/-- A name that comes last in the file takes its place in the order. -/
theorem putAll_registryOf_concat (hnames : (Registry.names pairs).Nodup)
    (hnew : name ∉ Registry.names pairs) (path : Text) {r : Registry} (hr : r.Ordered) :
    Registry.putAll (registryOf (pairs ++ [(name, path)])) r =
      (Registry.putAll (registryOf pairs) r).put name path := by
  have hnames' : (Registry.names (pairs ++ [(name, path)])).Nodup :=
    Registry.names_nodup_append hnames hnew
  refine (hr.putAll _).ext ((hr.putAll _).put name path) fun n => ?_
  rw [Registry.get?_put, Registry.get?_putAll (registryOf_names_nodup hnames'),
    Registry.get?_putAll (registryOf_names_nodup hnames), get?_registryOf hnames',
    get?_registryOf hnames, Registry.get?_append, Registry.get?, Registry.get?]
  by_cases hn : n = name
  · rw [if_pos hn, if_pos hn.symm, hn, Registry.get?_eq_none_iff.mpr hnew]
    rfl
  · rw [if_neg hn, if_neg (Ne.symm hn), Option.or_none]

namespace Describes

/-- Nothing but the new root is different. -/
theorem config_added (h : s.Describes d) (hnew : name ∉ Registry.names (textsOf d "namespaces"))
    (path : Text) : (s.added d name path).config =
      { s.config with table :=
        { s.config.table with roots := s.config.table.roots.put name path } } := by
  have hdefault : Registry.Ordered NamespaceTable.default.roots := by decide
  have hroots := putAll_registryOf_concat (h.textsOf_names_nodup "namespaces") hnew path hdefault
  rw [← h.namespaces_eq] at hroots
  simp only [config, table, NamespaceTable.withWrappers, added, hroots]

theorem exists_addNamespace_iff (h : s.Describes d) (name path : Text) :
    (∃ edited, d.addNamespace name path = .ok edited) ↔ s.namespaces.has name = false := by
  rcases h.table_cases h.gives.namespaces with hget | ⟨head, es, hget⟩ | hinline
  · rw [h.namespaces_of_absent hget, Document.addNamespace, hget]
    exact iff_of_true ⟨_, rfl⟩ rfl
  · have hhas := h.has_eq (h.plain?_table hget) name
    simp only [Document.addNamespace, hget, Document.extendNamespaces, hhas]
    cases s.namespaces.has name <;> simp
  · obtain ⟨dotted, opening, es, decor, hget⟩ := Document.exists_of_isInline hinline
    have hhas := h.has_eq (h.plain?_inline hget) name
    simp only [Document.addNamespace, hget, Document.extendNamespaces, hhas]
    cases s.namespaces.has name <;> simp

end Describes
end Settings

variable {root : Path} {t : FileTree} {c : Config} {d : Document} {name path : Text} {walk : Walk}

theorem FileTree.directory_put (hdirectory : ∀ r ∈ (routeOf root).inits, t.get? r = some .directory)
    (entry : Entry) : ∀ r ∈ (routeOf root).inits,
      (t.put (configRoute root) entry).get? r = some .directory := by
  intro r hr
  have hlength := ((List.mem_inits _ _).mp hr).length_le
  have hne : r ≠ configRoute root := by
    rintro rfl
    rw [configRoute, List.length_append, List.length_singleton] at hlength
    exact absurd hlength (Nat.not_succ_le_self _)
  rw [get?_put configRoute_ne_nil, if_neg hne, hdirectory r hr]

/-- In a directory that is there, the configuration that has been written is the one that is
loaded. -/
theorem Config.load_putConfig_eq_parse (hroot : root.IsResolved)
    (hdirectory : ∀ r ∈ (FileTree.routeOf root).inits, t.get? r = some .directory)
    (hload : load root t = .ok c) (d : Document) :
    load root (putConfig root t d) = parse (file root) d.write := by
  have hget : (putConfig root t d).get? (configRoute root) = some (.file (.text d.write)) :=
    (FileTree.get?_put configRoute_ne_nil ..).trans (if_pos rfl)
  have hfound : (putConfig root t d).find (file root) = .ok (.file (.text d.write)) := by
    have habove : FileTree.SameAbove t (putConfig root t d) (configRoute root) :=
      FileTree.sameAbove_put configRoute_ne_nil (.file (.text d.write))
    have hslash : '/' ∉ configFile := by decide
    have hname : Component.ofSegment? configFile = some (.name configFile) := by decide
    rcases FileTree.find_join_name hroot hslash hname
      (FileTree.directory_put hdirectory (.file (.text d.write))) with hlong | hreached
    · -- The path is no longer than before, when the configuration was loaded.
      rcases find_configFile hroot habove with ⟨fault, hfault, hfault'⟩ | ⟨-, hreached⟩
      · cases hfault'.symm.trans hlong
        rw [load, FileTree.readText?, hfault] at hload
        contradiction
      · rw [hget] at hreached
        exact hreached
    · exact hreached.trans (congrArg FileTree.reached hget)
  refine load_of_content ?_
  rw [FileTree.readText?, hfound]
  rfl

theorem addNamespace_of_ok {edited : Document} (hname : Namespace.nameFault? name = none)
    (hd : configDocument root t = .ok d) (hedit : d.addNamespace name path = .ok edited) :
    addNamespace root t name path =
      .logged (putConfig root t edited) ("added " ++ name ++ " -> " ++ path) := by
  simp only [addNamespace, hname, hd, hedit]

/-- Adding a namespace to a project whose configuration can be loaded succeeds just for a valid name
that the file does not have, be it one that is built in. What is loaded afterwards is what was
loaded before, with the path as the root of the name. -/
theorem add_registers_namespace (hroot : root.IsResolved)
    (hdirectory : ∀ r ∈ (FileTree.routeOf root).inits, t.get? r = some .directory)
    (hload : Config.load root t = .ok c) (verbose : Bool) :
    ∃ d s, configDocument root t = .ok d ∧ Settings.ofDocument? d = some s ∧
      Config.ofSettings (Config.file root) s = .ok c ∧ ∀ name path,
        let o := (NamespaceAction.add name path).run root t verbose walk
        (o.report.exit = .success ↔ Namespace.IsName name ∧ s.namespaces.has name = false) ∧
          (o.report.exit = .success → Config.load root o.tree = .ok { c with table :=
            { c.table with roots := c.table.roots.put name path } }) := by
  obtain ⟨d, hd⟩ := exists_configDocument hload
  obtain ⟨s, hs, hconsistent, rfl⟩ := exists_settings hload hd
  have hsettings : Config.ofSettings (Config.file root) s = .ok s.config :=
    (Config.ofSettings_eq_ok_iff hs.wrappers_names_nodup).mpr ⟨hconsistent, rfl⟩
  refine ⟨d, s, hd, hs.ofDocument, hsettings, fun name path => ?_⟩
  intro o
  have haccepted : o.report.exit = .success → ∃ edited, Namespace.IsName name ∧
      d.addNamespace name path = .ok edited ∧ o.tree = putConfig root t edited := by
    intro hexit
    rcases addNamespace_cases root t name path with
      ⟨hfailed, -⟩ | ⟨d', edited, hname, hd', hedit, -, htree⟩
    · exact absurd hexit hfailed
    · cases hd.symm.trans hd'
      exact ⟨edited, Namespace.nameFault?_eq_none_iff.mp hname, hedit, htree⟩
  refine ⟨⟨fun hexit => ?_, fun ⟨hname, hnew⟩ => ?_⟩, fun hexit => ?_⟩
  · obtain ⟨edited, hname, hedit, -⟩ := haccepted hexit
    exact ⟨hname, (hs.exists_addNamespace_iff name path).mp ⟨edited, hedit⟩⟩
  · obtain ⟨edited, hedit⟩ := (hs.exists_addNamespace_iff name path).mpr hnew
    have ho : o = _ := addNamespace_of_ok (Namespace.nameFault?_eq_none_iff.mpr hname) hd hedit
    rw [ho]
    rfl
  · obtain ⟨edited, hname, hedit, htree⟩ := haccepted hexit
    obtain ⟨hnew, hadded⟩ := hs.addNamespace hname hedit
    rw [htree, Config.load_putConfig_eq_parse hroot hdirectory hload, ← hs.config_added hnew path]
    exact (Config.parse_write_eq_ok_iff hadded).mpr
      ⟨hs.isConsistent_added hconsistent hname hnew path, rfl⟩

/-- A built-in namespace is given another root where the namespaces are written as a value. -/
theorem add_overrides_builtin :
    let t : FileTree := ⟨[(["ws"], .directory),
      (["ws", ".colonlink.toml"], .file (.text "namespaces = \x7b docs = \"handbook\" \x7d\n"))]⟩
    let roots : Registry :=
      [("blocks", "src/cavalion-blocks"), ("comps", "src/vcl-comps"), ("docs", "handbook")]
    let c : Config := { table := { NamespaceTable.default with roots } }
    Path.IsResolved ⟨"/ws"⟩ ∧
      (∀ r ∈ (FileTree.routeOf ⟨"/ws"⟩).inits, t.get? r = some .directory) ∧
      Config.load ⟨"/ws"⟩ t = .ok c ∧
      ((NamespaceAction.add "blocks" "lib").run ⟨"/ws"⟩ t false .byName).report.exit = .success ∧
      Config.load ⟨"/ws"⟩ ((NamespaceAction.add "blocks" "lib").run ⟨"/ws"⟩ t false .byName).tree =
        .ok { c with table := { c.table with roots := roots.put "blocks" "lib" } } := by
  intro t roots c
  have hroot : Path.IsResolved ⟨"/ws"⟩ := ⟨by decide, by decide⟩
  have hdirectory : ∀ r ∈ (FileTree.routeOf ⟨"/ws"⟩).inits, t.get? r = some .directory := by decide
  have hload : Config.load ⟨"/ws"⟩ t = .ok c := by decide +kernel
  have hwritten : (configDocument ⟨"/ws"⟩ t).map (fun d =>
      (Settings.ofDocument? d).map fun s => s.namespaces.has "blocks") = .ok (some false) := by
    decide +kernel
  have hname : Namespace.IsName "blocks" := ⟨by decide, List.all_eq_true.mp (by decide)⟩
  obtain ⟨d, s, hd, hs, -, hadd⟩ := add_registers_namespace hroot hdirectory hload false
  obtain ⟨haccepted, hloaded⟩ := hadd "blocks" "lib"
  rw [hd] at hwritten
  have hfree : (Settings.ofDocument? d).map (fun s => s.namespaces.has "blocks") = some false :=
    Except.ok.inj hwritten
  rw [hs] at hfree
  have hexit := haccepted.mpr ⟨hname, Option.some.inj hfree⟩
  exact ⟨hroot, hdirectory, hload, hexit, hloaded hexit⟩

end Shorthand
