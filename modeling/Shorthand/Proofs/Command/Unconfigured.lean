import Shorthand.Proofs.Command.Renaming

/-!
When a command reports a namespace as not configured. A table that is written as a value is out of
reach of removing and renaming, though its settings are in force.
-/

namespace Shorthand
open Toml

namespace Toml.Document

/-- Whether a table of the file is written as a value. -/
def isInline (d : Document) (name : Text) : Bool :=
  match d.entries.get? name with
  | some (.inline ..) => true
  | _ => false

theorem exists_of_isInline {d : Document} {name : Text} (h : d.isInline name = true) :
    ∃ dotted opening es decor, d.entries.get? name = some (.inline dotted opening es decor) := by
  unfold isInline at h
  split at h
  · rename_i hget
    exact ⟨_, _, _, _, hget⟩
  · contradiction

/-- A renaming leaves a wrapper on the name, which is then the name of no namespace. -/
def StrandsWrapper (d : Document) (c : Config) (name : Text) : Prop :=
  Namespace.isBuiltin name = false ∧ d.isInline "wrappers" = true ∧
    ∃ w, c.table.wrapperNamespace? w = some name

end Toml.Document

/-- The report says that a namespace is not configured. -/
def Report.Denies (r : Report) (name : Text) : Prop :=
  r.error = some (.unknownNamespace name) ∨ r.error = some (.builtinNamespace name)

variable {root : Path} {t : FileTree} {p : Project} {c : Config} {d edited : Document}
  {s : Settings} {name old new : Text} {e : Error} {walk : Walk}

theorem Report.denies_notConfigured {r : Report}
    (h : r.error = some (Document.notConfigured name)) :
    r.Denies name := by
  rw [Document.notConfigured] at h
  split at h
  · exact .inr h
  · exact .inl h

namespace Settings.Describes

/-- A table of the settings is absent, has entries of its own or is written as a value. -/
theorem table_cases (h : s.Describes d) {r : Registry}
    (hr : value? registryOf? [] (d.entries.get? name) = some r) :
    d.entries.get? name = none ∨ (∃ head es, d.entries.get? name = some (.table head es)) ∨
      d.isInline name = true := by
  cases hi : d.entries.get? name with
  | none => exact .inl rfl
  | some i =>
      have hplain := (h.mem_of_get? hi).2.2
      rw [hi] at hr
      cases i with
      | scalar value => cases value <;> contradiction
      | array | tables => contradiction
      | inline => exact .inr (.inr (by rw [Document.isInline, hi]))
      | table head es => exact .inr (.inl ⟨head, es, rfl⟩)

theorem has_eq (h : s.Describes d) {es : Entries} (hes : es.pairs? = some (textsOf d "namespaces"))
    (name : Text) : Entries.has name es = s.namespaces.has name := by
  rw [Bool.eq_iff_iff, Registry.has_iff_mem_names, h.namespaces_eq,
    mem_names_registryOf (h.textsOf_names_nodup _), has_iff_mem_names hes]

theorem namespaces_of_absent (h : s.Describes d) (hget : d.entries.get? "namespaces" = none) :
    s.namespaces = [] := by
  have hempty := h.gives.namespaces
  rw [hget] at hempty
  exact (Option.some.inj hempty).symm

/-- What an edit of the namespaces finds in the file. -/
theorem namespaceTable?_cases (h : s.Describes d) :
    (d.isInline "namespaces" = true ∧ d.namespaceTable? = none) ∨
      (d.isInline "namespaces" = false ∧ d.namespaceTable? = none ∧
        ∀ name, s.namespaces.has name = false) ∨
      ∃ head es, d.isInline "namespaces" = false ∧ d.namespaceTable? = some (head, es) ∧
        ∀ name, Entries.has name es = s.namespaces.has name := by
  rcases h.table_cases h.gives.namespaces with hget | ⟨head, es, hget⟩ | hinline
  · refine .inr (.inl ⟨by rw [Document.isInline, hget], by rw [Document.namespaceTable?, hget], ?_⟩)
    intro name
    rw [h.namespaces_of_absent hget]
    rfl
  · refine .inr (.inr ⟨head, es, by rw [Document.isInline, hget],
      by rw [Document.namespaceTable?, hget], h.has_eq (h.plain?_table hget)⟩)
  · obtain ⟨dotted, opening, es, decor, hget⟩ := Document.exists_of_isInline hinline
    exact .inl ⟨hinline, by rw [Document.namespaceTable?, hget]⟩

theorem removeNamespace_eq_error_iff (h : s.Describes d) :
    d.removeNamespace name = .error e ↔ Document.notConfigured name = e ∧
      (d.isInline "namespaces" = true ∨ s.namespaces.has name = false) := by
  unfold Document.removeNamespace
  rcases h.namespaceTable?_cases with ⟨hinline, hnone⟩ | ⟨hinline, hnone, hhas⟩ |
    ⟨head, es, hinline, hsome, hhas⟩
  · rw [hinline, hnone]
    simp
  · rw [hinline, hnone]
    simp [hhas]
  · rw [hinline, hsome]
    cases hname : s.namespaces.has name <;> simp [hhas, hname]

theorem renameNamespace_eq_error_iff (h : s.Describes d) :
    d.renameNamespace old new = .error e ↔
      (Document.notConfigured old = e ∧ (d.isInline "namespaces" = true ∨
        s.namespaces.has new = false ∧ s.namespaces.has old = false)) ∨
      (.namespaceExists new = e ∧ d.isInline "namespaces" = false ∧
        s.namespaces.has new = true) := by
  unfold Document.renameNamespace
  rcases h.namespaceTable?_cases with ⟨hinline, hnone⟩ | ⟨hinline, hnone, hhas⟩ |
    ⟨head, es, hinline, hsome, hhas⟩
  · rw [hinline, hnone]
    simp
  · rw [hinline, hnone]
    simp [hhas]
  · have hold : (Entries.get? old es).isSome = s.namespaces.has old := hhas old
    rw [hinline, hsome]
    cases hnew : s.namespaces.has new <;> cases hget : Entries.get? old es <;>
      simp [hhas, hnew, ← hold, hget]

theorem found_of_renameNamespace (h : s.Describes d)
    (hedit : d.renameNamespace old new = .ok edited) :
    d.isInline "namespaces" = false ∧ s.namespaces.has new = false ∧
    s.namespaces.has old = true := by
  have haccepted (e : Error) : d.renameNamespace old new ≠ .error e := by
    intro h
    cases hedit.symm.trans h
  have hinline : d.isInline "namespaces" = false := by
    by_contra hinline
    exact haccepted _ (h.renameNamespace_eq_error_iff.mpr
      (.inl ⟨rfl, .inl (Bool.not_eq_false _ ▸ hinline)⟩))
  have hnew : s.namespaces.has new = false := by
    by_contra hnew
    exact haccepted _ (h.renameNamespace_eq_error_iff.mpr
      (.inr ⟨rfl, hinline, Bool.not_eq_false _ ▸ hnew⟩))
  refine ⟨hinline, hnew, ?_⟩
  by_contra hold
  exact haccepted _ (h.renameNamespace_eq_error_iff.mpr
    (.inl ⟨rfl, .inr ⟨hnew, Bool.not_eq_true _ ▸ hold⟩⟩))

/-- The settings after a renaming are only refused for a wrapper that was left behind. -/
theorem strandsWrapper_of_renamed (h : s.Describes d) (hs : s.IsConsistent)
    (hname : Namespace.IsName new) (hfresh : new ∉ Registry.names (textsOf d "namespaces"))
    {file : Path} {value : Text}
    (herror : Config.ofSettings file (s.renamed d old new value) = .error e) :
    .unknownNamespace old = e ∧ d.StrandsWrapper s.config old := by
  obtain ⟨p, hp, rfl, hunregistered⟩ := Config.exists_of_ofSettings_eq_error
    (h.isName_renamed hs hname hfresh) (h.isWrapper_renamed hs) herror
  obtain ⟨rfl, hp, hbuiltin, htable⟩ := h.unregistered_renamed hs hfresh hp hunregistered
  obtain ⟨w, hw⟩ := hs.isWrapper p hp
  refine ⟨rfl, hbuiltin, ?_, w, (wrapperNamespace?_table h hbuiltin).mpr (hw ▸ hp)⟩
  rcases h.table_cases h.gives.wrappers with hget | hget | hinline
  · have hnone := h.gives.wrappers
    rw [hget] at hnone
    rw [← Option.some.inj hnone] at hp
    contradiction
  · exact absurd hget htable
  · exact hinline

end Settings.Describes

/-- The file of a configuration in force can be edited. -/
theorem exists_configDocument (hload : Config.load root t = .ok c) :
    ∃ d, configDocument root t = .ok d := by
  obtain ⟨content, hread, h⟩ := bind_eq_ok_iff.mp hload
  cases content with
  | none => exact ⟨_, configDocument_of_missing hread⟩
  | some content =>
      obtain ⟨d, s, hparse, -⟩ := Config.exists_of_parse h
      exact ⟨d, bind_eq_ok_iff.mpr ⟨some content, hread, by rw [Option.getD_some, hparse]⟩⟩

theorem removeNamespace_force (hload : Project.load root t = .ok p)
    (hd : configDocument root t = .ok d) (name : Text) : removeNamespace root t name true =
      match d.removeNamespace name with
      | .ok edited => .logged (putConfig root t edited) ("removed " ++ name)
      | .error e => .ofError t e := by
  simp only [removeNamespace, hload, hd, bind, Except.bind, Bool.not_true,
    Bool.false_eq_true, if_false]
  cases d.removeNamespace name <;> rfl

theorem denies_remove_iff (hload : Project.load root t = .ok p) (hd : configDocument root t = .ok d)
    (hs : s.Describes d) : (removeNamespace root t name true).report.Denies name ↔
      d.isInline "namespaces" = true ∨ s.namespaces.has name = false := by
  rw [removeNamespace_force hload hd]
  cases hedit : d.removeNamespace name with
  | error e =>
      obtain ⟨rfl, hcases⟩ := hs.removeNamespace_eq_error_iff.mp hedit
      exact ⟨fun _ => hcases, fun _ => Report.denies_notConfigured rfl⟩
  | ok edited =>
      have hfound : ¬ (d.isInline "namespaces" = true ∨ s.namespaces.has name = false) := by
        intro hcases
        cases (hs.removeNamespace_eq_error_iff.mpr ⟨rfl, hcases⟩).symm.trans hedit
      refine ⟨fun hdenies => ?_, fun hcases => absurd hcases hfound⟩
      rcases hdenies with h | h <;> contradiction

/-- A renaming that has written the configuration fails to load it just if a wrapper was left
behind. -/
theorem load_renamed_eq_error_iff (hroot : root.IsResolved) (hload : Config.load root t = .ok c)
    (hd : configDocument root t = .ok d) (hs : s.Describes d) (hconsistent : s.IsConsistent)
    (hname : Namespace.IsName new) (hedit : d.renameNamespace old new = .ok edited) :
    Config.load root (putConfig root t edited) = .error e ↔
      .unknownNamespace old = e ∧ d.StrandsWrapper s.config old := by
  obtain ⟨value, hvalue, hfresh, hrenamed⟩ := hs.renameNamespace hname hedit
  have hempty : d ≠ ⟨[], []⟩ := by
    rintro rfl
    contradiction
  rw [load_putConfig_eq hroot hload hd hempty hrenamed]
  change Config.ofSettings _ (s.renamed d old new value) = _ ↔ _
  refine ⟨hs.strandsWrapper_of_renamed hconsistent hname hfresh, ?_⟩
  rintro ⟨rfl, hbuiltin, hinline, w, hw⟩
  cases hsettings : Config.ofSettings (Config.file root) (s.renamed d old new value) with
  | error e => rw [(hs.strandsWrapper_of_renamed hconsistent hname hfresh hsettings).1]
  | ok config =>
      have hne : new ≠ old := fun heq => hfresh (heq ▸ List.mem_map_of_mem hvalue)
      obtain ⟨hafter, -⟩ := (Config.ofSettings_eq_ok_iff hrenamed.wrappers_names_nodup).mp hsettings
      obtain ⟨head, es, hget, -⟩ :=
        Document.listsWrapper_iff.mp (hs.listsWrapper hafter hfresh hne hbuiltin hw)
      rw [Document.isInline, hget] at hinline
      contradiction

/-- A document that cannot be read is an error of the file system. -/
theorem Source.io_of_read {x : Source} (h : x.read = .error e) : ∃ reason, e = .io reason := by
  unfold read at h
  split at h
  · exact ⟨_, (Except.error.inj h).symm⟩
  · cases hentry : x.entry with
    | directory =>
        rw [hentry] at h
        exact ⟨_, (Except.error.inj h).symm⟩
    | file content =>
        rw [hentry] at h
        cases content with
        | text content => contradiction
        | binary bytes => exact ⟨_, (Except.error.inj h).symm⟩

/-- Renaming in documents can only fail in reading one. -/
theorem Config.io_of_retarget (h : (c.retarget root old new walk t).error = some e) :
    ∃ reason, e = .io reason := by
  obtain ⟨_, _, -, -, -, hread, -⟩ := exists_unread_of_retarget h
  exact Source.io_of_read hread

theorem denies_rename_iff (hroot : root.IsResolved) (hload : Config.load root t = .ok c)
    (hd : configDocument root t = .ok d) (hs : s.Describes d) (hconsistent : s.IsConsistent)
    (hname : Namespace.nameFault? new = none) (verbose : Bool) :
    (renameNamespace root t old new verbose walk).report.Denies old ↔
      d.isInline "namespaces" = true ∨ s.namespaces.has new = false ∧
        (s.namespaces.has old = false ∨ d.StrandsWrapper s.config old) := by
  have hrenamed : renamedConfig root t old new = d.renameNamespace old new := by
    simp only [renamedConfig, hname, hd]
    rfl
  cases hedit : d.renameNamespace old new with
  | error e =>
      rw [renameNamespace_of_refused (hrenamed.trans hedit)]
      rcases hs.renameNamespace_eq_error_iff.mp hedit with ⟨rfl, hcases⟩ | ⟨rfl, hinline, hnew⟩
      · exact ⟨fun _ => hcases.imp_right fun h => ⟨h.1, .inl h.2⟩,
          fun _ => Report.denies_notConfigured rfl⟩
      · rw [hinline, hnew]
        simp [Report.Denies, Outcome.ofError, Report.ofError]
  | ok edited =>
      obtain ⟨hinline, hnew, hold⟩ := hs.found_of_renameNamespace hedit
      have hfails {e : Error} := load_renamed_eq_error_iff (e := e) hroot hload hd hs hconsistent
        (Namespace.nameFault?_eq_none_iff.mp hname) hedit
      rw [hinline, hnew, hold]
      cases hlater : Config.load root (putConfig root t edited) with
      | error e =>
          obtain ⟨rfl, hleft⟩ := hfails.mp hlater
          rw [renameNamespace_of_unloadable (hrenamed.trans hedit) hlater]
          exact ⟨fun _ => .inr ⟨rfl, .inr hleft⟩, fun _ => .inl rfl⟩
      | ok config =>
          rw [Report.Denies, error_renameNamespace_of_loaded (hrenamed.trans hedit) hlater]
          constructor
          · rintro (h | h) <;> obtain ⟨_, h⟩ := config.io_of_retarget h <;> contradiction
          · rintro (h | ⟨-, h | hleft⟩)
            · contradiction
            · contradiction
            · cases hlater.symm.trans (hfails.mpr ⟨rfl, hleft⟩)

/-- Removing with force and renaming, in a project that can be loaded, report a namespace as not
configured just if the file has none of this name or writes its namespaces as a value. Renaming to a
name that is free also does so if the wrappers are written as a value and one stands for the
namespace. -/
theorem denies_namespace_iff (hroot : root.IsResolved) (hload : Project.load root t = .ok p)
    (verbose : Bool) : ∃ d s, configDocument root t = .ok d ∧ Settings.ofDocument? d = some s ∧
      Config.ofSettings (Config.file root) s = .ok p.config ∧
      (∀ name, ((NamespaceAction.remove name true).run root t verbose walk).report.Denies name ↔
        d.isInline "namespaces" = true ∨ s.namespaces.has name = false) ∧
      ∀ old new, Namespace.nameFault? new = none →
        (((NamespaceAction.rename old new).run root t verbose walk).report.Denies old ↔
          d.isInline "namespaces" = true ∨ s.namespaces.has new = false ∧
            (s.namespaces.has old = false ∨ d.StrandsWrapper p.config old)) := by
  obtain ⟨c, hc, rfl⟩ := map_eq_ok_iff.mp hload
  obtain ⟨d, hd⟩ := exists_configDocument hc
  obtain ⟨s, hs, hconsistent, rfl⟩ := exists_settings hc hd
  have hsettings : Config.ofSettings (Config.file root) s = .ok s.config :=
    (Config.ofSettings_eq_ok_iff hs.wrappers_names_nodup).mpr ⟨hconsistent, rfl⟩
  exact ⟨d, s, hd, hs.ofDocument, hsettings, fun name => denies_remove_iff hload hd hs,
    fun old new hname => denies_rename_iff hroot hc hd hs hconsistent hname verbose⟩

/-- A namespace that is in force and is reported as not configured. -/
theorem denies_inline_namespace :
    let t : FileTree := ⟨[(["ws"], .directory),
      (["ws", ".colonlink.toml"], .file (.text "namespaces = \x7b docs = \"handbook\" \x7d\n"))]⟩
    let p : Project := ⟨⟨"/ws"⟩, { table := { NamespaceTable.default with
      roots := [("blocks", "src/cavalion-blocks"), ("comps", "src/vcl-comps"),
        ("docs", "handbook")] } }⟩
    Path.IsResolved ⟨"/ws"⟩ ∧ Project.load ⟨"/ws"⟩ t = .ok p ∧
      p.config.table.root? "docs" = some "handbook" ∧
      ((NamespaceAction.remove "docs" true).run ⟨"/ws"⟩ t false .byName).report.Denies "docs" ∧
      ((NamespaceAction.rename "docs" "guide").run ⟨"/ws"⟩ t false .byName).report.Denies
        "docs" := by
  intro t p
  have hroot : Path.IsResolved ⟨"/ws"⟩ := ⟨by decide, by decide⟩
  have hload : Project.load ⟨"/ws"⟩ t = .ok p := by decide +kernel
  have hwritten : (configDocument ⟨"/ws"⟩ t).map (·.isInline "namespaces") = .ok true := by
    decide +kernel
  obtain ⟨d, s, hd, -, -, hremove, hrename⟩ := denies_namespace_iff hroot hload false
  rw [hd] at hwritten
  have hinline : d.isInline "namespaces" = true := Except.ok.inj hwritten
  exact ⟨hroot, hload, by decide, (hremove "docs").mpr (.inl hinline),
    (hrename "docs" "guide" (by decide)).mpr (.inl hinline)⟩

end Shorthand
