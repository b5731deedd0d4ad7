import Shorthand.Proofs.Config.Loading

/-!
Which files are configurations. What the content of a file is read as is taken as it is. From there
on it counts which names and wrappers there are, and not in which order they come, and the built-in
namespaces and wrappers fill in what is not configured.
-/

namespace Shorthand

theorem Wrapper.exists_key_iff {key : Text} :
    (∃ w : Wrapper, w.key = key) ↔ key = "brackets" ∨ key = "parens" := by
  constructor
  · rintro ⟨w, rfl⟩
    cases w with
    | brackets => exact .inl rfl
    | parens => exact .inr rfl
  · rintro (rfl | rfl)
    · exact ⟨.brackets, rfl⟩
    · exact ⟨.parens, rfl⟩

namespace Settings

variable {s : Settings}

theorem registryOf_of_ordered {r : Registry} (h : r.Ordered) : registryOf r = r :=
  (Registry.Ordered.putAll .nil r).ext h (get?_registryOf h.names_nodup)

/-- What makes settings consistent, said of the names alone. -/
theorem isConsistent_iff_names (h : s.namespaces.Ordered) : s.IsConsistent ↔
    (∀ name ∈ s.namespaces.names, Namespace.IsName name) ∧
      (∀ key ∈ s.wrappers.names, key = "brackets" ∨ key = "parens") ∧
      ∀ p ∈ s.wrappers, p.2 ∈ Namespace.builtins ∨ p.2 ∈ s.namespaces.names := by
  rw [isConsistent_iff (registryOf_of_ordered h).symm h.names_nodup]
  simp only [Registry.names, List.forall_mem_map, Wrapper.exists_key_iff, Namespace.isBuiltin,
    List.contains_iff_mem, or_comm (a := _ ∈ Namespace.builtins)]

/-- The roots of the table, in the order of the names. -/
theorem roots_ordered (s : Settings) : s.config.table.roots.Ordered :=
  Registry.Ordered.putAll (by decide) s.namespaces

theorem mem_roots_iff (h : s.namespaces.Ordered) {name : Text} :
    name ∈ s.config.table.roots.names ↔ name ∈ Namespace.builtins ∨ name ∈ s.namespaces.names := by
  rw [← Registry.has_iff_mem_names, or_comm]
  exact Registry.has_putAll h.names_nodup

theorem root?_config (h : s.namespaces.Ordered) (name : Text) : s.config.table.root? name =
    (s.namespaces.get? name).or (NamespaceTable.default.root? name) :=
  root?_registryOf (registryOf_of_ordered h).symm h.names_nodup name

/-- Every family stands for a namespace, if not for a configured one then for that of the default.
-/
theorem wrapperNamespace?_config (s : Settings) {w : Wrapper} {name : Text}
    (h : NamespaceTable.default.wrapperNamespace? w = some name) :
    s.config.table.wrapperNamespace? w = some ((s.wrappers.get? w.key).getD name) := by
  rw [config, table, NamespaceTable.wrapperNamespace?_withWrappers]
  change (s.wrappers.get? w.key).or (NamespaceTable.default.wrapperNamespace? w) = _
  rw [h]
  cases s.wrappers.get? w.key <;> rfl

end Settings

namespace Config

/-- Content that is read as settings is loaded just if the names are valid, the wrappers are known
and what they stand for is built in or configured. The table then has these namespaces and no
others, with the configured roots before the built-in ones, and both wrappers stand for one of them.
-/
theorem parse_accepts_consistent (file : Path) {content : Text} {s : Settings}
    (h : Settings.ofContent? content = some s) :
    ((∃ c, parse file content = .ok c) ↔
      (∀ name ∈ s.namespaces.names,
        name ≠ [] ∧ ∀ char ∈ name, char.isAlphanum = true ∨ char = '-' ∨ char = '_') ∧
      (∀ key ∈ s.wrappers.names, key = "brackets" ∨ key = "parens") ∧
      ∀ p ∈ s.wrappers, p.2 ∈ Namespace.builtins ∨ p.2 ∈ s.namespaces.names) ∧
    ∀ c, parse file content = .ok c →
      c.table.roots.Ordered ∧
      (∀ name, name ∈ c.table.roots.names ↔
        name ∈ Namespace.builtins ∨ name ∈ s.namespaces.names) ∧
      (∀ name, c.table.root? name =
        (s.namespaces.get? name).or (NamespaceTable.default.root? name)) ∧
      c.table.wrapperNamespace? .brackets = some ((s.wrappers.get? "brackets").getD "blocks") ∧
      c.table.wrapperNamespace? .parens = some ((s.wrappers.get? "parens").getD "comps") ∧
      (∀ w name, c.table.wrapperNamespace? w = some name → name ∈ c.table.roots.names) ∧
      c.table.rootDefault = none := by
  have hordered := Settings.namespaces_ordered h
  have hloaded {c : Config} : parse file content = .ok c ↔ s.IsConsistent ∧ c = s.config := by
    simp only [parse_eq_ok_iff, h, Option.some.injEq, exists_eq_left']
  constructor
  · have hexists : (∃ c, parse file content = .ok c) ↔ s.IsConsistent := by
      simp only [hloaded, exists_and_left, exists_eq, and_true]
    rw [hexists, Settings.isConsistent_iff_names hordered]
    simp only [Namespace.IsName, Namespace.isNameChar, Bool.or_eq_true, decide_eq_true_eq, or_assoc]
  · intro c hc
    obtain ⟨hconsistent, rfl⟩ := hloaded.mp hc
    have hwellFormed := hconsistent.wellFormed hordered.names_nodup
    exact ⟨s.roots_ordered, fun name => Settings.mem_roots_iff hordered,
      Settings.root?_config hordered,
      s.wrapperNamespace?_config rfl, s.wrapperNamespace?_config rfl,
      fun w name hw => Registry.has_iff_mem_names.mp (hwellFormed.registered hw), rfl⟩

/-- The wrapper's namespace may be configured after it, but it has to be there. -/
theorem parse_accepts_wrapper_before_namespace :
    let accepted : Text :=
      "[wrappers]\nbrackets = \"docs\"\n\n[namespaces]\ndocs = \"handbook\"\nblocks = \"lib\"\n"
    let refused : Text := "[wrappers]\nbrackets = \"docs\"\n\n[namespaces]\nblocks = \"lib\"\n"
    Settings.ofContent? accepted = some {
      namespaces := [("blocks", "lib"), ("docs", "handbook")]
      wrappers := [("brackets", "docs")] } ∧
    (∃ c, parse ⟨configFile⟩ accepted = .ok c ∧
      c.table.root? "blocks" = some "lib" ∧ c.table.root? "comps" = some "src/vcl-comps" ∧
      c.table.wrapperNamespace? .brackets = some "docs" ∧
      c.table.wrapperNamespace? .parens = some "comps") ∧
    Settings.ofContent? refused = some {
      namespaces := [("blocks", "lib")], wrappers := [("brackets", "docs")] } ∧
    ¬ ∃ c, parse ⟨configFile⟩ refused = .ok c := by
  intro accepted refused
  have haccepted : Settings.ofContent? accepted = some {
      namespaces := [("blocks", "lib"), ("docs", "handbook")]
      wrappers := [("brackets", "docs")] } := by
    decide +kernel
  have hrefused : Settings.ofContent? refused = some {
      namespaces := [("blocks", "lib")], wrappers := [("brackets", "docs")] } := by
    decide +kernel
  obtain ⟨haccepts, htable⟩ := parse_accepts_consistent ⟨configFile⟩ haccepted
  obtain ⟨c, hc⟩ := haccepts.mpr ⟨by simp [Registry.names], by decide, by decide⟩
  obtain ⟨-, -, hroot, hbrackets, hparens, -⟩ := htable c hc
  refine ⟨haccepted, ⟨c, hc, hroot "blocks", hroot "comps", hbrackets, hparens⟩, hrefused, ?_⟩
  intro hexists
  obtain ⟨-, -, hregistered⟩ := (parse_accepts_consistent ⟨configFile⟩ hrefused).1.mp hexists
  exact absurd hregistered (by decide)

end Config
end Shorthand
