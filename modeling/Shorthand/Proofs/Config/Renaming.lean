import Shorthand.Proofs.Config.Edit
import Shorthand.Proofs.Resolve.Renaming

/-!
The table of an edited configuration. After a renaming it is that of the earlier one with the
namespace renamed, but a wrapper that the file does not list stands for what it stood for.
-/

namespace Shorthand
open Toml

namespace Toml.Document

/-- Whether the edit of a renaming reaches the entry of the wrapper. -/
def listsWrapper (d : Document) (w : Wrapper) : Bool :=
  match d.entries.get? "wrappers" with
  | some (.table _ es) => Entries.has w.key es
  | _ => false

theorem listsWrapper_iff {d : Document} {w : Wrapper} : d.listsWrapper w = true ↔
    ∃ head es, d.entries.get? "wrappers" = some (.table head es) ∧ Entries.has w.key es = true := by
  unfold listsWrapper
  split
  · rename_i head es hget
    refine ⟨fun h => ⟨head, es, hget, h⟩, ?_⟩
    rintro ⟨head', es', hget', h⟩
    cases hget.symm.trans hget'
    exact h
  · rename_i hget
    refine ⟨nofun, ?_⟩
    rintro ⟨head, es, hget', -⟩
    exact absurd hget' (hget head es)

end Toml.Document

namespace Settings

variable {s : Settings} {d : Document} {old new value : Text}
  {pairs : List (Text × Text)} {w : Wrapper}

/-- The settings after a renaming. -/
def renamed (s : Settings) (d : Document) (old new value : Text) : Settings :=
  { s with
    namespaces := registryOf (Registry.without old (textsOf d "namespaces") ++ [(new, value)])
    wrappers := Describes.movedWrappers old new d }

namespace Describes

theorem names_nodup_renamed (h : s.Describes d)
    (hnew : new ∉ Registry.names (textsOf d "namespaces")) : (Registry.names
      (Registry.without old (textsOf d "namespaces") ++ [(new, value)])).Nodup := by
  refine Registry.names_nodup_append (Registry.names_without_nodup (h.textsOf_names_nodup _))
    fun hmem => hnew ?_
  rw [Registry.names_without] at hmem
  exact (List.mem_filter.mp hmem).1

theorem root?_renamed (h : s.Describes d) (hnew : new ∉ Registry.names (textsOf d "namespaces"))
    (name : Text) : (s.renamed d old new value).config.table.root? name =
      (Registry.get? name (Registry.without old (textsOf d "namespaces") ++ [(new, value)])).or
        (NamespaceTable.default.root? name) :=
  root?_registryOf rfl (names_nodup_renamed h hnew) name

theorem root?_renamed_old (h : s.Describes d) (hnew : new ∉ Registry.names (textsOf d "namespaces"))
    (hne : new ≠ old) :
    (s.renamed d old new value).config.table.root? old = NamespaceTable.default.root? old := by
  rw [h.root?_renamed hnew, Registry.get?_append, Registry.get?_without_self]
  simp [Registry.get?, hne]

theorem wellFormed_renamed (h : s.Describes d) (hs : (s.renamed d old new value).IsConsistent)
    (hnew : new ∉ Registry.names (textsOf d "namespaces")) :
    (s.renamed d old new value).config.table.WellFormed :=
  hs.wellFormed (registryOf_names_nodup (names_nodup_renamed h hnew))

/-- The wrappers that the file lists are renamed, and no others. -/
theorem wrapperNamespace?_renamed (h : s.Describes d) (w : Wrapper) :
    (s.renamed d old new value).config.table.wrapperNamespace? w =
      if d.listsWrapper w = true then
        (s.config.table.wrapperNamespace? w).map fun n => if n = old then new else n
      else s.config.table.wrapperNamespace? w := by
  have hnames := h.textsOf_names_nodup "wrappers"
  have hrenamed : (s.renamed d old new value).config.table.wrapperNamespace? w =
      ((movedWrappers old new d).get? w.key).or (NamespaceTable.default.wrapperNamespace? w) := by
    cases w <;> rfl
  rw [hrenamed, h.wrapperNamespace?_eq]
  by_cases htable : ∃ head es, d.entries.get? "wrappers" = some (.table head es)
  · obtain ⟨head, es, hget⟩ := htable
    have hlists : d.listsWrapper w = true ↔ w.key ∈ Registry.names (textsOf d "wrappers") := by
      rw [← has_iff_mem_names (h.plain?_table hget), Document.listsWrapper, hget]
    have hmoved : (Registry.names (Registry.moveValues old new (textsOf d "wrappers"))).Nodup := by
      rwa [Registry.names_moveValues]
    simp only [movedWrappers, hget]
    rw [get?_registryOf hmoved, Registry.get?_moveValues]
    cases hvalue : Registry.get? w.key (textsOf d "wrappers") with
    | none =>
        rw [if_neg (mt hlists.mp (Registry.get?_eq_none_iff.mp hvalue))]
        rfl
    | some name =>
        rw [if_pos (hlists.mpr (List.mem_map_of_mem (Registry.mem_of_get? hvalue)))]
        rfl
  · have hunlisted : ¬ d.listsWrapper w = true := by
      intro hlists
      obtain ⟨head, es, hget, -⟩ := Document.listsWrapper_iff.mp hlists
      exact htable ⟨head, es, hget⟩
    rw [if_neg hunlisted, movedWrappers_of_not_table htable, get?_registryOf hnames]

/-- Renaming in the configuration renames in the table. -/
theorem isRenaming (h : s.Describes d) (hs : s.IsConsistent)
    (hafter : (s.renamed d old new value).IsConsistent) (hname : Namespace.IsName new)
    (hvalue : (old, value) ∈ textsOf d "namespaces") (hnew : s.config.table.roots.has new = false) :
    s.config.table.IsRenaming (s.renamed d old new value).config.table old new := by
  have hnames := h.textsOf_names_nodup "namespaces"
  have hroot : s.config.table.root? old = some value := by
    rw [h.root?_eq, (Registry.get?_eq_some_iff hnames).mpr hvalue]
    rfl
  have hnone : s.config.table.root? new = none := by
    rwa [Registry.has, Option.isSome_eq_false_iff, Option.isNone_iff_eq_none] at hnew
  rw [h.root?_eq, Option.or_eq_none_iff] at hnone
  have hfresh := Registry.get?_eq_none_iff.mp hnone.1
  have hne : new ≠ old := fun heq => hfresh (heq ▸ List.mem_map_of_mem hvalue)
  refine ⟨h.wellFormed hs, h.wellFormed_renamed hafter hfresh, hname, ?_, hnew,
    h.root?_renamed_old hfresh hne, ?_, fun n hold hnew' => ?_, fun w => ?_, rfl⟩
  · exact Option.isSome_iff_exists.mpr ⟨value, hroot⟩
  · rw [h.root?_renamed hfresh, hroot, Registry.get?_append, Registry.get?_without hne, hnone.1]
    simp [Registry.get?]
  · rw [h.root?_renamed hfresh, h.root?_eq, Registry.get?_append, Registry.get?_without hold]
    simp [Registry.get?, Ne.symm hnew']
  · rw [h.wrapperNamespace?_renamed]
    split
    · exact .inr rfl
    · cases hw : s.config.table.wrapperNamespace? w with
      | none => exact .inr rfl
      | some name =>
          by_cases hold : name = old
          · exact .inl ⟨congrArg some hold, congrArg some hold⟩
          · exact .inr (by rw [Option.map_some, if_neg hold])

theorem isName_renamed (h : s.Describes d) (hs : s.IsConsistent) (hname : Namespace.IsName new)
    (hnew : new ∉ Registry.names (textsOf d "namespaces")) :
    ∀ p ∈ (s.renamed d old new value).namespaces, Namespace.IsName p.1 := by
  obtain ⟨hisName, -⟩ := (isConsistent_iff h.namespaces_eq (h.textsOf_names_nodup _)).mp hs
  intro p hp
  rcases List.mem_append.mp ((mem_registryOf (names_nodup_renamed h hnew)).mp hp) with hp | hp
  · exact hisName p (List.mem_filter.mp hp).1
  · rw [List.mem_singleton.mp hp]
    exact hname

theorem isWrapper_renamed (h : s.Describes d) (hs : s.IsConsistent) :
    ∀ p ∈ (s.renamed d old new value).wrappers, ∃ w : Wrapper, w.key = p.1 := by
  have hnames := h.textsOf_names_nodup "wrappers"
  have hkeys : ∀ p ∈ textsOf d "wrappers", ∃ w : Wrapper, w.key = p.1 := fun p hp =>
    hs.isWrapper p (h.wrappers_eq ▸ (mem_registryOf hnames).mpr hp)
  intro p hp
  change p ∈ movedWrappers old new d at hp
  unfold movedWrappers at hp
  split at hp
  · rw [mem_registryOf (by rwa [Registry.names_moveValues])] at hp
    obtain ⟨q, hq, rfl⟩ := List.mem_map.mp hp
    split
    · exact hkeys q hq
    · exact hkeys q hq
  · exact hkeys p ((mem_registryOf hnames).mp hp)

/-- After a renaming a wrapper can only be without its namespace if it was left on the old name,
since the wrappers are written as a value. -/
theorem unregistered_renamed (h : s.Describes d) (hs : s.IsConsistent)
    (hnew : new ∉ Registry.names (textsOf d "namespaces")) {p : Text × Text}
    (hp : p ∈ (s.renamed d old new value).wrappers)
    (hunregistered : Registry.has p.2 (Registry.putAll (s.renamed d old new value).namespaces
      NamespaceTable.default.roots) = false) :
    p.2 = old ∧ p ∈ s.wrappers ∧ Namespace.isBuiltin old = false ∧
      ¬ ∃ head es, d.entries.get? "wrappers" = some (.table head es) := by
  have hnames := h.textsOf_names_nodup "wrappers"
  obtain ⟨-, -, hregistered⟩ :=
    (isConsistent_iff h.namespaces_eq (h.textsOf_names_nodup _)).mp hs
  rw [← Bool.not_eq_true, has_roots_iff rfl (names_nodup_renamed h hnew), not_or,
    Registry.names_append, Registry.names_without, List.mem_append, not_or, List.mem_filter,
    Bool.not_eq_true] at hunregistered
  obtain ⟨⟨hkept, hfresh⟩, hbuiltin⟩ := hunregistered
  -- A wrapper of the file that is still registered names a namespace that stays or is built in.
  have hold (hp : p ∈ s.wrappers) : p.2 = old := by
    have hname := (hregistered p hp).resolve_right (Bool.eq_false_iff.mp hbuiltin)
    by_contra hne
    exact hkept ⟨hname, decide_eq_true hne⟩
  change p ∈ movedWrappers old new d at hp
  by_cases htable : ∃ head es, d.entries.get? "wrappers" = some (.table head es)
  · obtain ⟨head, es, hget⟩ := htable
    simp only [movedWrappers, hget] at hp
    rw [mem_registryOf (by rwa [Registry.names_moveValues]), Registry.moveValues, List.mem_map]
      at hp
    obtain ⟨q, hq, rfl⟩ := hp
    split at hold
    · rename_i hmoved
      rw [if_pos hmoved] at hfresh
      exact absurd (List.mem_singleton.mpr rfl) hfresh
    · rename_i hother
      rw [← mem_registryOf hnames, ← h.wrappers_eq] at hq
      exact absurd (hold hq) hother
  · rw [movedWrappers_of_not_table htable, ← h.wrappers_eq] at hp
    exact ⟨hold hp, hp, hold hp ▸ hbuiltin, htable⟩

/-- An edit that leaves a wrapper on a namespace which is gone is not accepted. -/
theorem listsWrapper (h : s.Describes d) (hs : (s.renamed d old new value).IsConsistent)
    (hnew : new ∉ Registry.names (textsOf d "namespaces")) (hne : new ≠ old)
    (hbuiltin : Namespace.isBuiltin old = false)
    (hw : s.config.table.wrapperNamespace? w = some old) : d.listsWrapper w = true := by
  by_contra hunlisted
  have hstayed : (s.renamed d old new value).config.table.wrapperNamespace? w = some old := by
    rw [h.wrapperNamespace?_renamed, if_neg hunlisted, hw]
  have hregistered := (h.wellFormed_renamed hs hnew).registered hstayed
  rw [NamespaceTable.has_eq_of_root? (h.root?_renamed_old hnew hne),
    Registry.has_iff_mem_names] at hregistered
  rw [Namespace.isBuiltin, List.contains_eq_mem, decide_eq_false_iff_not] at hbuiltin
  exact hbuiltin hregistered

end Describes
end Settings
end Shorthand
