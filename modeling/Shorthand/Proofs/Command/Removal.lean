import Shorthand.Proofs.Command.Loadable
import Shorthand.Proofs.Resolve.Wrapped

/-!
Removing a namespace that no link names. The documents stay, and every link leads where it led, save
the links in a wrapper that stands for the namespace: these lead below the root that is built in.
-/

namespace Shorthand

variable {name : Text} {t : FileTree} {root : Path} {walk : Walk}

/-- A namespace is not counted as used if no link that is found has its name in front. -/
theorem Project.unnamed_of_countUses {p : Project} (h : p.countUses t name = .ok 0) :
    ∃ links, p.scan t = .ok links ∧ ∀ o ∈ links, ¬ name ++ [':'] <+: o.link.target.trimmed := by
  obtain ⟨links, hscan, hcount⟩ := map_eq_ok_iff.mp h
  refine ⟨links, hscan, fun o ho => ?_⟩
  have hnone := List.filter_eq_nil_iff.mp (List.length_eq_zero_iff.mp hcount) o ho
  rwa [List.isPrefixOf_iff_prefix] at hnone

/-- A link in a wrapper that stands for the namespace, which leads to the same path below the root
that is built in as before below the root of the project. -/
def Occurrence.Reroots (o : Occurrence) (r r' : Resolver) (name : Text) : Prop :=
  ∃ w payload before after, r.table.wrapperNamespace? w = some name ∧
    o.link.target.trimmed = w.wrap payload ∧ r.table.root? name = some before ∧
    NamespaceTable.default.root? name = some after ∧ ∀ mode,
      let path := filled (Wrapper.canonicalPayload payload) o.link.label
      r.resolve (o.request mode) =
          r.workspaces.present mode o.source (r.landing before path o.source) ∧
        r'.resolve (o.request mode) =
          r.workspaces.present mode o.source (r.landing after path o.source)

/-- A link in a wrapper of a namespace that is back at the root which is built in leads where it
led, or to the same path below that root. -/
theorem Occurrence.same_or_reroots {o : Occurrence} {r r' : Resolver} {w : Wrapper} {payload : Text}
    (ht : r.table.WellFormed) (ht' : r'.table.WellFormed) (hoptions : r'.options = r.options)
    (hworkspaces : r'.workspaces = r.workspaces) (hw : r.table.wrapperNamespace? w = some name)
    (hw' : r'.table.wrapperNamespace? w = some name)
    (hdefault : r'.table.root? name = NamespaceTable.default.root? name)
    (htarget : o.link.target.trimmed = w.wrap payload) :
    (∀ mode, r'.resolve (o.request mode) = r.resolve (o.request mode)) ∨ o.Reroots r r' name := by
  obtain ⟨before, hbefore⟩ := Option.isSome_iff_exists.mp (ht.registered hw)
  obtain ⟨after, hafter⟩ := Option.isSome_iff_exists.mp (ht'.registered hw')
  refine (Resolver.resolve_wrap_rerooted ht ht' hoptions hworkspaces hw hw' hbefore hafter htarget
    o.link.label o.source).imp_right fun hmoved => ?_
  exact ⟨w, payload, before, after, hw, htarget, hbefore, hdefault.symm.trans hafter, hmoved⟩

namespace Settings.Describes

variable {s : Settings} {d d' : Toml.Document}

/-- A link that does not name the removed namespace leads where it led, or it is in one of the
wrappers of the namespace. -/
theorem resolve_removed (h : s.Describes d) (hs : s.IsConsistent)
    (hedit : d.removeNamespace name = .ok d')
    (hafter : (s.removed d name).IsConsistent) (root : Path) {o : Occurrence}
    (hlabel : ':' ∉ o.link.label) (hnamed : ¬ name ++ [':'] <+: o.link.target.trimmed) :
    let r := Project.resolver ⟨root, s.config⟩
    let r' := Project.resolver ⟨root, (s.removed d name).config⟩
    (∀ mode, r'.resolve (o.request mode) = r.resolve (o.request mode)) ∨ o.Reroots r r' name := by
  intro r r'
  obtain ⟨hmem, hd'⟩ := h.removeNamespace hedit
  have hsame : r.table.SameApartFromRoots r'.table := sameApartFromRoots_removed s d name
  by_cases hwrapped : ∃ w payload, r.table.wrapperNamespace? w = some name ∧
      o.link.target.trimmed = w.wrap payload
  · obtain ⟨w, payload, hw, htarget⟩ := hwrapped
    have hw' : r'.table.wrapperNamespace? w = some name := (hsame.wrapperNamespace? w).trans hw
    exact Occurrence.same_or_reroots (h.wellFormed hs) (hd'.wellFormed hafter) rfl rfl hw hw'
      (h.root?_removed_self name) htarget
  · refine .inl fun mode =>
      Resolver.resolve_eq_of_not_uses (h.wellFormed hs) hsame rfl rfl hlabel ?_
    intro n hne
    obtain rfl : n = name := by
      by_contra hn
      exact hne (h.root?_removed_other hn)
    refine ⟨h.isName_of_mem hs hmem, ?_⟩
    rintro (hnames | hwrapper)
    · exact hnamed hnames
    · exact hwrapped hwrapper

end Settings.Describes

/-- A namespace that can be removed without force is one that no link names. The project can still
be loaded if the namespace is built in or no wrapper stands for it. Then the documents have the
links that they had, and a link leads where it led unless a wrapper takes it to another root. -/
theorem removal_keeps_destinations {p : Project} {verbose : Bool} (hroot : root.IsResolved)
    (hload : Project.load root t = .ok p)
    (hlabels : ∀ links, p.scan t = .ok links → ∀ o ∈ links, ':' ∉ o.link.label)
    (hexit : ((NamespaceAction.remove name false).run root t verbose walk).report.exit = .success) :
    let later := ((NamespaceAction.remove name false).run root t verbose walk).tree
    ∃ links, p.scan t = .ok links ∧ (∀ o ∈ links, ¬ name ++ [':'] <+: o.link.target.trimmed) ∧
      (Namespace.isBuiltin name = true ∨
          (∀ w, p.config.table.wrapperNamespace? w ≠ some name) →
        ∃ p', Project.load root later = .ok p' ∧ p'.scan later = .ok links ∧ ∀ o ∈ links,
          (∀ mode, p'.resolver.resolve (o.request mode) = p.resolver.resolve (o.request mode)) ∨
            o.Reroots p.resolver p'.resolver name) := by
  intro later
  obtain ⟨c, hc, rfl⟩ := map_eq_ok_iff.mp hload
  rcases removeNamespace_cases root t name false with
    ⟨hfailed, -⟩ | ⟨p, d, edited, hp, hcount, hd, hedit, -, htree⟩
  · exact absurd hexit hfailed
  obtain rfl : p = ⟨root, c⟩ := Except.ok.inj (hp.symm.trans hload)
  obtain ⟨links, hscan, hunnamed⟩ := Project.unnamed_of_countUses (hcount rfl)
  refine ⟨links, hscan, hunnamed, fun hhooked => ?_⟩
  obtain ⟨s, hs, hconsistent, rfl⟩ := exists_settings hc hd
  have hafter := (hs.isConsistent_removed hconsistent name).mpr hhooked
  have hne : d ≠ ⟨[], []⟩ := by
    rintro rfl
    contradiction
  have hlater := (load_putConfig_eq_ok_iff hroot hc hd hne (hs.removeNamespace hedit).2).mpr
    ⟨hafter, rfl⟩
  have htree' : later = putConfig root t edited := htree
  refine ⟨⟨root, (s.removed d name).config⟩, ?_, ?_, fun o ho => ?_⟩
  · rw [htree', Project.load, hlater]
    rfl
  · rw [← hscan, htree', Project.scan, Config.sources_putConfig]
    rfl
  · exact hs.resolve_removed hconsistent hedit hafter root (hlabels links hscan o ho)
      (hunnamed o ho)

/-- A project with one namespace of its own and a link in brackets, which stand for another. -/
def handbookProject : FileTree where
  entries := [(["ws"], .directory),
    (["ws", ".colonlink.toml"], .file (.text "[namespaces]\ndocs = \"handbook\"\n")),
    (["ws", "a.md"], .file (.text "[x]([note])\n"))]

/-- The link leads to the same file after the removal. -/
theorem remove_unnamed_namespace :
    let o := (NamespaceAction.remove "docs" false).run ⟨"/ws"⟩ handbookProject false .byName
    o.report.exit = .success ∧ ∃ p' links, Project.load ⟨"/ws"⟩ o.tree = .ok p' ∧
      p'.scan o.tree = .ok links ∧
      links.map (fun l => p'.resolver.resolve (l.request .location)) =
        [.location ⟨"/ws/src/cavalion-blocks/note"⟩] := by
  let p : Project := ⟨⟨"/ws"⟩, { table :=
    { roots := [("blocks", "src/cavalion-blocks"), ("comps", "src/vcl-comps"), ("docs", "handbook")]
      brackets := some "blocks"
      parens := some "comps" } }⟩
  have hload : Project.load ⟨"/ws"⟩ handbookProject = .ok p := by decide +kernel
  have hexit : ((NamespaceAction.remove "docs" false).run ⟨"/ws"⟩ handbookProject false
      .byName).report.exit = .success := by decide +kernel
  have hscan : p.scan handbookProject = .ok [⟨⟨"x", "[note]"⟩, ⟨"/ws/a.md"⟩, 1, 1⟩] := by
    decide +kernel
  have hunhooked (w : Wrapper) : p.config.table.wrapperNamespace? w ≠ some "docs" := by
    cases w <;> decide
  have hlabels (links : List Occurrence) (h : p.scan handbookProject = .ok links) :
      ∀ o ∈ links, ':' ∉ o.link.label := by
    rw [hscan] at h
    rw [← Except.ok.inj h]
    exact List.forall_mem_singleton.mpr (by decide)
  obtain ⟨links, hlinks, -, hkept⟩ :=
    removal_keeps_destinations ⟨by decide, by decide⟩ hload hlabels hexit
  rw [hscan] at hlinks
  obtain rfl := Except.ok.inj hlinks
  obtain ⟨p', hload', hscan', hleads⟩ := hkept (.inr hunhooked)
  refine ⟨hexit, p', _, hload', hscan', ?_⟩
  rcases List.forall_mem_singleton.mp hleads with hsame | ⟨w, _, _, _, hw, -⟩
  · rw [List.map_singleton, hsame]
    decide +kernel
  · exact absurd hw (hunhooked w)

/-- A project that gives a built-in namespace a root of its own. -/
def relocatedProject : FileTree where
  entries := [(["ws"], .directory),
    (["ws", ".colonlink.toml"], .file (.text "[namespaces]\nblocks = \"lib\"\n")),
    (["ws", "a.md"], .file (.text "[x]([note])\n"))]

/-- The link does not name the namespace that its brackets stand for, and leads to another file
after the removal. -/
theorem removal_reroots_brackets :
    let o := (NamespaceAction.remove "blocks" false).run ⟨"/ws"⟩ relocatedProject false .byName
    let l : Occurrence := ⟨⟨"x", "[note]"⟩, ⟨"/ws/a.md"⟩, 1, 1⟩
    ∃ p p', Project.load ⟨"/ws"⟩ relocatedProject = .ok p ∧ p.scan relocatedProject = .ok [l] ∧
      ':' ∉ l.link.label ∧ o.report.exit = .success ∧ Project.load ⟨"/ws"⟩ o.tree = .ok p' ∧
      p'.scan o.tree = .ok [l] ∧
      p.resolver.resolve (l.request .location) = .location ⟨"/ws/lib/note"⟩ ∧
      p'.resolver.resolve (l.request .location) = .location ⟨"/ws/src/cavalion-blocks/note"⟩ := by
  intro o l
  have htree : o.tree = ⟨[(["ws"], .directory),
      (["ws", ".colonlink.toml"], .file (.text "[namespaces]\n")),
      (["ws", "a.md"], .file (.text "[x]([note])\n"))]⟩ := by decide +kernel +revert
  let p : Project := ⟨⟨"/ws"⟩, { table :=
    { roots := [("blocks", "lib"), ("comps", "src/vcl-comps")]
      brackets := some "blocks"
      parens := some "comps" } }⟩
  rw [htree]
  exact ⟨p, ⟨⟨"/ws"⟩, {}⟩, by decide +kernel, by decide +kernel, by decide,
    by decide +kernel +revert, by decide +kernel, by decide +kernel, by decide +kernel,
    by decide +kernel⟩

end Shorthand
