import Shorthand.Proofs.Command.Frame

/-!
Renaming a namespace and renaming it back. The second renaming goes through the same documents as
the first one, and in each of them it hits the targets that the first one wrote and no others,
unless a document has named the new namespace before.
-/

namespace Shorthand

variable {old new : Text} {t : FileTree} {root : Path} {walk walk' : Walk}

/-- A document that has no targets in the new namespace comes back as it was. -/
theorem Entry.moved_moved (hnew : Namespace.IsName new) {e : Entry}
    (h : ∀ content, e = .file (.text content) → ¬ targetStart new <:+: content) :
    (e.moved old new).moved new old = e := by
  cases e with
  | directory => rfl
  | file content =>
      cases content with
      | binary bytes => rfl
      | text content =>
          have hstart : targetStart new = ']' :: '(' :: (new ++ [':']) := by simp [targetStart]
          have hcloser : ']' ∉ new := hnew.not_mem (by decide)
          have htail : ']' ∉ '(' :: (new ++ [':']) := by simp [hcloser]
          have hnone := h content rfl
          rw [hstart] at hnone
          have hback := Text.replaceAll_replaceAll (targetStart_ne_nil old) htail hnone
          rw [← hstart] at hback
          rw [moved, moved, hback]

/-- What is found after a renaming in place of what was found before it. -/
theorem get?_update_putConfig {documents : List Source} {route : Route}
    (hroute : route ≠ configRoute root) (d : Toml.Document) :
    ((putConfig root t d).update (Entry.movedIn old new documents)).get? route =
      (t.get? route).map (Entry.movedIn old new documents route) := by
  by_cases hnil : route = []
  · rw [hnil]
    exact (congrArg some (ite_self _)).symm
  · rw [FileTree.get?_update _ hnil, get?_putConfig_of_ne hroute]

/-- Two renamings that succeed, there and back, leave every file but the configuration as it was,
provided that no document of the project has a target in the namespace that is there in between. The
project may be one that can only be loaded once its namespace has the other name. -/
theorem renaming_back_restores_documents {p : Project} {a b : Text} {verbose verbose' : Bool}
    (hroot : root.IsResolved) (hordered : t.Ordered)
    (hload : Project.load root t = .ok p ∨
      Project.load root ((NamespaceAction.rename a b).run root t verbose walk).tree = .ok p)
    (hfresh : ∀ s ∈ p.config.sources root t, ∀ content, s.entry = .file (.text content) →
      ¬ targetStart b <:+: content)
    (hexit : ((NamespaceAction.rename a b).run root t verbose walk).report.exit = .success)
    (hexit' : ((NamespaceAction.rename b a).run root
      ((NamespaceAction.rename a b).run root t verbose walk).tree verbose' walk').report.exit =
        .success) :
    let renamed := ((NamespaceAction.rename a b).run root t verbose walk).tree
    let back := ((NamespaceAction.rename b a).run root renamed verbose' walk').tree
    ∀ route, route ≠ configRoute root → back.get? route = t.get? route := by
  intro renamed back route hroute
  obtain ⟨d, config, hedit, hconfig, hrenamed, hreadable, hmoved, htree⟩ :=
    renameNamespace_of_success hroot hordered hexit
  have hordered' : renamed.Ordered := by
    rw [show renamed = _ from htree]
    exact (FileTree.Ordered.put hordered _ _).update _
  obtain ⟨d', config', hedit', hconfig', -, -, -, htree'⟩ :=
    renameNamespace_of_success hroot hordered' hexit'
  have hname : Namespace.IsName b := by
    obtain ⟨-, hname, -⟩ := exists_of_renamedConfig hedit
    exact hname
  have hsources : p.config.sources root t = config.sources root t := by
    cases hload with
    | inl hload =>
        obtain ⟨c, hc, rfl⟩ := map_eq_ok_iff.mp hload
        rw [Config.eq_of_load_renamed hroot hc hedit hconfig]
        rfl
    | inr hload =>
        obtain ⟨c, hc, rfl⟩ := map_eq_ok_iff.mp hload
        cases hc.symm.trans hrenamed
        rfl
  -- Both renamings go through the documents at the same routes.
  have hroutes : (config'.sources root renamed).map (·.route) =
      (config.sources root t).map (·.route) := by
    have hsame : config'.sources root renamed = config.sources root renamed := by
      rw [Config.eq_of_load_renamed hroot hrenamed hedit' hconfig']
      rfl
    rw [hsame, show config.sources root renamed = _ from hmoved, List.map_map]
    rfl
  rw [show back = _ from htree', get?_update_putConfig hroute, show renamed = _ from htree,
    get?_update_putConfig hroute, Option.map_map]
  cases hget : t.get? route with
  | none => rfl
  | some e =>
      rw [Option.map_some, Function.comp_apply, Option.some.injEq]
      rw [← show renamed = _ from htree, Entry.movedIn, hroutes, Entry.movedIn]
      by_cases hdocument : route ∈ (config.sources root t).map (·.route)
      · rw [if_pos hdocument, if_pos hdocument]
        obtain ⟨s, hs, rfl⟩ := List.mem_map.mp hdocument
        obtain ⟨content, hread⟩ := hreadable s hs
        have hentry := (Source.read_eq_ok_iff.mp hread).2
        have hfound := Config.get?_of_mem_sources hordered hs (by simp [hentry])
        cases hget.symm.trans hfound
        exact Entry.moved_moved hname (hfresh s (hsources ▸ hs))
      · rw [if_neg hdocument, if_neg hdocument]

/-- A project with one namespace and a document that names it and has `guide` in a path. -/
def linkedProject : FileTree where
  entries := [(["ws"], .directory),
    (["ws", ".colonlink.toml"], .file (.text "[namespaces]\ndocs = \"handbook\"\n")),
    (["ws", "a.md"], .file (.text "[x](docs:a) [y](guide/b.md)\n"))]

/-- The document is changed in between. -/
theorem renaming_back_restores_linked_document :
    let there := (NamespaceAction.rename "docs" "guide").run ⟨"/ws"⟩ linkedProject false .byName
    let back := (NamespaceAction.rename "guide" "docs").run ⟨"/ws"⟩ there.tree false .byName
    there.report.exit = .success ∧ back.report.exit = .success ∧
      there.tree.get? ["ws", "a.md"] ≠ linkedProject.get? ["ws", "a.md"] ∧
      back.tree.get? ["ws", "a.md"] = linkedProject.get? ["ws", "a.md"] := by
  have hexit : ((NamespaceAction.rename "docs" "guide").run ⟨"/ws"⟩ linkedProject false
      .byName).report.exit = .success := by decide +kernel
  have hexit' : ((NamespaceAction.rename "guide" "docs").run ⟨"/ws"⟩
      ((NamespaceAction.rename "docs" "guide").run ⟨"/ws"⟩ linkedProject false .byName).tree false
      .byName).report.exit = .success := by decide +kernel
  let config : Config := { table := { NamespaceTable.default with
    roots := [("blocks", "src/cavalion-blocks"), ("comps", "src/vcl-comps"),
      ("docs", "handbook")] } }
  have hload : Project.load ⟨"/ws"⟩ linkedProject = .ok ⟨⟨"/ws"⟩, config⟩ := by decide +kernel
  have hfresh : ∀ s ∈ config.sources ⟨"/ws"⟩ linkedProject, ∀ content,
      s.entry = .file (.text content) → ¬ targetStart "guide" <:+: content := by
    have hsources : (config.sources ⟨"/ws"⟩ linkedProject).map (·.entry) =
        [.file (.text "[x](docs:a) [y](guide/b.md)\n")] := by decide +kernel
    intro s hs content hentry
    have hmem := List.mem_map_of_mem (f := Source.entry) hs
    rw [hsources, hentry, List.mem_singleton] at hmem
    injection hmem with hmem
    injection hmem with hmem
    rw [hmem, ← Text.occurs_iff_infix]
    decide
  have hback := renaming_back_restores_documents ⟨by decide, by decide⟩ (by decide +kernel)
    (.inl hload) hfresh hexit hexit' ["ws", "a.md"] (by decide +kernel)
  exact ⟨hexit, hexit', by decide +kernel, hback⟩

end Shorthand
