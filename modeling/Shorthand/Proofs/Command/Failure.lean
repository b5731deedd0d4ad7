import Mathlib.Data.Option.Basic
import Shorthand.Proofs.Command.Namespaces
import Shorthand.Proofs.Documents
import Shorthand.Proofs.FileTree

/-!
What a failing command on namespaces leaves behind. Adding and removing check everything before
they write. Renaming writes the configuration before it reads the documents, so a document that
cannot be read ends it halfway.
-/

namespace Shorthand

namespace FileTree

/-- Every entry is as in the earlier tree, or is one of the given documents with the targets in one
namespace moved to another. -/
def RetargetedFrom (later earlier : FileTree) (old new : Text) (documents : List Source) : Prop :=
  ∀ route, later.get? route = earlier.get? route ∨
    ∃ s ∈ documents, ∃ content, s.route = route ∧ s.read = .ok content ∧
      later.get? route =
        some (.file (.text (Text.replaceAll (targetStart old) (targetStart new) content)))

variable {later earlier : FileTree} {old new : Text} {documents more : List Source}

theorem RetargetedFrom.mono (h : later.RetargetedFrom earlier old new documents)
    (hsubset : documents ⊆ more) : later.RetargetedFrom earlier old new more := by
  intro route
  rcases h route with hsame | ⟨x, hx, hdocument⟩
  · exact .inl hsame
  · exact .inr ⟨x, hsubset hx, hdocument⟩

theorem RetargetedFrom.of_put {s : Source} {content : Text} (hroute : s.route ≠ [])
    (hread : s.read = .ok content)
    (h : later.RetargetedFrom (earlier.put s.route
      (.file (.text (Text.replaceAll (targetStart old) (targetStart new) content)))) old new
      documents) :
    later.RetargetedFrom earlier old new (s :: documents) := by
  intro route
  rcases h route with hsame | ⟨x, hx, hdocument⟩
  · rw [get?_put hroute] at hsame
    by_cases heq : route = s.route
    · rw [if_pos heq] at hsame
      exact .inr ⟨s, List.mem_cons_self, content, heq.symm, hread, hsame⟩
    · rw [if_neg heq] at hsame
      exact .inl hsame
  · exact .inr ⟨x, List.mem_cons_of_mem _ hx, hdocument⟩

end FileTree

variable {old new : Text} {documents : List Source}

/-- Renaming ends at a document that cannot be read. -/
theorem retarget_of_unread {s : Source} {e : Error} (hread : s.read = .error e)
    (old new : Text) (documents : List Source) (t : FileTree) :
    retarget old new (s :: documents) t = { tree := t, error := some e } := by
  simp only [retarget, hread]

/-- After a document that can be read, renaming goes on in the others. -/
theorem retarget_of_read {s : Source} {content : Text} (hread : s.read = .ok content)
    (old new : Text) (documents : List Source) (t : FileTree) :
    let later := if Text.occurs (targetStart old) content then
        t.put s.route (.file (.text (Text.replaceAll (targetStart old) (targetStart new) content)))
      else t
    (retarget old new (s :: documents) t).tree = (retarget old new documents later).tree ∧
      (retarget old new (s :: documents) t).error = (retarget old new documents later).error := by
  simp only [retarget, hread]
  split <;> exact ⟨rfl, rfl⟩

theorem retarget_retargetedFrom (h : ∀ s ∈ documents, s.route ≠ []) (t : FileTree) :
    (retarget old new documents t).tree.RetargetedFrom t old new documents := by
  induction documents generalizing t with
  | nil => exact fun route => .inl rfl
  | cons s documents ih =>
      have hrest := fun x hx => h x (List.mem_cons_of_mem _ hx)
      cases hread : s.read with
      | error e =>
          rw [retarget_of_unread hread]
          exact fun route => .inl rfl
      | ok content =>
          obtain ⟨htree, -⟩ := retarget_of_read hread old new documents t
          rw [htree]
          split
          · exact (ih hrest _).of_put (h s List.mem_cons_self) hread
          · exact (ih hrest t).mono (List.subset_cons_self s documents)

/-- What renaming in documents does before it fails is renaming in the documents before the first
one that cannot be read. -/
theorem exists_unread_of_retarget {t : FileTree} {e : Error}
    (h : (retarget old new documents t).error = some e) :
    ∃ done s rest, documents = done ++ s :: rest ∧ (∀ x ∈ done, x.IsReadable) ∧
      s.read = .error e ∧ (retarget old new documents t).tree = (retarget old new done t).tree := by
  induction documents generalizing t with
  | nil => contradiction
  | cons s documents ih =>
      cases hread : s.read with
      | error e' =>
          rw [retarget_of_unread hread] at h ⊢
          obtain rfl : e' = e := Option.some.inj h
          exact ⟨[], s, documents, rfl, by simp, hread, rfl⟩
      | ok content =>
          obtain ⟨htree, herror⟩ := retarget_of_read hread old new documents t
          obtain ⟨done, x, rest, rfl, hdone, hx, hlater⟩ := ih (herror.symm.trans h)
          have hreadable : ∀ y ∈ s :: done, y.IsReadable :=
            List.forall_mem_cons.mpr ⟨⟨content, hread⟩, hdone⟩
          refine ⟨s :: done, x, rest, rfl, hreadable, hx, ?_⟩
          rw [htree, hlater, (retarget_of_read hread old new done t).1]

variable {root : Path} {t : FileTree} {walk : Walk}

/-- A walk comes to the documents and to nothing else. -/
theorem Walk.mem_arrange {s : Source} : s ∈ walk.arrange documents ↔ s ∈ documents :=
  (walk.perm documents).mem_iff

theorem Config.retarget_retargetedFrom (c : Config) (root : Path) (old new : Text) (walk : Walk)
    (t : FileTree) :
    (c.retarget root old new walk t).tree.RetargetedFrom t old new (c.sources root t) := by
  have hroutes : ∀ s ∈ walk.arrange (c.sources root t), s.route ≠ [] :=
    fun s hs => mem_sources_route_ne_nil (Walk.mem_arrange.mp hs)
  exact (Shorthand.retarget_retargetedFrom hroutes t).mono fun s hs => Walk.mem_arrange.mp hs

/-- What a command on namespaces may have changed when it failed: nothing, unless it renames and its
edit of the configuration was accepted. Then the configuration has been edited. Nothing else differs
if the edited configuration cannot be loaded. If it can, renaming failed at the first document of
the walk that cannot be read, and nothing else differs but documents before that one, in which the
targets have moved. -/
def KeptOnFailure (root : Path) (t : FileTree) (a : NamespaceAction) (walk : Walk)
    (later : FileTree) : Prop :=
  later = t ∨
    ∃ old new d, a = .rename old new ∧ renamedConfig root t old new = .ok d ∧
      let edited := putConfig root t d
      match Config.load root edited with
      | .error _ => later = edited
      | .ok config =>
          ∃ done s rest e, walk.arrange (config.sources root edited) = done ++ s :: rest ∧
            (∀ x ∈ done, x.IsReadable) ∧ s.read = .error e ∧
            later.RetargetedFrom edited old new done

theorem run_remove (root : Path) (t : FileTree) (verbose : Bool) (walk : Walk) (name : Text)
    (force : Bool) : (NamespaceAction.remove name force).run root t verbose walk =
      removeNamespace root t name force := rfl

theorem run_rename (root : Path) (t : FileTree) (verbose : Bool) (walk : Walk) (old new : Text) :
    (NamespaceAction.rename old new).run root t verbose walk =
      renameNamespace root t old new verbose walk := rfl

theorem keptOnFailure_rename {verbose : Bool}
    (h : (renameNamespace root t old new verbose walk).report.exit ≠ .success) :
    KeptOnFailure root t (.rename old new) walk
      (renameNamespace root t old new verbose walk).tree := by
  cases hedit : renamedConfig root t old new with
  | error e => exact .inl (by rw [renameNamespace_of_refused hedit]; rfl)
  | ok d =>
      refine .inr ⟨old, new, d, rfl, hedit, ?_⟩
      cases hload : Config.load root (putConfig root t d) with
      | error e =>
          simp only [hload]
          rw [renameNamespace_of_unloadable hedit hload]
          rfl
      | ok config =>
          simp only [hload]
          obtain ⟨htree, hexit⟩ := renameNamespace_of_loaded hedit hload verbose walk
          obtain ⟨e, herror⟩ := Option.ne_none_iff_exists'.mp (mt hexit.mpr h)
          obtain ⟨done, s, rest, hdocuments, hdone, hs, hchanged⟩ :=
            exists_unread_of_retarget herror
          refine ⟨done, s, rest, e, hdocuments, hdone, hs, ?_⟩
          have hroutes : ∀ x ∈ done, x.route ≠ [] := by
            intro x hx
            apply Config.mem_sources_route_ne_nil
            rw [← Walk.mem_arrange, hdocuments]
            exact List.mem_append_left _ hx
          rw [htree, Config.retarget, hchanged]
          exact retarget_retargetedFrom hroutes _

/-- A command on namespaces that fails changes nothing, except that renaming does not take back the
edited configuration and the documents before the one that it could not read. -/
theorem failed_action_keeps_files {verbose : Bool} {a : NamespaceAction}
    (h : (a.run root t verbose walk).report.exit ≠ .success) :
    KeptOnFailure root t a walk (a.run root t verbose walk).tree := by
  cases a with
  | add name path =>
      rcases addNamespace_cases root t name path with ⟨-, htree⟩ | ⟨_, _, _, _, _, hexit, _⟩
      · exact .inl htree
      · exact absurd hexit h
  | list => exact .inl rfl
  | remove name force =>
      rcases removeNamespace_cases root t name force with
        ⟨-, htree⟩ | ⟨_, _, _, _, _, _, _, hexit, _⟩
      · exact .inl htree
      · exact absurd hexit h
  | rename old new => exact keptOnFailure_rename h

/-- A project with one namespace and one document that is not UTF-8. -/
def unreadableProject : FileTree where
  entries := [(["ws"], .directory),
    (["ws", ".colonlink.toml"], .file (.text "[namespaces]\ndocs = \"handbook\"\n")),
    (["ws", "a.md"], .file (.binary [255]))]

theorem rename_unreadableProject :
    let o := renameNamespace ⟨"/ws"⟩ unreadableProject "docs" "guide" false .byName
    o.report.exit ≠ .success ∧ o.tree.get? ["ws", ".colonlink.toml"] =
      some (.file (.text "[namespaces]\nguide = \"handbook\"\n")) := by
  decide +kernel

/-- Renaming fails at the document and leaves the configuration edited. -/
theorem rename_stops_halfway :
    let t := unreadableProject
    let o := renameNamespace ⟨"/ws"⟩ t "docs" "guide" false .byName
    (∃ config, Config.load ⟨"/ws"⟩ t = .ok config) ∧ o.report.exit ≠ .success ∧
      o.tree.get? ["ws", ".colonlink.toml"] ≠ t.get? ["ws", ".colonlink.toml"] := by
  have hload : Config.load ⟨"/ws"⟩ unreadableProject =
      .ok { table := { NamespaceTable.default with
        roots := [("blocks", "src/cavalion-blocks"), ("comps", "src/vcl-comps"),
          ("docs", "handbook")] } } := by
    decide +kernel
  obtain ⟨hexit, hconfig⟩ := rename_unreadableProject
  refine ⟨⟨_, hload⟩, hexit, ?_⟩
  simp only [hconfig]
  decide

theorem failed_action_keeps_files_unreadable :
    let a : NamespaceAction := .rename "docs" "guide"
    let o := a.run ⟨"/ws"⟩ unreadableProject false .byName
    o.report.exit ≠ .success ∧ KeptOnFailure ⟨"/ws"⟩ unreadableProject a .byName o.tree := by
  have hexit := rename_unreadableProject.1
  rw [← run_rename] at hexit
  exact ⟨hexit, failed_action_keeps_files hexit⟩

end Shorthand
