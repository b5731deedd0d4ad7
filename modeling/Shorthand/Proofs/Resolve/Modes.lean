import Shorthand.Proofs.Resolve.Location

/-!
The three answers to one link. A URL is the same in every mode; for anything else the texts seen
from the document and from the workspace lead back to the location.
-/

namespace Shorthand
namespace Resolver

/-- The answers in the three modes name one place: a URL, or a location to which the text shown
from the document leads, and the text shown from the workspace where it contains the location. -/
def ModesAgree (r : Resolver) (source : Path) (target label : Text) : Prop :=
  let answer (mode : Mode) := r.resolve ⟨target, label, some source, mode⟩
  (∃ url, answer .location = .external url ∧ answer .fromDocument = .external url ∧
      answer .fromWorkspace = .external url) ∨
    ∃ l d s, answer .location = .location l ∧ l.isAbsolute ∧
      answer .fromDocument = .display d ∧
      (source.sourceDirectory.join d).normalize = l.normalize ∧
      answer .fromWorkspace = .display s ∧
      (∀ root, r.workspaces.rootOf? source = some root → l.isUnder root →
        s.head? ≠ some '/' ∧ (root.join s).normalize = l.normalize) ∧
      ((∀ root, r.workspaces.rootOf? source = some root → ¬ l.isUnder root) → s = l.text)

/-- A document that is not the root has a directory to start from. Spellings such as `//` and
`/.` have the root as their only component and are the root as well. -/
theorem resolve_modes_agree (t : NamespaceTable) (options : Options) {folders : List Path}
    (hf : ∀ f ∈ folders, f.isAbsolute) {source : Path} (hs : source.isAbsolute)
    (hr : source.components ≠ [.root]) (target label : Text) :
    (⟨t, options, .ofFolders folders⟩ : Resolver).ModesAgree source target label := by
  have hdir := Path.sourceDirectory_isAbsolute hs hr
  let r : Resolver := ⟨t, options, .ofFolders folders⟩
  rcases r.resolve_eq_external_or_present target label source with ⟨url, h⟩ | h
  · exact .inl ⟨url, h _, h _, h _⟩
  · let l := r.location target label source
    have hl : l.isAbsolute := location_isAbsolute rfl hf hdir target label
    have hd := Path.normalize_congr (Path.components_join_relativeTo?_getD hl hdir)
    -- Where no workspace contains the location, its own text stands for it.
    by_cases hu : ∃ root, r.workspaces.rootOf? source = some root ∧ l.isUnder root
    · obtain ⟨root, hw, hu⟩ := hu
      have hsome : (l.relativeTo? root).isSome := by rwa [Path.isSome_relativeTo?]
      obtain ⟨s, hrel⟩ := Option.isSome_iff_exists.mp hsome
      obtain ⟨hhead, hjoin⟩ := Path.join_relativeTo? hl (Workspaces.rootOf?_isAbsolute hf hw) hrel
      refine .inr ⟨l, _, s, h .location, hl, h .fromDocument, hd, ?_, ?_, ?_⟩
      · exact (h .fromWorkspace).trans (Workspaces.present_fromWorkspace_under hw hrel)
      · intro root' hw' _
        cases hw.symm.trans hw'
        exact ⟨hhead, Path.normalize_congr hjoin⟩
      · exact fun hn => absurd hu (hn root hw)
    · have hn : ∀ root, r.workspaces.rootOf? source = some root → ¬ l.isUnder root :=
        fun root hw hl => hu ⟨root, hw, hl⟩
      refine .inr ⟨l, _, l.text, h .location, hl, h .fromDocument, hd, ?_, ?_, fun _ => rfl⟩
      · exact (h .fromWorkspace).trans (Workspaces.present_fromWorkspace_outside hn)
      · exact fun root hw hl => absurd hl (hn root hw)

/-- An index file that climbs out of the directory it completes is shown as it is spelled. -/
theorem resolve_modes_agree_climbing_index :
    let source : Path := ⟨"/ws/docs/page.md"⟩
    let folders : List Path := [⟨"/ws"⟩]
    let r : Resolver := ⟨.default, { indexFile := "../../x" }, .ofFolders folders⟩
    (∀ f ∈ folders, f.isAbsolute) ∧ source.isAbsolute ∧ source.components ≠ [.root] ∧
      r.ModesAgree source [] "notes/" ∧
      r.resolve ⟨[], "notes/", some source, .fromWorkspace⟩ = .display "docs/notes/../../x" :=
  ⟨by decide, by decide, by decide,
    resolve_modes_agree .default _ (by decide) (by decide) (by decide) [] "notes/", by decide⟩

end Resolver
end Shorthand
