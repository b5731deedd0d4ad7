import Shorthand.Proofs.Expansion
import Shorthand.Proofs.Path.Normal
import Shorthand.Proofs.Placeholder
import Shorthand.Proofs.Resolve.Location

/-!
Plain targets: no rule claims them and they have no colon. They pass every stage as they are and are
joined onto the directory of the document or, if rooted, of its workspace. An empty target with the
same text as its label leads to the same place.
-/

namespace Shorthand

namespace NamespaceTable

variable {t : NamespaceTable} {target : Text}

theorem expandTarget_plain (t : NamespaceTable) (options : Options) (hrule : Rule.of? target = none)
    (hc : ':' ∉ target) (label : Text) : t.expandTarget options target label = target := by
  rw [t.expandTarget_unclaimed hrule]
  simp only [substituteColon, schemeLength?_eq_none_of_not_mem (by simp) hc, splitPrefix?,
    Text.splitFirst?_eq_none hc, spliceLastColon_of_not_mem hc]

theorem place_plain (hdefault : t.rootDefault = none) (hc : ':' ∉ target) :
    t.place target = target := by
  simp only [place, splitPrefix?, Text.splitFirst?_eq_none hc, hdefault]

end NamespaceTable

namespace Resolver

variable {r : Resolver} {target : Text}

theorem resolve_plain (hdefault : r.table.rootDefault = none) (hne : target.trimmed ≠ [])
    (hcolon : ':' ∉ target.trimmed) (hrule : Rule.of? target.trimmed = none) (label : Text)
    (source : Path) (mode : Mode) :
    let t := target.trimmed
    r.resolve ⟨target, label, some source, mode⟩ = r.workspaces.present mode source
      ((r.workspaces.baseDirectory t source).joinTarget (r.options.complete t)) := by
  intro t
  have hprotocol : hasProtocol t = false := hasProtocol_of_not_mem hcolon
  rw [resolve_eq_present hne (r.table.expandTarget_plain r.options hrule hcolon label) hprotocol,
    r.locate_eq hprotocol, NamespaceTable.place_plain hdefault hcolon]

/-- The label's own directory takes an index file like any other. -/
theorem labelTarget_eq {options : Options} (hindex : IsPlainName options.indexFile) (label : Text)
    (source : Path) : labelTarget options label source =
      source.sourceDirectory.joinTarget (options.complete label.trimmed) := by
  unfold labelTarget Options.complete
  simp only
  split
  · rename_i hlast
    exact (Path.joinTarget_append_name _ hlast (Component.isSegment_name_iff.mpr hindex)).symm
  · rfl

/-- A plain target is joined onto the directory of its document, or the root of the workspace if it
starts with `/`; label, namespaces and the option for URLs have no part in it. Unless it starts
with `/`, writing it as the label of an empty target comes to the same, as long as the index file is
a plain name. -/
theorem plain_target_joins (hdefault : r.table.rootDefault = none) (hne : target.trimmed ≠ [])
    (hcolon : ':' ∉ target.trimmed) (hrule : Rule.of? target.trimmed = none) (label : Text)
    (source : Path) :
    let t := target.trimmed
    let completed := if t.getLast? = some '/' then t ++ r.options.indexFile else t
    let base := if t.head? = some '/' then (r.workspaces.rootOf? source).getD source.sourceDirectory
      else source.sourceDirectory
    r.resolve ⟨target, label, some source, .location⟩ = .location (base.joinTarget completed) ∧
      (t.head? ≠ some '/' → IsPlainName r.options.indexFile → ∀ empty written : Text,
        empty.trimmed = [] → written.trimmed = t → ∀ mode,
          r.resolve ⟨empty, written, some source, mode⟩ =
            r.resolve ⟨target, label, some source, mode⟩) := by
  intro t completed base
  have hresolve := resolve_plain hdefault hne hcolon hrule label source
  refine ⟨hresolve .location, fun hhead hindex empty written hempty hwritten mode => ?_⟩
  rw [hresolve mode, Workspaces.baseDirectory, if_neg hhead]
  simp only [resolve, hempty, if_true, labelTarget_eq hindex, hwritten]
  rfl

theorem climbing_target_joins :
    let r : Resolver := ⟨.default, {}, .ofFolders [⟨"/ws"⟩]⟩
    let location : Resolution := .location ⟨"/ws/dir/index.md"⟩
    r.resolve ⟨" sub/../../dir/ ", "x:y", some ⟨"/ws/docs/page.md"⟩, .location⟩ = location ∧
      r.resolve ⟨" ", "sub/../../dir/", some ⟨"/ws/docs/page.md"⟩, .location⟩ = location := by
  intro r location
  obtain ⟨hjoined, hwritten⟩ := @plain_target_joins r " sub/../../dir/ " rfl (by decide) (by decide)
    (by decide) "x:y" ⟨"/ws/docs/page.md"⟩
  have hlocation : r.resolve ⟨" sub/../../dir/ ", "x:y", some ⟨"/ws/docs/page.md"⟩, .location⟩ =
      location := hjoined.trans (by decide)
  exact ⟨hlocation, (hwritten (by decide) (by decide) " " "sub/../../dir/" (by decide) (by decide)
    .location).trans hlocation⟩

end Resolver
end Shorthand
