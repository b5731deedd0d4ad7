import Shorthand.Link.Render
import Shorthand.Proofs.Resolve.Plain

/-!
Rooted targets. Without a colon they stand for themselves: no rule, namespace, label or index file
changes them, so the address that rendering writes for a link leads back to where the link led.
-/

namespace Shorthand

namespace NamespaceTable

variable {target : Text}

/-- Wrappers do not start with `/`. -/
theorem expandTarget_rooted (t : NamespaceTable) (options : Options) (h : target.head? = some '/')
    (hc : ':' ∉ target) (label : Text) : t.expandTarget options target label = target := by
  have hdelimiter : ∀ c ∈ ['[', '(', '{'], target.head? ≠ some c := by
    intro c hm
    rw [h]
    simp only [List.mem_cons, List.not_mem_nil, or_false] at hm
    rcases hm with rfl | rfl | rfl <;> decide
  exact t.expandTarget_plain options (Rule.of?_eq_none hdelimiter) hc label

/-- A root default does not reach an anchored target either. -/
theorem place_rooted (t : NamespaceTable) (h : target.head? = some '/') (hc : ':' ∉ target) :
    t.place target = target := by
  have hanchored : isAnchored target = true := by simp [isAnchored, h]
  simp only [place, splitPrefix?, Text.splitFirst?_eq_none hc]
  cases t.rootDefault with
  | none => rfl
  | some root => simp [underRoot, hanchored]

end NamespaceTable

namespace Resolver

variable {r : Resolver} {source root : Path} {target : Text}

theorem resolve_rooted (hw : r.workspaces.rootOf? source = some root)
    (h : target.head? = some '/') (hc : ':' ∉ target) (hlast : target.getLast? ≠ some '/')
    (hblank : ∀ c, target.getLast? = some c → Text.isBlank c = false) (label : Text) :
    r.resolve ⟨target, label, some source, .location⟩ = .location (root.joinTarget target) := by
  have htrimmed : target.trimmed = target := by
    apply Text.trimmed_eq_self _ hblank
    intro c hd
    cases h.symm.trans hd
    decide
  have hne : target ≠ [] := by
    rintro rfl
    contradiction
  have hprotocol : hasProtocol target = false := hasProtocol_of_not_mem hc
  have hcanonical : r.table.expandTarget r.options target.trimmed label = target :=
    htrimmed.symm ▸ r.table.expandTarget_rooted r.options h hc label
  have hlocate : r.locate target source = root.joinTarget target := by
    rw [r.locate_eq hprotocol, r.table.place_rooted h hc, Workspaces.baseDirectory, if_pos h, hw,
      Option.getD_some, Options.complete, if_neg hlast]
  rw [resolve_eq_present (htrimmed.symm ▸ hne) hcanonical hprotocol, hlocate]
  rfl

/-- Where the workspace of a document contains the location strictly, what it shows of it is not
empty and neither starts nor ends with `/`. -/
theorem href?_under {folders : List Path} (hworkspaces : r.workspaces = .ofFolders folders)
    (hf : ∀ f ∈ folders, f.isAbsolute) {l : Path} {label : Text} (hl : l.isAbsolute)
    (hw : r.workspaces.rootOf? source = some root)
    (h : r.resolve ⟨target, label, some source, .location⟩ = .location l)
    (hunder : l.isUnder root) (hstrict : l.components ≠ root.components) :
    ∃ shown, r.href? source ⟨label, target⟩ = some ('/' :: shown) ∧ shown.head? ≠ some '/' ∧
      ('/' :: shown).getLast? ≠ some '/' ∧ (root.join shown).components = l.components := by
  have hroot : root.isAbsolute := Workspaces.rootOf?_isAbsolute hf (hworkspaces ▸ hw)
  obtain ⟨shown, hshown⟩ := Option.isSome_iff_exists.mp
    (show (l.relativeTo? root).isSome by rwa [Path.isSome_relativeTo?])
  obtain ⟨hhead, hjoin⟩ := Path.join_relativeTo? hl hroot hshown
  refine ⟨shown, ?_, hhead, ?_, hjoin⟩
  · have hdisplay := (present_of_resolve_location h .fromWorkspace).2.trans
      (Workspaces.present_fromWorkspace_under hw hshown)
    simp only [href?, hdisplay, siteRooted, if_neg hhead]
  · obtain ⟨rest, hrest, rfl⟩ := Path.relativeTo?_eq_some_iff.mp hshown
    obtain ⟨s, rfl⟩ := Path.exists_of_isAbsolute hroot
    have hsegment : ∀ c ∈ rest, c.IsSegment := by
      intro c hc
      apply Path.isSegment_of_mem_tail hl
      rw [hrest, Path.components_rooted]
      exact List.mem_append_right _ hc
    have hrest' : rest ≠ [] := by
      rintro rfl
      exact hstrict (hrest.trans (List.append_nil _))
    rw [List.getLast?_cons_of_ne_nil (Component.joinWith_ne_nil hsegment hrest')]
    exact Component.getLast?_joinWith hsegment

/-- Rendering keeps the meaning of a link inside its workspace: the address that stands for a
location strictly below the workspace root, read as a target of the same document, leads to the
normal form of that location, whatever the label. An address with a colon would take in the
label, and white space at its end would be trimmed. -/
theorem resolve_href {folders : List Path} (hworkspaces : r.workspaces = .ofFolders folders)
    (hf : ∀ f ∈ folders, f.isAbsolute) (hs : source.isAbsolute) (hr : source.components ≠ [.root])
    (hw : r.workspaces.rootOf? source = some root) {l : Path} {label : Text}
    (h : r.resolve ⟨target, label, some source, .location⟩ = .location l)
    (hunder : l.isUnder root) (hstrict : l.components ≠ root.components) :
    ∃ href, r.href? source ⟨label, target⟩ = some href ∧
      (':' ∉ href → (∀ c, href.getLast? = some c → Text.isBlank c = false) →
        ∀ label', r.resolve ⟨href, label', some source, .location⟩ = .location l.normalize) := by
  have hl : l.isAbsolute := by
    rw [← (present_of_resolve_location h .location).1]
    exact location_isAbsolute hworkspaces hf (Path.sourceDirectory_isAbsolute hs hr) target label
  obtain ⟨shown, hhref, hhead, hlast, hjoin⟩ := href?_under hworkspaces hf hl hw h hunder hstrict
  refine ⟨'/' :: shown, hhref, fun hcolon hblank label' => ?_⟩
  rw [resolve_rooted hw rfl hcolon hlast hblank]
  have hdrop : ('/' :: shown).dropWhile (· == '/') = shown := by
    rw [List.dropWhile_cons_of_pos (by decide)]
    cases shown with
    | nil => rfl
    | cons c shown => exact List.dropWhile_cons_of_neg fun hc => hhead (by simp_all)
  rw [Path.joinTarget, hdrop, Path.normalize_congr hjoin]

/-- The inner of two workspaces is the root, and an index file that climbs leaves a location that
is not in normal form. -/
theorem resolve_href_climbing_index :
    let folders : List Path := [⟨"/ws"⟩, ⟨"/ws/ui"⟩]
    let source : Path := ⟨"/ws/ui/docs/page.md"⟩
    let root : Path := ⟨"/ws/ui"⟩
    let l : Path := ⟨"/ws/ui/docs/notes/../x"⟩
    let r : Resolver := ⟨.default, { indexFile := "../x" }, .ofFolders folders⟩
    (∀ f ∈ folders, f.isAbsolute) ∧ source.isAbsolute ∧ source.components ≠ [.root] ∧
      r.workspaces.rootOf? source = some root ∧
      r.resolve ⟨[], "notes/", some source, .location⟩ = .location l ∧ l.isUnder root ∧
      l.components ≠ root.components ∧
      ∃ href, r.href? source ⟨"notes/", []⟩ = some href ∧
        (':' ∉ href → (∀ c, href.getLast? = some c → Text.isBlank c = false) →
          ∀ label', r.resolve ⟨href, label', some source, .location⟩ = .location l.normalize) :=
  ⟨by decide, by decide, by decide, by decide, by decide, by decide, by decide,
    @resolve_href _ _ ⟨"/ws/ui"⟩ _ [⟨"/ws"⟩, ⟨"/ws/ui"⟩] rfl (by decide) (by decide) (by decide)
      (by decide) _ _ (by decide) (by decide) (by decide)⟩

end Resolver
end Shorthand
