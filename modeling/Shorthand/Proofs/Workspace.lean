import Shorthand.Proofs.Path.Normal
import Shorthand.Workspace

/-!
The innermost workspace of a document. It is one of the folders, so it is as absolute as they are.
The folders that enclose a document lie in one another, so the deepest is found whatever their
order.
-/

namespace Shorthand

/-- In normal form, the components of the folder begin those of the document. -/
def Path.Encloses (folder document : Path) : Prop :=
  folder.normalize.components <+: document.normalize.components

namespace Workspaces

/-- One of the two is kept. -/
theorem eq_or_eq_of_deeper {best : Option Path} {folder root : Path}
    (h : deeper best folder = some root) : best = some root ∨ folder = root := by
  unfold deeper at h
  split at h
  · exact .inr (Option.some.inj h)
  · split at h
    · exact .inr (Option.some.inj h)
    · exact .inl h

theorem mem_of_foldl_deeper {folders : List Path} {best : Option Path} {root : Path}
    (h : folders.foldl deeper best = some root) : best = some root ∨ root ∈ folders := by
  induction folders generalizing best with
  | nil => exact .inl h
  | cons folder folders ih =>
      rcases ih h with hb | hm
      · rcases eq_or_eq_of_deeper hb with hb | rfl
        · exact .inl hb
        · exact .inr List.mem_cons_self
      · exact .inr (List.mem_cons_of_mem _ hm)

theorem mem_of_rootOf? {w : Workspaces} {document root : Path}
    (h : w.rootOf? document = some root) : root ∈ w.roots := by
  rcases mem_of_foldl_deeper h with hb | hm
  · contradiction
  · exact (List.mem_filter.mp hm).1

theorem rootOf?_isAbsolute {folders : List Path} (hf : ∀ f ∈ folders, f.isAbsolute)
    {document root : Path} (h : (ofFolders folders).rootOf? document = some root) :
    root.isAbsolute := by
  obtain ⟨folder, hm, rfl⟩ := List.mem_map.mp (mem_of_rootOf? h)
  exact Path.normalize_isAbsolute (hf folder hm)

theorem exists_deeper (best : Option Path) (folder : Path) :
    ∃ root, deeper best folder = some root := by
  unfold deeper
  split
  · exact ⟨_, rfl⟩
  · split <;> exact ⟨_, rfl⟩

/-- Neither of the two is deeper than the one that is kept. -/
theorem length_le_of_deeper {best : Option Path} {folder root f : Path}
    (h : deeper best folder = some root) (hf : best = some f ∨ folder = f) :
    f.components.length ≤ root.components.length := by
  cases best with
  | none =>
      cases h
      cases hf with
      | inl hf => contradiction
      | inr hf => rw [hf]
  | some b =>
      rw [deeper] at h
      split at h <;> cases h <;> cases hf with
      | inl hf => cases hf; omega
      | inr hf => cases hf; omega

theorem length_le_of_foldl_deeper {folders : List Path} {best : Option Path} {root f : Path}
    (h : folders.foldl deeper best = some root) (hf : best = some f ∨ f ∈ folders) :
    f.components.length ≤ root.components.length := by
  induction folders generalizing best f with
  | nil =>
      cases hf with
      | inl hf =>
          cases hf.symm.trans h
          exact Nat.le_refl _
      | inr hf => contradiction
  | cons folder folders ih =>
      obtain ⟨kept, hkept⟩ := exists_deeper best folder
      have hroot : kept.components.length ≤ root.components.length := ih h (.inl hkept)
      have hbefore (hf : best = some f ∨ folder = f) :
          f.components.length ≤ root.components.length :=
        Nat.le_trans (length_le_of_deeper hkept hf) hroot
      cases hf with
      | inl hf => exact hbefore (.inl hf)
      | inr hf =>
          cases hf with
          | head => exact hbefore (.inr rfl)
          | tail _ hf => exact ih h (.inr hf)

theorem foldl_deeper_some_ne_none (folders : List Path) (best : Path) :
    folders.foldl deeper (some best) ≠ none := by
  induction folders generalizing best with
  | nil => exact Option.some_ne_none best
  | cons folder folders ih =>
      obtain ⟨kept, hkept⟩ := exists_deeper (some best) folder
      rw [List.foldl_cons, hkept]
      exact ih kept

theorem foldl_deeper_eq_none_iff {folders : List Path} :
    folders.foldl deeper none = none ↔ folders = [] := by
  cases folders with
  | nil => exact iff_of_true rfl rfl
  | cons folder folders =>
      exact iff_of_false (foldl_deeper_some_ne_none folders folder) (List.cons_ne_nil _ _)

section Enclosing

variable {folders : List Path} {document root : Path}

/-- What is looked through for the deepest: the enclosing folders in normal form. -/
theorem mem_enclosing_iff :
    root ∈ (ofFolders folders).roots.filter document.normalize.isUnder ↔
      ∃ folder ∈ folders, folder.normalize = root ∧ folder.Encloses document := by
  simp only [ofFolders, List.mem_filter, List.mem_map, Path.isUnder, List.isPrefixOf_iff_prefix]
  constructor
  · intro h
    obtain ⟨⟨folder, hm, rfl⟩, hencloses⟩ := h
    exact ⟨folder, hm, rfl, hencloses⟩
  · intro h
    obtain ⟨folder, hm, rfl, hencloses⟩ := h
    exact ⟨⟨folder, hm, rfl⟩, hencloses⟩

theorem rootOf?_eq_none_iff :
    (ofFolders folders).rootOf? document = none ↔
      ∀ folder ∈ folders, ¬ folder.Encloses document := by
  rw [rootOf?, foldl_deeper_eq_none_iff, List.eq_nil_iff_forall_not_mem]
  constructor
  · intro h folder hm hencloses
    exact h _ (mem_enclosing_iff.mpr ⟨folder, hm, rfl, hencloses⟩)
  · intro h root hm
    obtain ⟨folder, hf, -, hencloses⟩ := mem_enclosing_iff.mp hm
    exact h folder hf hencloses

theorem exists_of_rootOf? (h : (ofFolders folders).rootOf? document = some root) :
    ∃ folder ∈ folders, folder.normalize = root ∧ folder.Encloses document ∧
      ∀ f ∈ folders, f.Encloses document → f.Encloses folder := by
  cases mem_of_foldl_deeper h with
  | inl hbest => contradiction
  | inr hm =>
      obtain ⟨folder, hf, rfl, hencloses⟩ := mem_enclosing_iff.mp hm
      refine ⟨folder, hf, rfl, hencloses, ?_⟩
      intro f hm hf
      have hlength := length_le_of_foldl_deeper h (.inr (mem_enclosing_iff.mpr ⟨f, hm, rfl, hf⟩))
      -- Both begin the components of the document.
      exact List.prefix_of_prefix_length_le hf hencloses hlength

/-- There is only one such folder: two that enclose each other have the same normal form. -/
theorem rootOf?_eq_some_iff :
    (ofFolders folders).rootOf? document = some root ↔
      ∃ folder ∈ folders, folder.normalize = root ∧ folder.Encloses document ∧
        ∀ f ∈ folders, f.Encloses document → f.Encloses folder := by
  constructor
  · exact exists_of_rootOf?
  · intro ⟨folder, hm, hroot, hencloses, hinner⟩
    cases h : (ofFolders folders).rootOf? document with
    | none => exact absurd hencloses (rootOf?_eq_none_iff.mp h folder hm)
    | some found =>
        obtain ⟨other, hother, hfound, hencloses', hinner'⟩ := exists_of_rootOf? h
        have houter := hinner other hother hencloses'
        have hsame : other.normalize.components = folder.normalize.components :=
          houter.eq_of_length_le (hinner' folder hm hencloses).length_le
        rw [← hfound, ← hroot, Path.normalize_eq_of_components hsame]

/-- Only the folders that enclose the document matter. -/
theorem rootOf?_congr {others : List Path}
    (h : ∀ f : Path, f.Encloses document → (f ∈ others ↔ f ∈ folders)) :
    (ofFolders others).rootOf? document = (ofFolders folders).rootOf? document := by
  apply Option.ext
  intro root
  rw [rootOf?_eq_some_iff, rootOf?_eq_some_iff]
  constructor
  · intro ⟨folder, hm, hroot, hencloses, hinner⟩
    exact ⟨folder, (h folder hencloses).mp hm, hroot, hencloses,
      fun f hf he => hinner f ((h f he).mpr hf) he⟩
  · intro ⟨folder, hm, hroot, hencloses, hinner⟩
    exact ⟨folder, (h folder hencloses).mpr hm, hroot, hencloses,
      fun f hf he => hinner f ((h f he).mp hf) he⟩

end Enclosing

/-- The root of a document is the innermost folder that encloses it: the normal form of one of the
folders, which all other folders around the document enclose as well. Neither the order of the
folders nor how often one is listed counts, nor does a folder that does not enclose the document. -/
theorem innermost_folder_wins (folders : List Path) (document : Path) :
    let root? (folders : List Path) := (ofFolders folders).rootOf? document
    (root? folders = none ↔ ∀ f ∈ folders, ¬ f.Encloses document) ∧
      ((∃ f ∈ folders, f.Encloses document) → ∃ folder ∈ folders,
        root? folders = some folder.normalize ∧ folder.Encloses document ∧
          ∀ f ∈ folders, f.Encloses document → f.Encloses folder) ∧
      (∀ others, (∀ f, f ∈ others ↔ f ∈ folders) → root? others = root? folders) ∧
      ∀ folder before after, ¬ folder.Encloses document → before ++ after = folders →
        root? (before ++ folder :: after) = root? folders := by
  intro root?
  refine ⟨rootOf?_eq_none_iff, ?_, ?_, ?_⟩
  · intro ⟨f, hm, hencloses⟩
    cases h : root? folders with
    | none => exact absurd hencloses (rootOf?_eq_none_iff.mp h f hm)
    | some root =>
        obtain ⟨folder, hfolder, rfl, hinnermost⟩ := exists_of_rootOf? h
        exact ⟨folder, hfolder, rfl, hinnermost⟩
  · intro others hsame
    exact rootOf?_congr fun f _ => hsame f
  · intro folder before after houtside hfolders
    apply rootOf?_congr
    intro f hencloses
    have hne : f ≠ folder := fun hf => houtside (hf ▸ hencloses)
    simp [← hfolders, hne]

/-- Folders are compared by their components and not as texts. -/
example : (ofFolders [⟨"/ws/./ui/"⟩, ⟨"/ws"⟩, ⟨"/ws/u"⟩]).rootOf? ⟨"/ws/ui/a/../page.md"⟩ =
    some ⟨"/ws/ui"⟩ := by
  decide

end Workspaces
end Shorthand
