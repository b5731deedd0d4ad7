import Mathlib.Data.List.Basic
import Mathlib.Data.List.TakeWhile
import Shorthand.Path.Relative

/-!
The component view of paths. Joining appends the components that the joined text spells, and
components written out are read back the same, so what a path names can be followed without
looking at its text.
-/

namespace Shorthand

/-- A name that an entry of a directory can have. -/
def IsPlainName (n : Text) : Prop :=
  n ≠ [] ∧ '/' ∉ n ∧ n ≠ ['.'] ∧ n ≠ ['.', '.']

instance (n : Text) : Decidable (IsPlainName n) :=
  inferInstanceAs (Decidable (n ≠ [] ∧ '/' ∉ n ∧ n ≠ ['.'] ∧ n ≠ ['.', '.']))

namespace Component

/-- The components that a text spells after the opening of a path. -/
def read (s : Text) : List Component :=
  (s.splitOn '/').filterMap ofSegment?

/-- Whether a single segment spells the component. The root and `.` have no such segment. -/
def IsSegment (c : Component) : Prop :=
  '/' ∉ c.text ∧ ofSegment? c.text = some c

@[simp] theorem read_nil : read [] = [] := by
  simp [read, ofSegment?]

theorem text_of_ofSegment? {s : Text} {c : Component} (h : ofSegment? s = some c) :
    c.text = s := by
  unfold ofSegment? at h
  split at h
  · contradiction
  · split at h
    · rename_i hs
      cases h
      exact hs.symm
    · cases h
      rfl

theorem not_mem_of_mem_splitOn (s : Text) : ∀ segment ∈ s.splitOn '/', '/' ∉ segment := by
  induction s with
  | nil => simp
  | cons x rest ih =>
      rw [List.splitOn_cons_eq_if_modifyHead]
      split
      · simpa using ih
      · rename_i hx
        cases hs : rest.splitOn '/' with
        | nil => exact absurd hs (List.splitOn_ne_nil _ _)
        | cons first more =>
            rw [hs] at ih
            have hne : '/' ≠ x := fun h => hx (by simp [← h])
            simpa [hne] using ih

theorem isSegment_of_mem_read {s : Text} {c : Component} (h : c ∈ read s) : c.IsSegment := by
  obtain ⟨segment, hs, hc⟩ := List.mem_filterMap.mp h
  have ht := text_of_ofSegment? hc
  exact ⟨ht ▸ not_mem_of_mem_splitOn s segment hs, ht ▸ hc⟩

theorem IsSegment.text_ne_nil {c : Component} (h : c.IsSegment) : c.text ≠ [] := by
  intro ht
  have hc := h.2
  simp [ht, ofSegment?] at hc

theorem read_joinWith {cs : List Component} (h : ∀ c ∈ cs, c.IsSegment) :
    read (Text.joinWith ['/'] (cs.map text)) = cs := by
  cases cs with
  | nil => simp [Text.joinWith, List.intercalate]
  | cons c cs =>
      have hs : ∀ segment ∈ (c :: cs).map text, '/' ∉ segment := by
        intro segment hm
        obtain ⟨d, hd, rfl⟩ := List.mem_map.mp hm
        exact (h d hd).1
      rw [read, Text.joinWith, List.splitOn_intercalate '/' hs (by simp), List.filterMap_map,
        List.filterMap_eq_map_iff_forall_eq_some (f := ofSegment? ∘ text) (g := id) |>.mpr]
      · simp
      · exact fun d hd => (h d hd).2

/-- A relative spelling never looks rooted. -/
theorem head?_joinWith {cs : List Component} (h : ∀ c ∈ cs, c.IsSegment) :
    (Text.joinWith ['/'] (cs.map text)).head? ≠ some '/' := by
  cases cs with
  | nil => simp [Text.joinWith, List.intercalate]
  | cons c cs =>
      obtain ⟨x, rest, hx⟩ := List.exists_cons_of_ne_nil (h c List.mem_cons_self).text_ne_nil
      have hne : x ≠ '/' := fun he =>
        (h c List.mem_cons_self).1 (by rw [hx, he]; exact List.mem_cons_self)
      cases cs <;> simpa [Text.joinWith, hx] using hne

theorem getLast?_joinWith {cs : List Component} (h : ∀ c ∈ cs, c.IsSegment) :
    (Text.joinWith ['/'] (cs.map text)).getLast? ≠ some '/' := by
  induction cs with
  | nil => simp [Text.joinWith, List.intercalate]
  | cons c cs ih =>
      have hc := h c List.mem_cons_self
      have htext : c.text.getLast? ≠ some '/' := fun hl => hc.1 (List.mem_of_getLast? hl)
      cases cs with
      | nil => simpa [Text.joinWith] using htext
      | cons d cs =>
          have hrest := ih fun e he => h e (List.mem_cons_of_mem _ he)
          have hne : Text.joinWith ['/'] ((d :: cs).map text) ≠ [] := by
            have hd := (h d (by simp)).text_ne_nil
            cases cs <;> simp [Text.joinWith, hd]
          have hcons : Text.joinWith ['/'] ((c :: d :: cs).map text) =
              (c.text ++ ['/']) ++ Text.joinWith ['/'] ((d :: cs).map text) := by
            simp [Text.joinWith]
          rwa [hcons, List.getLast?_append_of_ne_nil _ hne]

theorem joinWith_ne_nil {cs : List Component} (h : ∀ c ∈ cs, c.IsSegment) (hne : cs ≠ []) :
    Text.joinWith ['/'] (cs.map text) ≠ [] := by
  intro hnil
  have hread := read_joinWith h
  rw [hnil, read_nil] at hread
  exact hne hread.symm

theorem joinWith_concat {cs : List Component} (hne : cs ≠ []) (c : Component) :
    Text.joinWith ['/'] ((cs ++ [c]).map text) =
      Text.joinWith ['/'] (cs.map text) ++ '/' :: c.text := by
  induction cs with
  | nil => contradiction
  | cons d cs ih =>
      cases cs with
      | nil => simp [Text.joinWith]
      | cons e cs =>
          have hrest := ih (List.cons_ne_nil _ _)
          simp only [Text.joinWith, List.cons_append, List.map_cons, List.intercalate_cons_cons]
            at hrest ⊢
          rw [hrest]
          simp only [List.append_assoc]

theorem read_name {n : Text} (h : (name n).IsSegment) : read n = [.name n] := by
  have hname : ∀ c ∈ [name n], c.IsSegment := List.forall_mem_singleton.mpr h
  have hread := read_joinWith hname
  rwa [List.map_singleton, Text.joinWith, List.intercalate_singleton] at hread

theorem isSegment_parent : IsSegment .parent :=
  ⟨by decide, by decide⟩

theorem isSegment_name_iff {n : Text} :
    (name n).IsSegment ↔ IsPlainName n := by
  have hspelled : ofSegment? n = some (.name n) ↔ n ≠ [] ∧ n ≠ ['.'] ∧ n ≠ ['.', '.'] := by
    unfold ofSegment?
    split
    · rename_i h
      rcases h with rfl | rfl <;> simp
    · rename_i h
      obtain ⟨hnil, hdot⟩ := not_or.mp h
      split
      · rename_i hparent
        simp [hparent]
      · rename_i hparent
        simp [hnil, hdot, hparent]
  change '/' ∉ n ∧ ofSegment? n = some (.name n) ↔ _
  rw [hspelled, and_left_comm, IsPlainName]

theorem read_append_slash (a b : Text) : read (a ++ '/' :: b) = read a ++ read b := by
  rw [read, List.splitOn_append_cons_self, List.filterMap_append, ← read, ← read]

/-- Slashes in front of a text spell nothing. -/
theorem read_dropWhile (s : Text) : read (s.dropWhile (· == '/')) = read s := by
  induction s with
  | nil => rfl
  | cons c s ih =>
      by_cases hc : c = '/'
      · subst hc
        rw [List.dropWhile_cons_of_pos (by decide), ih]
        exact (read_append_slash [] s).symm
      · rw [List.dropWhile_cons_of_neg (by simpa using hc)]

theorem head?_dropWhile_slash (s : Text) : (s.dropWhile (· == '/')).head? ≠ some '/' := by
  intro h
  have hkept := List.head?_dropWhile_not (· == '/') s
  simp_all

end Component

namespace Path

theorem components_rooted (s : Text) : components ⟨'/' :: s⟩ = .root :: Component.read s := rfl

theorem exists_of_isAbsolute {p : Path} (h : p.isAbsolute) : ∃ s, p = ⟨'/' :: s⟩ := by
  obtain ⟨text⟩ := p
  cases text with
  | nil => simp [isAbsolute] at h
  | cons c s =>
      simp only [isAbsolute, List.head?_cons, Option.some.injEq, decide_eq_true_eq] at h
      exact ⟨s, by rw [h]⟩

/-- Only the opening of a path can be something that no segment spells. -/
theorem isSegment_of_mem_tail {p : Path} (h : p.isAbsolute) :
    ∀ c ∈ p.components.tail, c.IsSegment := by
  obtain ⟨s, rfl⟩ := exists_of_isAbsolute h
  exact fun c hc => Component.isSegment_of_mem_read hc

theorem opening_relative {p : Path} (h : p.text.head? ≠ some '/') :
    p.opening = match p.text.splitOn '/' with
      | ['.'] :: segments => (some .current, segments)
      | segments => (none, segments) := by
  obtain ⟨text⟩ := p
  unfold opening
  split
  · simp_all
  · rfl

/-- A path that goes on after a separator keeps its opening. -/
theorem opening_append_slash {p : Path} (h : p.text ≠ []) (s : Text) :
    opening ⟨p.text ++ '/' :: s⟩ = (p.opening.1, p.opening.2 ++ s.splitOn '/') := by
  obtain ⟨text⟩ := p
  by_cases hr : text.head? = some '/'
  · obtain ⟨rest, hp⟩ := exists_of_isAbsolute (p := ⟨text⟩) (by simpa [isAbsolute] using hr)
    cases hp
    simp only [opening, List.cons_append, List.splitOn_append_cons_self]
  · have hr' : (text ++ '/' :: s).head? ≠ some '/' := by
      rwa [List.head?_append_of_ne_nil _ h]
    rw [opening_relative hr', opening_relative hr, List.splitOn_append_cons_self]
    cases hs : text.splitOn '/' with
    | nil => exact absurd hs (List.splitOn_ne_nil _ _)
    | cons first more => by_cases hf : first = ['.'] <;> simp [hf]

theorem components_append_slash {p : Path} (h : p.text ≠ []) (s : Text) :
    components ⟨p.text ++ '/' :: s⟩ = p.components ++ Component.read s := by
  simp only [components, opening_append_slash h, List.filterMap_append, Component.read,
    List.append_assoc]

theorem components_join {base : Path} (h : base.text ≠ []) {s : Text}
    (hs : s.head? ≠ some '/') : (base.join s).components = base.components ++ Component.read s := by
  unfold join
  rw [if_neg hs]
  split
  · rename_i hl
    obtain ⟨init, hi⟩ := List.getLast?_eq_some_iff.mp (hl.resolve_left h)
    obtain ⟨text⟩ := base
    subst hi
    -- The separator that ends the base is the one before `s`.
    rw [List.append_assoc, List.singleton_append]
    cases init with
    | nil => simp [components_rooted]
    | cons c cs =>
        have hc : (⟨c :: cs⟩ : Path).text ≠ [] := List.cons_ne_nil _ _
        rw [components_append_slash hc s, components_append_slash hc [], Component.read_nil,
          List.append_nil]
  · exact components_append_slash h s

theorem join_isAbsolute {base : Path} (h : base.isAbsolute) (s : Text) :
    (base.join s).isAbsolute := by
  obtain ⟨rest, rfl⟩ := exists_of_isAbsolute h
  unfold join
  split
  · simpa [isAbsolute]
  · split <;> simp [isAbsolute]

/-- The directory of an absolute path is absolute, unless the path is the root, which has none. -/
theorem directory_isAbsolute {p : Path} (h : p.isAbsolute) (hr : p.components ≠ [.root]) :
    p.directory.isAbsolute := by
  obtain ⟨s, rfl⟩ := exists_of_isAbsolute h
  have hkept : trimSegments (s.splitOn '/') ≠ [] := by
    intro ht
    rw [trimSegments, List.reverse_eq_nil_iff, List.dropWhile_eq_nil_iff] at ht
    apply hr
    rw [components_rooted, Component.read, List.filterMap_eq_nil_iff.mpr]
    intro segment hs
    exact Option.isNone_iff_eq_none.mp (ht segment (List.mem_reverse.mpr hs))
  obtain ⟨segment, more, hm⟩ := List.exists_cons_of_ne_nil hkept
  simp only [directory, opening, hm]
  rfl

theorem isSome_relativeTo? (p anchor : Path) :
    (p.relativeTo? anchor).isSome = p.isUnder anchor := by
  rw [relativeTo?, Option.isSome_map, List.isSome_isPrefixOf?_eq_isPrefixOf, isUnder]

theorem relativeTo?_eq_some_iff {p anchor : Path} {s : Text} :
    p.relativeTo? anchor = some s ↔ ∃ rest, p.components = anchor.components ++ rest ∧
      s = Text.joinWith ['/'] (rest.map Component.text) := by
  simp only [relativeTo?, Option.map_eq_some_iff, List.isPrefixOf?_eq_some_iff_append_eq]
  exact ⟨fun ⟨rest, h, hs⟩ => ⟨rest, h.symm, hs.symm⟩, fun ⟨rest, h, hs⟩ => ⟨rest, h.symm, hs.symm⟩⟩

/-- A path seen from an absolute anchor leads back to its components. -/
theorem join_relativeTo? {p anchor : Path} {s : Text} (hp : p.isAbsolute)
    (ha : anchor.isAbsolute) (h : p.relativeTo? anchor = some s) :
    s.head? ≠ some '/' ∧ (anchor.join s).components = p.components := by
  obtain ⟨rest, hc, rfl⟩ := relativeTo?_eq_some_iff.mp h
  obtain ⟨text, rfl⟩ := exists_of_isAbsolute ha
  have hrest : ∀ c ∈ rest, c.IsSegment := by
    intro c hm
    apply isSegment_of_mem_tail hp
    rw [hc, components_rooted]
    exact List.mem_append_right _ hm
  have hhead := Component.head?_joinWith hrest
  refine ⟨hhead, ?_⟩
  rw [components_join (List.cons_ne_nil _ _) hhead, Component.read_joinWith hrest, hc]

/-- So does the text that stands for a path where it may not lie under the anchor. -/
theorem components_join_relativeTo?_getD {p anchor : Path} (hp : p.isAbsolute)
    (ha : anchor.isAbsolute) :
    (anchor.join ((p.relativeTo? anchor).getD p.text)).components = p.components := by
  cases h : p.relativeTo? anchor with
  | some s => exact (join_relativeTo? hp ha h).2
  | none =>
      obtain ⟨s, rfl⟩ := exists_of_isAbsolute hp
      rfl

/-- Only the root or a `.` can open a path without being spelled by a segment. -/
theorem components_cases (p : Path) : ∃ cs, (∀ c ∈ cs, c.IsSegment) ∧
    (p.components = .root :: cs ∨ p.components = .current :: cs ∨ p.components = cs) := by
  obtain ⟨text⟩ := p
  have hsegments (segments : List Text) (h : ∀ s ∈ segments, s ∈ text.splitOn '/') :
      ∀ c ∈ segments.filterMap Component.ofSegment?, c.IsSegment := by
    intro c hc
    obtain ⟨s, hs, hc⟩ := List.mem_filterMap.mp hc
    exact Component.isSegment_of_mem_read (List.mem_filterMap.mpr ⟨s, h s hs, hc⟩)
  by_cases hr : text.head? = some '/'
  · obtain ⟨s, hp⟩ := exists_of_isAbsolute (p := ⟨text⟩) (by simpa [isAbsolute] using hr)
    rw [hp]
    exact ⟨Component.read s, fun c hc => Component.isSegment_of_mem_read hc, .inl rfl⟩
  · have hopening := opening_relative (p := ⟨text⟩) hr
    simp only at hopening
    split at hopening
    · rename_i segments hsplit
      refine ⟨_, hsegments segments fun s hs => ?_, .inr (.inl ?_)⟩
      · rw [hsplit]
        exact List.mem_cons_of_mem _ hs
      · rw [components, hopening]
        rfl
    · refine ⟨_, hsegments _ fun s hs => hs, .inr (.inr ?_)⟩
      rw [components, hopening]
      rfl

theorem components_ofComponents_root {cs : List Component} (h : ∀ c ∈ cs, c.IsSegment) :
    (ofComponents (.root :: cs)).components = .root :: cs := by
  rw [ofComponents, components_rooted, Component.read_joinWith h]

/-- A path that neither the root nor a `.` opens has the components that its text spells. -/
theorem components_relative {s : Text} (h : s.head? ≠ some '/')
    (hdot : (s.splitOn '/').head? ≠ some ['.']) : components ⟨s⟩ = Component.read s := by
  have hopening := opening_relative (p := ⟨s⟩) h
  simp only at hopening
  split at hopening
  · rename_i hsplit
    rw [hsplit] at hdot
    contradiction
  · rw [components, hopening]
    rfl

/-- A `.` that opens a relative text is a component of the path, but not one that a segment spells.
-/
theorem components_relative_cases {s : Text} (h : s.head? ≠ some '/') :
    components ⟨s⟩ = Component.read s ∨ components ⟨s⟩ = .current :: Component.read s := by
  by_cases hdot : (s.splitOn '/').head? = some ['.']
  · obtain ⟨segments, hsplit⟩ := List.head?_eq_some_iff.mp hdot
    have hopening := opening_relative (p := ⟨s⟩) h
    simp only [hsplit] at hopening
    rw [components, hopening, Component.read, hsplit]
    exact .inr rfl
  · exact .inl (components_relative h hdot)

theorem ofComponents_segments {cs : List Component} (h : ∀ c ∈ cs, c.IsSegment) :
    ofComponents cs = ⟨Text.joinWith ['/'] (cs.map Component.text)⟩ := by
  cases cs with
  | nil => rfl
  | cons c cs =>
      cases c with
      | root => exact absurd (h .root List.mem_cons_self).1 (by decide)
      | current | parent | name => rfl

theorem components_ofComponents {cs : List Component} (h : ∀ c ∈ cs, c.IsSegment) :
    (ofComponents cs).components = cs := by
  cases cs with
  | nil => rfl
  | cons c cs =>
      have htexts : ∀ s ∈ (c :: cs).map Component.text, '/' ∉ s :=
        List.forall_mem_map.mpr fun d hd => (h d hd).1
      have hsplit := List.splitOn_intercalate '/' htexts (List.cons_ne_nil _ _)
      rw [ofComponents_segments h, components_relative (Component.head?_joinWith h),
        Component.read_joinWith h]
      rw [Text.joinWith, hsplit]
      intro hdot
      have hspelled := (h c List.mem_cons_self).2
      rw [Option.some.inj hdot] at hspelled
      cases hspelled

/-- A name joined onto components that are written out is one more of them. -/
theorem join_joinWith {pre : Text} (hpre : pre = [] ∨ pre = ['/']) {cs : List Component}
    (hcs : ∀ c ∈ cs, c.IsSegment) {c : Component} (hc : c.IsSegment) :
    join ⟨pre ++ Text.joinWith ['/'] (cs.map Component.text)⟩ c.text =
      ⟨pre ++ Text.joinWith ['/'] ((cs ++ [c]).map Component.text)⟩ := by
  have hhead : c.text.head? ≠ some '/' := fun h => hc.1 (List.mem_of_head? h)
  rw [join, if_neg hhead]
  by_cases hne : cs = []
  · subst hne
    rcases hpre with rfl | rfl <;> simp [Text.joinWith]
  · have htext := Component.joinWith_ne_nil hcs hne
    have hlast := Component.getLast?_joinWith hcs
    rw [if_neg, Component.joinWith_concat hne, List.append_assoc]
    simp [htext, List.getLast?_append_of_ne_nil _ htext, hlast]

end Path
end Shorthand
