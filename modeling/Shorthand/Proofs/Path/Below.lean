import Mathlib.Data.List.Infix
import Shorthand.Proofs.Path.Normal

/-!
Paths below an anchor. A target that takes back no more names than it has brought is joined onto the
anchor without touching it, so that the joined path seen from the anchor is the target's own normal
form.
-/

namespace Shorthand
namespace Component

def isName : Component → Bool
  | .name _ => true
  | .root | .current | .parent => false

/-- Steps up that take back only names from among those on top leave what is below as it is. -/
theorem foldl_settle_below {cs : List Component} (hcs : ∀ c ∈ cs, c.IsSegment) (names : List Text)
    (h : ∀ initial, initial <+: cs →
      initial.count .parent ≤ initial.countP isName + names.length) :
    ∃ names' : List Text, ∀ kept : List Component,
      cs.foldl settle (names.map .name ++ kept) = names'.map .name ++ kept := by
  induction cs generalizing names with
  | nil => exact ⟨names, fun _ => rfl⟩
  | cons c cs ih =>
      obtain ⟨hc, hrest⟩ := List.forall_mem_cons.mp hcs
      have hlonger (initial : List Component) (hinitial : initial <+: cs) :=
        h (c :: initial) (List.prefix_cons_inj c |>.mpr hinitial)
      cases c with
      | root => exact absurd hc.1 (by decide)
      | current => exact absurd hc.2 (by decide)
      | name n =>
          refine ih hrest (n :: names) fun initial hinitial => ?_
          have hcount : initial.count .parent ≤ initial.countP isName + 1 + names.length := by
            simpa [List.countP_cons, isName] using hlonger initial hinitial
          rw [List.length_cons]
          omega
      | parent =>
          -- There is a name to take back, since the first component alone does not climb.
          cases names with
          | nil => simpa [isName] using hlonger [] List.nil_prefix
          | cons n names =>
              refine ih hrest names fun initial hinitial => ?_
              have hcount : initial.count .parent + 1 ≤
                  initial.countP isName + (names.length + 1) := by
                simpa [isName] using hlonger initial hinitial
              omega

end Component

namespace Path

/-- Whether no initial part of the path has more steps up than names. -/
def NeverClimbs (p : Path) : Prop :=
  ∀ initial ∈ p.components.inits, initial.count .parent ≤ initial.countP Component.isName

instance (p : Path) : Decidable p.NeverClimbs :=
  inferInstanceAs (Decidable (∀ initial ∈ p.components.inits,
    initial.count .parent ≤ initial.countP Component.isName))

/-- A `.` in front counts neither as a step up nor as a name. -/
theorem NeverClimbs.read {s : Text} (hs : s.head? ≠ some '/') (h : NeverClimbs ⟨s⟩)
    {initial : List Component} (hinitial : initial <+: Component.read s) :
    initial.count .parent ≤ initial.countP Component.isName := by
  cases components_relative_cases hs with
  | inl hread =>
      rw [NeverClimbs, hread] at h
      exact h initial (List.mem_inits _ _ |>.mpr hinitial)
  | inr hdot =>
      rw [NeverClimbs, hdot] at h
      have hlonger : Component.current :: initial <+: .current :: Component.read s :=
        List.prefix_cons_inj _ |>.mpr hinitial
      simpa [Component.isName] using h _ (List.mem_inits _ _ |>.mpr hlonger)

theorem components_joinTarget (base : Path) (target : Text) :
    (base.joinTarget target).components =
      ((base.components ++ Component.read target).foldl Component.settle []).reverse := by
  obtain ⟨names, o, hnames, hsettled⟩ := base.exists_settled_append target
  rw [joinTarget_eq, hsettled, components_ofComponents_settled hnames]

/-- Nothing of a path in normal form is settled away. -/
theorem foldl_settle_components {p : Path} (h : p.normalize = p) :
    p.components.foldl Component.settle [] = p.components.reverse := by
  have hcomponents := p.components_normalize
  rw [h] at hcomponents
  rw [hcomponents, List.reverse_reverse, ← hcomponents]

theorem ofComponents_names (names : List Text) : ofComponents (names.map .name) =
    ⟨Text.joinWith ['/'] ((names.map Component.name).map Component.text)⟩ := by
  cases names <;> rfl

/-- Below an anchor in normal form, a target that never climbs is what it is on its own. -/
theorem relativeTo?_joinTarget {anchor : Path} (ha : anchor.normalize = anchor) {target : Text}
    (h : NeverClimbs ⟨target.dropWhile (· == '/')⟩) :
    (anchor.joinTarget target).relativeTo? anchor =
      some (normalize ⟨target.dropWhile (· == '/')⟩).text := by
  have hhead := Component.head?_dropWhile_slash target
  obtain ⟨names, hnames⟩ := Component.foldl_settle_below
    (fun c hc => Component.isSegment_of_mem_read hc) [] fun initial hinitial =>
      h.read hhead hinitial
  rw [Component.read_dropWhile] at hnames
  have hbelow : (anchor.joinTarget target).components =
      anchor.components ++ names.reverse.map .name := by
    rw [components_joinTarget, List.foldl_append, foldl_settle_components ha]
    simpa using congrArg List.reverse (hnames anchor.components.reverse)
  have hown : normalize ⟨target.dropWhile (· == '/')⟩ = ofComponents (names.reverse.map .name) := by
    have hjoin : join ⟨[]⟩ (target.dropWhile (· == '/')) = ⟨target.dropWhile (· == '/')⟩ := by
      rw [join, if_neg hhead, if_pos (.inl rfl), List.nil_append]
    have hnone : components ⟨[]⟩ = [] := rfl
    rw [← hjoin, normalize_join ⟨[]⟩ hhead, hnone, List.nil_append, Component.read_dropWhile]
    simpa using congrArg (fun kept => ofComponents kept.reverse) (hnames [])
  rw [relativeTo?_eq_some_iff]
  exact ⟨_, hbelow, by rw [hown, ofComponents_names]⟩

theorem relativeTo?_eq_none_iff {p anchor : Path} :
    p.relativeTo? anchor = none ↔ ¬ anchor.components <+: p.components := by
  rw [← Option.not_isSome_iff_eq_none, isSome_relativeTo?, isUnder, List.isPrefixOf_iff_prefix]

/-- A path in normal form is found again from where it is seen. -/
theorem joinTarget_relativeTo? {p anchor : Path} (hp : p.isAbsolute) (hnormal : p.normalize = p)
    (ha : anchor.isAbsolute) {s : Text} (h : p.relativeTo? anchor = some s) :
    s.head? ≠ some '/' ∧ anchor.joinTarget s = p := by
  obtain ⟨hhead, hcomponents⟩ := join_relativeTo? hp ha h
  have hkept : s.dropWhile (· == '/') = s := by
    cases s with
    | nil => rfl
    | cons c s => exact List.dropWhile_cons_of_neg (by simpa using hhead)
  refine ⟨hhead, ?_⟩
  rw [joinTarget, hkept, normalize_congr hcomponents, hnormal]

/-- Joining and looking from an anchor undo each other: what an anchor sees of a path leads back to
the path, and a target that never climbs is seen from the anchor as its own normal form. -/
theorem join_and_relative_are_inverse {anchor : Path} (ha : anchor.isAbsolute)
    (hnormal : anchor.normalize = anchor) :
    (∀ p : Path, p.isAbsolute → p.normalize = p →
      (p.relativeTo? anchor = none ↔ ¬ anchor.components <+: p.components) ∧
      ∀ s, p.relativeTo? anchor = some s → s.head? ≠ some '/' ∧ anchor.joinTarget s = p) ∧
    ∀ target : Text, NeverClimbs ⟨target.dropWhile (· == '/')⟩ →
      (anchor.joinTarget target).relativeTo? anchor =
        some (normalize ⟨target.dropWhile (· == '/')⟩).text ∧
      (anchor.joinTarget target).isUnder anchor := by
  constructor
  · intro p hp hpnormal
    exact ⟨relativeTo?_eq_none_iff, fun s hs => joinTarget_relativeTo? hp hpnormal ha hs⟩
  · intro target htarget
    have hbelow := relativeTo?_joinTarget hnormal htarget
    refine ⟨hbelow, ?_⟩
    rw [← isSome_relativeTo?, hbelow]
    rfl

theorem join_and_relative_are_inverse_docs :
    let anchor : Path := ⟨"/ws/docs"⟩
    anchor.joinTarget "sub/a.md" = ⟨"/ws/docs/sub/a.md"⟩ ∧
      relativeTo? ⟨"/ws/docs2"⟩ anchor = none ∧
      (anchor.joinTarget "//./sub/../x/").relativeTo? anchor = some "x" := by
  intro anchor
  have habsolute : anchor.isAbsolute := by decide
  have hnormal : anchor.normalize = anchor := by decide
  obtain ⟨hback, hbelow⟩ := join_and_relative_are_inverse habsolute hnormal
  obtain ⟨-, hsub⟩ := hback ⟨"/ws/docs/sub/a.md"⟩ (by decide) (by decide)
  obtain ⟨hoff, -⟩ := hback ⟨"/ws/docs2"⟩ (by decide) (by decide)
  refine ⟨(hsub "sub/a.md" (by decide)).2, hoff.mpr (by decide), ?_⟩
  rw [(hbelow "//./sub/../x/" (by decide)).1]
  decide

end Path
end Shorthand
