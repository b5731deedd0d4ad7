import Shorthand.Path.Normal
import Shorthand.Proofs.Path.Components

/-!
Normalization in the component view. It reads nothing but the components, and it never leaves
the root of an absolute path.
-/

namespace Shorthand
namespace Component

/-- No step takes the root away: `..` is absorbed there. -/
theorem settle_above_root (c : Component) (kept : List Component) :
    ∃ above, settle (kept ++ [.root]) c = above ++ [.root] := by
  cases c with
  | current => exact ⟨kept, rfl⟩
  | root => exact ⟨.root :: kept, rfl⟩
  | name n => exact ⟨.name n :: kept, rfl⟩
  | parent =>
      cases kept with
      | nil => exact ⟨[], rfl⟩
      | cons top kept =>
          cases top with
          | name n => exact ⟨kept, rfl⟩
          | root => exact ⟨.root :: kept, rfl⟩
          | current => exact ⟨.parent :: .current :: kept, rfl⟩
          | parent => exact ⟨.parent :: .parent :: kept, rfl⟩

theorem foldl_settle_above_root (cs kept : List Component) :
    ∃ above, cs.foldl settle (kept ++ [.root]) = above ++ [.root] := by
  induction cs generalizing kept with
  | nil => exact ⟨kept, rfl⟩
  | cons c cs ih =>
      obtain ⟨above, h⟩ := settle_above_root c kept
      rw [List.foldl_cons, h]
      exact ih above

/-- Where a path in normal form starts. -/
inductive Origin where
  | root
  /-- So many directories up. -/
  | above (steps : Nat)

def Origin.components : Origin → List Component
  | root => [.root]
  | above steps => List.replicate steps .parent

/-- The components of a path in normal form, listed latest first: names, and before them the
origin. -/
def settled (names : List Text) (o : Origin) : List Component :=
  names.map .name ++ o.components

theorem isSegment_of_mem_settled {names : List Text} (h : ∀ n ∈ names, (name n).IsSegment)
    (steps : Nat) : ∀ c ∈ (settled names (.above steps)).reverse, c.IsSegment := by
  intro c hc
  rcases List.mem_append.mp (List.mem_reverse.mp hc) with hc | hc
  · obtain ⟨n, hn, rfl⟩ := List.mem_map.mp hc
    exact h n hn
  · rw [List.eq_of_mem_replicate hc]
    exact isSegment_parent

theorem settle_settled {c : Component} (hc : c.IsSegment) {names : List Text}
    (h : ∀ n ∈ names, (name n).IsSegment) (o : Origin) :
    ∃ names' o', (∀ n ∈ names', (name n).IsSegment) ∧
      settle (settled names o) c = settled names' o' := by
  cases c with
  | root => exact absurd hc.1 (by decide)
  | current => exact ⟨names, o, h, rfl⟩
  | name n => exact ⟨n :: names, o, List.forall_mem_cons.mpr ⟨hc, h⟩, rfl⟩
  | parent =>
      cases names with
      | cons n names => exact ⟨names, o, fun m hm => h m (List.mem_cons_of_mem _ hm), rfl⟩
      | nil =>
          cases o with
          | root => exact ⟨[], .root, nofun, rfl⟩
          | above steps =>
              refine ⟨[], .above (steps + 1), nofun, ?_⟩
              cases steps <;> rfl

theorem foldl_settle_settled {cs : List Component} (hcs : ∀ c ∈ cs, c.IsSegment) (names : List Text)
    (h : ∀ n ∈ names, (name n).IsSegment) (o : Origin) :
    ∃ names' o', (∀ n ∈ names', (name n).IsSegment) ∧
      cs.foldl settle (settled names o) = settled names' o' := by
  induction cs generalizing names o with
  | nil => exact ⟨names, o, h, rfl⟩
  | cons c cs ih =>
      obtain ⟨hc, hcs⟩ := List.forall_mem_cons.mp hcs
      obtain ⟨names', o', h', hsettled⟩ := settle_settled hc h o
      rw [List.foldl_cons, hsettled]
      exact ih hcs names' h' o'

end Component

namespace Path

theorem normalize_congr {p q : Path} (h : p.components = q.components) :
    p.normalize = q.normalize := by
  rw [normalize, normalize, h]

theorem normalize_isAbsolute {p : Path} (h : p.isAbsolute) : p.normalize.isAbsolute := by
  obtain ⟨s, rfl⟩ := exists_of_isAbsolute h
  obtain ⟨above, ha⟩ := Component.foldl_settle_above_root (Component.read s) []
  have hn : normalize ⟨'/' :: s⟩ = ofComponents (above ++ [Component.root]).reverse :=
    congrArg (fun kept => ofComponents (List.reverse kept)) ha
  rw [hn, List.reverse_append]
  rfl

theorem joinTarget_isAbsolute {base : Path} (h : base.isAbsolute) (target : Text) :
    (base.joinTarget target).isAbsolute :=
  normalize_isAbsolute (join_isAbsolute h _)

/-- What normalization keeps of a path, listed latest first. -/
theorem exists_settled (p : Path) : ∃ names o, (∀ n ∈ names, (Component.name n).IsSegment) ∧
    p.components.foldl Component.settle [] = Component.settled names o := by
  obtain ⟨cs, hcs, hp | hp | hp⟩ := p.components_cases
  · rw [hp]
    exact Component.foldl_settle_settled hcs [] nofun .root
  · rw [hp]
    exact Component.foldl_settle_settled hcs [] nofun (.above 0)
  · rw [hp]
    exact Component.foldl_settle_settled hcs [] nofun (.above 0)

theorem components_ofComponents_settled {names : List Text}
    (h : ∀ n ∈ names, (Component.name n).IsSegment) (o : Component.Origin) :
    (ofComponents (Component.settled names o).reverse).components =
      (Component.settled names o).reverse := by
  cases o with
  | root =>
      rw [Component.settled, List.reverse_append]
      exact components_ofComponents_root (by simpa using h)
  | above steps => exact components_ofComponents (Component.isSegment_of_mem_settled h steps)

/-- A path that has been normalized has the components that were kept. -/
theorem components_normalize (p : Path) :
    p.normalize.components = (p.components.foldl Component.settle []).reverse := by
  obtain ⟨names, o, h, hsettled⟩ := p.exists_settled
  rw [normalize, hsettled, components_ofComponents_settled h]

theorem normalize_eq_of_components {p q : Path}
    (h : p.normalize.components = q.normalize.components) : p.normalize = q.normalize := by
  rw [components_normalize, components_normalize] at h
  rw [normalize, normalize, h]

/-- Joining and normalizing goes on from the components of the base. -/
theorem normalize_join (base : Path) {s : Text} (hs : s.head? ≠ some '/') :
    (base.join s).normalize =
      ofComponents ((base.components ++ Component.read s).foldl Component.settle []).reverse := by
  obtain ⟨text⟩ := base
  cases text with
  | cons c text => rw [normalize, components_join (List.cons_ne_nil _ _) hs]
  | nil =>
      -- A `.` that opens the joined text is dropped as well as one further on.
      have hjoin : join ⟨[]⟩ s = ⟨s⟩ := by
        rw [join, if_neg hs, if_pos (.inl rfl), List.nil_append]
      have hnone : components ⟨[]⟩ = [] := rfl
      rw [hjoin, hnone, List.nil_append, normalize]
      cases components_relative_cases hs with
      | inl hread => rw [hread]
      | inr hdot =>
          rw [hdot]
          rfl

theorem joinTarget_eq (base : Path) (target : Text) :
    base.joinTarget target = ofComponents
      ((base.components ++ Component.read target).foldl Component.settle []).reverse := by
  rw [joinTarget, normalize_join base (Component.head?_dropWhile_slash target),
    Component.read_dropWhile]

theorem joinTarget_congr {a b : Text} (h : Component.read a = Component.read b) (base : Path) :
    base.joinTarget a = base.joinTarget b := by
  rw [joinTarget_eq, joinTarget_eq, h]

/-- A name joined onto a path in normal form is its last component. -/
theorem ofComponents_settled_join {names : List Text}
    (h : ∀ n ∈ names, (Component.name n).IsSegment)
    (o : Component.Origin) {n : Text} (hn : (Component.name n).IsSegment) :
    (ofComponents (Component.settled names o).reverse).join n =
      ofComponents (Component.settled (n :: names) o).reverse := by
  have hnames : ∀ m ∈ n :: names, (Component.name m).IsSegment := List.forall_mem_cons.mpr ⟨hn, h⟩
  have hcons : (Component.settled (n :: names) o).reverse =
      (Component.settled names o).reverse ++ [.name n] := List.reverse_cons
  cases o with
  | root =>
      rw [hcons, Component.settled, List.reverse_append]
      exact join_joinWith (.inr rfl) (by simpa using h) hn
  | above steps =>
      rw [ofComponents_segments (Component.isSegment_of_mem_settled h steps),
        ofComponents_segments (Component.isSegment_of_mem_settled hnames steps), hcons]
      exact join_joinWith (.inl rfl) (Component.isSegment_of_mem_settled h steps) hn

theorem exists_settled_append (base : Path) (target : Text) :
    ∃ names o, (∀ n ∈ names, (Component.name n).IsSegment) ∧
      (base.components ++ Component.read target).foldl Component.settle [] =
        Component.settled names o := by
  obtain ⟨names, o, hnames, hbase⟩ := base.exists_settled
  rw [List.foldl_append, hbase]
  exact Component.foldl_settle_settled (fun c hc => Component.isSegment_of_mem_read hc)
    names hnames o

/-- A name after a target that ends in a separator may as well be joined on afterwards. -/
theorem joinTarget_append_name (base : Path) {target n : Text} (hlast : target.getLast? = some '/')
    (hn : (Component.name n).IsSegment) :
    base.joinTarget (target ++ n) = (base.joinTarget target).join n := by
  obtain ⟨init, rfl⟩ := List.getLast?_eq_some_iff.mp hlast
  have hread : Component.read (init ++ ['/'] ++ n) =
      Component.read (init ++ ['/']) ++ [.name n] := by
    rw [List.append_assoc, List.singleton_append, Component.read_append_slash,
      Component.read_append_slash, Component.read_nil, List.append_nil, Component.read_name hn]
  obtain ⟨names, o, hnames, hsettled⟩ := base.exists_settled_append (init ++ ['/'])
  rw [joinTarget_eq, joinTarget_eq, hread, ← List.append_assoc, List.foldl_append, hsettled,
    ofComponents_settled_join hnames o hn]
  rfl

end Path
end Shorthand
