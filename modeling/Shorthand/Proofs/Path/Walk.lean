import Shorthand.Proofs.Path.Normal

/-!
Paths as walks through directories. Two paths have one normal form if they lead to the same place
from everywhere, and only then.
-/

namespace Shorthand

/-- A name that is longer than some names together is none of them. -/
theorem exists_isPlainName_not_mem (names : List Text) : ∃ n, IsPlainName n ∧ n ∉ names := by
  refine ⟨List.replicate (names.flatten.length + 1) 'x', ⟨?_, ?_, ?_, ?_⟩, fun hmem => ?_⟩
  · simp
  · simp
  · simp [List.replicate_succ]
  · simp [List.replicate_succ]
  · have hlength := (List.sublist_flatten_of_mem hmem).length_le
    rw [List.length_replicate] at hlength
    omega

/-- What stands before the copies of a text that does not occur in it is determined. -/
theorem eq_of_append_replicate {n : Text} {a b : List Text} {j k : Nat} (ha : n ∉ a) (hb : n ∉ b)
    (h : a ++ List.replicate j n = b ++ List.replicate k n) : a = b ∧ j = k := by
  have hcut {l : List Text} (hl : n ∉ l) (k : Nat) :
      (l ++ List.replicate k n).takeWhile (· ≠ n) = l := by
    rw [List.takeWhile_append_of_pos fun m hm => by simpa using fun hmn : m = n => hl (hmn ▸ hm)]
    cases k <;> simp [List.replicate_succ]
  have hab : a = b := by rw [← hcut ha j, h, hcut hb k]
  subst hab
  exact ⟨rfl, by simpa using congrArg List.length h⟩

namespace Component

/-- One step of a walk, from a directory given by the names on the way up from it. -/
def walk (stack : List Text) : Component → List Text
  | .root => []
  | .current => stack
  | .parent => stack.tail
  | .name n => n :: stack

/-- Settling a component is taking its step. -/
theorem foldl_walk_settle (kept : List Component) (c : Component) (stack : List Text) :
    (settle kept c).reverse.foldl walk stack = walk (kept.reverse.foldl walk stack) c := by
  have hpush (c : Component) : (c :: kept).reverse.foldl walk stack =
      walk (kept.reverse.foldl walk stack) c := by simp
  cases c with
  | current => rfl
  | root | name => exact hpush _
  | parent =>
      cases kept with
      | nil => exact hpush .parent
      | cons top kept => cases top <;> simp [settle, walk]

theorem foldl_walk_foldl_settle (cs kept : List Component) (stack : List Text) :
    (cs.foldl settle kept).reverse.foldl walk stack =
      cs.foldl walk (kept.reverse.foldl walk stack) := by
  induction cs generalizing kept with
  | nil => rfl
  | cons c cs ih => rw [List.foldl_cons, ih, foldl_walk_settle, List.foldl_cons]

/-- Where the origin of a path is, seen from a directory. -/
def Origin.reach : Origin → List Text → List Text
  | root, _ => []
  | above steps, stack => stack.drop steps

theorem Origin.foldl_walk (o : Origin) (stack : List Text) :
    o.components.reverse.foldl walk stack = o.reach stack := by
  cases o with
  | root => rfl
  | above steps =>
      rw [components, List.reverse_replicate, reach]
      induction steps generalizing stack with
      | zero => rfl
      | succ steps ih => rw [List.replicate_succ, List.foldl_cons, ih, walk, List.drop_tail]

theorem foldl_walk_settled (names : List Text) (o : Origin) (stack : List Text) :
    (settled names o).reverse.foldl walk stack = names ++ o.reach stack := by
  rw [settled, List.reverse_append, List.foldl_append, o.foldl_walk]
  induction names with
  | nil => rfl
  | cons n names ih => rw [List.map_cons, List.reverse_cons, List.foldl_append, ih]; rfl

/-- How many of the directories above are still there at the origin. -/
def Origin.left : Origin → Nat → Nat
  | root, _ => 0
  | above steps, depth => depth - steps

theorem Origin.reach_replicate (o : Origin) (depth : Nat) (n : Text) :
    o.reach (List.replicate depth n) = List.replicate (o.left depth) n := by
  cases o with
  | root => rfl
  | above steps => exact List.drop_replicate

theorem Origin.eq_of_left {o o' : Origin} (h : ∀ depth, o.left depth = o'.left depth) : o = o' := by
  cases o with
  | root =>
      cases o' with
      | root => rfl
      | above steps =>
          have hleft := h (steps + 1)
          simp only [left] at hleft
          omega
  | above steps =>
      cases o' with
      | root =>
          have hleft := h (steps + 1)
          simp only [left] at hleft
          omega
      | above steps' =>
          have hleft := h (steps + steps' + 1)
          simp only [left] at hleft
          rw [show steps = steps' by omega]

/-- Directories of a name that occurs in neither of two normal forms tell them apart. -/
theorem settled_inj {names names' : List Text} {o o' : Origin} {n : Text} (hn : n ∉ names)
    (hn' : n ∉ names') (h : ∀ depth, names ++ o.reach (List.replicate depth n) =
      names' ++ o'.reach (List.replicate depth n)) : names = names' ∧ o = o' := by
  simp only [Origin.reach_replicate] at h
  have hsplit (depth : Nat) := eq_of_append_replicate hn hn' (h depth)
  exact ⟨(hsplit 0).1, Origin.eq_of_left fun depth => (hsplit depth).2⟩

end Component

namespace Path

/-- Goes through the segments of a path: an empty one and `.` stay, `..` goes up as far as there is
something above, and a name goes down. -/
def enter (stack : List Text) (segment : Text) : List Text :=
  if segment = [] ∨ segment = ['.'] then stack
  else if segment = ['.', '.'] then stack.tail
  else segment :: stack

/-- Where a path leads from a directory. Both are given by the names on the way up. -/
def walk (p : Path) (stack : List Text) : List Text :=
  (p.text.splitOn '/').foldl enter (if p.isAbsolute then [] else stack)

theorem foldl_enter (segments : List Text) (stack : List Text) :
    segments.foldl enter stack =
      (segments.filterMap Component.ofSegment?).foldl Component.walk stack := by
  induction segments generalizing stack with
  | nil => rfl
  | cons s segments ih =>
      rw [List.foldl_cons, ih, List.filterMap_cons, enter, Component.ofSegment?]
      split
      · rfl
      · split <;> rfl

theorem walk_eq (p : Path) (stack : List Text) :
    p.walk stack = p.components.foldl Component.walk stack := by
  by_cases h : p.isAbsolute
  · obtain ⟨s, rfl⟩ := exists_of_isAbsolute h
    rw [walk, if_pos h, foldl_enter]
    exact congrArg (List.foldl Component.walk []) (Component.read_append_slash [] s)
  · have hhead : p.text.head? ≠ some '/' := by simpa [isAbsolute] using h
    have hopening := opening_relative hhead
    rw [walk, if_neg h, foldl_enter]
    simp only [components, hopening]
    -- A `.` in front is a component of the path, but no step.
    split
    · rename_i hsplit
      rw [hsplit]
      rfl
    · rfl

/-- From everywhere, a path and its normal form lead to the same place. -/
theorem walk_normalize (p : Path) (stack : List Text) : p.normalize.walk stack = p.walk stack := by
  rw [walk_eq, walk_eq, components_normalize, Component.foldl_walk_foldl_settle]
  rfl

theorem normalize_eq_of_walk {p q : Path}
    (h : ∀ stack, (∀ n ∈ stack, IsPlainName n) → p.walk stack = q.walk stack) :
    p.normalize = q.normalize := by
  obtain ⟨names, o, -, hp⟩ := p.exists_settled
  obtain ⟨names', o', -, hq⟩ := q.exists_settled
  obtain ⟨n, hn, hfresh⟩ := exists_isPlainName_not_mem (names ++ names')
  obtain ⟨hnames, hnames'⟩ := not_or.mp (mt List.mem_append.mpr hfresh)
  have hwalk (depth : Nat) : names ++ o.reach (List.replicate depth n) =
      names' ++ o'.reach (List.replicate depth n) := by
    have hdepth := h (List.replicate depth n) fun m hm => List.eq_of_mem_replicate hm ▸ hn
    rw [← walk_normalize p, ← walk_normalize q, walk_eq, walk_eq, components_normalize,
      components_normalize, hp, hq] at hdepth
    simpa only [Component.foldl_walk_settled] using hdepth
  obtain ⟨rfl, rfl⟩ := Component.settled_inj hnames hnames' hwalk
  rw [normalize, normalize, hp, hq]

/-- The form of a normalized path: names below the root, or names after steps up. They are joined by
single separators. -/
def IsNormal (p : Path) : Prop :=
  ∃ names, (∀ n ∈ names, IsPlainName n) ∧ (p.text = '/' :: Text.joinWith ['/'] names ∨
    ∃ steps, p.text = Text.joinWith ['/'] (List.replicate steps ['.', '.'] ++ names))

theorem isNormal_normalize (p : Path) : p.normalize.IsNormal := by
  obtain ⟨names, o, hnames, hp⟩ := p.exists_settled
  refine ⟨names.reverse, fun n hn => ?_, ?_⟩
  · exact Component.isSegment_name_iff.mp (hnames n (List.mem_reverse.mp hn))
  · have htexts : (names.map Component.name).reverse.map Component.text = names.reverse := by
      rw [List.map_reverse, List.map_map]
      exact congrArg List.reverse (List.map_id names)
    rw [normalize, hp]
    cases o with
    | root =>
        rw [Component.settled, List.reverse_append]
        exact .inl (congrArg (fun texts => '/' :: Text.joinWith ['/'] texts) htexts)
    | above steps =>
        refine .inr ⟨steps, ?_⟩
        rw [ofComponents_segments (Component.isSegment_of_mem_settled hnames steps),
          Component.settled,
          List.reverse_append, List.map_append, htexts, Component.Origin.components,
          List.reverse_replicate, List.map_replicate]
        rfl

/-- Normal forms are sound and complete for walks: a path and its normal form lead to the same place
from every directory, and two paths that do so have one normal form. -/
theorem normalize_is_canonical (p q : Path) :
    (∀ stack, p.normalize.walk stack = p.walk stack) ∧
      (p.normalize = q.normalize ↔
        ∀ stack, (∀ n ∈ stack, IsPlainName n) → p.walk stack = q.walk stack) ∧
      p.normalize.normalize = p.normalize ∧ p.normalize.IsNormal := by
  refine ⟨p.walk_normalize, ⟨fun h stack _ => ?_, normalize_eq_of_walk⟩, ?_, p.isNormal_normalize⟩
  · rw [← p.walk_normalize, h, q.walk_normalize]
  · exact normalize_eq_of_walk fun stack _ => p.walk_normalize stack

end Path
end Shorthand
