import Mathlib.Data.List.Induction
import Mathlib.Data.List.Infix
import Shorthand.Proofs.FileTree.Order
import Shorthand.Proofs.Project

/-!
Trees as a file system holds them, where each entry stands in a directory. In such a tree the path
of an entry leads to that entry, whatever directories are on the way.
-/

namespace Shorthand
namespace FileTree

variable {t : FileTree} {root : Path} {route here r : Route} {segments : List Text} {last : Text}
  {entry : Entry}

/-- A name that a directory can give to an entry. -/
structure IsEntryName (name : Text) : Prop where
  no_slash : '/' ∉ name
  ofSegment : Component.ofSegment? name = some (.name name)
  short : name.byteLength ≤ nameLimit

instance (name : Text) : Decidable (IsEntryName name) :=
  decidable_of_iff
    ('/' ∉ name ∧ Component.ofSegment? name = some (.name name) ∧ name.byteLength ≤ nameLimit)
    ⟨fun ⟨h, h', h''⟩ => ⟨h, h', h''⟩, fun ⟨h, h', h''⟩ => ⟨h, h', h''⟩⟩

/-- Each entry stands in a directory, under a name that a directory can give. -/
structure IsClosed (t : FileTree) : Prop where
  inDirectory : ∀ r ∈ t.routes, t.get? r.dropLast = some .directory
  isEntryName : ∀ r ∈ t.routes, ∀ name ∈ r, IsEntryName name

instance (t : FileTree) : Decidable t.IsClosed :=
  decidable_of_iff ((∀ r ∈ t.routes, t.get? r.dropLast = some .directory) ∧
    ∀ r ∈ t.routes, ∀ name ∈ r, IsEntryName name) ⟨fun ⟨h, h'⟩ => ⟨h, h'⟩, fun ⟨h, h'⟩ => ⟨h, h'⟩⟩

theorem IsClosed.names (h : t.IsClosed) (hget : t.get? route = some entry) :
    ∀ name ∈ route, IsEntryName name := by
  cases route with
  | nil => nofun
  | cons first more => exact h.isEntryName _ (mem_routes (mem_of_get? (List.cons_ne_nil _ _) hget))

/-- All that is above an entry is a directory. -/
theorem IsClosed.directory_above (h : t.IsClosed) {more : Route} (hmore : more ≠ [])
    (hget : t.get? (r ++ more) = some entry) : t.get? r = some .directory := by
  induction more using List.reverseRecOn generalizing entry with
  | nil => contradiction
  | append_singleton init name ih =>
      have hne : r ++ (init ++ [name]) ≠ [] := by simp
      have hparent := h.inDirectory _ (mem_routes (mem_of_get? hne hget))
      rw [← List.append_assoc, List.dropLast_concat] at hparent
      by_cases hinit : init = []
      · rwa [hinit, List.append_nil] at hparent
      · exact ih hinit hparent

theorem namesOf_append (segments segments' : List Text) :
    namesOf (segments ++ segments') = namesOf segments ++ namesOf segments' := by
  simp [namesOf]

/-- A path without `..` leads to what its names spell if there are directories on the way, and only
fails for a name that is too long. -/
theorem follow_eq_ite
    (habove : ∀ r more, r ++ more = route → more ≠ [] → t.get? r = some .directory)
    (hparent : .parent ∉ segments.filterMap Component.ofSegment?)
    (hlast : Component.ofSegment? last = some (.name last))
    (hroute : here ++ (namesOf segments ++ [last]) = route) :
    t.follow here (segments ++ [last]) =
      if ∀ name ∈ namesOf segments ++ [last], name.byteLength ≤ nameLimit then .ok route
      else .error .tooLong := by
  induction segments generalizing here with
  | nil =>
      simp only [List.nil_append, follow, habove here [last] hroute (by simp), hlast]
      simp only [namesOf, List.filterMap_nil, List.nil_append, List.forall_mem_singleton]
        at hroute ⊢
      rw [hroute]
  | cons s segments ih =>
      rw [List.cons_append, follow, habove here _ hroute (by simp)]
      cases hs : Component.ofSegment? s with
      | none =>
          have hnames : namesOf (s :: segments) = namesOf segments := by
            rw [namesOf, List.filterMap_cons_none hs, ← namesOf]
          rw [List.filterMap_cons_none hs] at hparent
          rw [hnames] at hroute ⊢
          exact ih hparent hroute
      | some c =>
          rw [List.filterMap_cons_some hs] at hparent
          obtain ⟨hc, hmore⟩ := not_or.mp (mt List.mem_cons.mpr hparent)
          cases c with
          | parent => exact absurd rfl hc
          | name n =>
              have hnames : namesOf (s :: segments) = n :: namesOf segments := by
                simp [namesOf, List.filterMap_cons_some hs]
              have hbelow : here ++ [n] ++ (namesOf segments ++ [last]) = route := by
                rw [← hroute, hnames, List.append_assoc]
                rfl
              rw [hnames]
              simp only [List.cons_append, List.forall_mem_cons]
              by_cases hlength : n.byteLength ≤ nameLimit
              · rw [if_pos hlength, ih hmore hbelow]
                simp only [hlength, true_and]
              · rw [if_neg hlength, if_neg (mt And.left hlength)]
          | root | current =>
              have hnames : namesOf (s :: segments) = namesOf segments := by
                simp [namesOf, List.filterMap_cons_some hs]
              rw [hnames] at hroute ⊢
              exact ih hmore hroute

theorem follow_eq_ok (habove : ∀ r more, r ++ more = route → more ≠ [] → t.get? r = some .directory)
    (hshort : ∀ name ∈ route, name.byteLength ≤ nameLimit)
    (hparent : .parent ∉ segments.filterMap Component.ofSegment?)
    (hlast : Component.ofSegment? last = some (.name last))
    (hroute : here ++ (namesOf segments ++ [last]) = route) :
    t.follow here (segments ++ [last]) = .ok route := by
  rw [follow_eq_ite habove hparent hlast hroute, if_pos]
  exact fun name hname => hshort name (hroute ▸ List.mem_append_right here hname)

theorem filterMap_ofSegment? (h : ∀ name ∈ r, IsEntryName name) :
    r.filterMap Component.ofSegment? = r.map Component.name := by
  rw [List.filterMap_eq_map_iff_forall_eq_some]
  exact fun name hname => (h name hname).ofSegment

theorem namesOf_eq_self (h : ∀ name ∈ r, IsEntryName name) : namesOf r = r := by
  rw [namesOf, filterMap_ofSegment? h, List.filterMap_map]
  exact List.filterMap_some

/-- The names of a route are read off its spelling. -/
theorem splitOn_joinWith (hne : r ≠ []) (h : ∀ name ∈ r, IsEntryName name) :
    (Text.joinWith ['/'] r).splitOn '/' = r :=
  List.splitOn_intercalate '/' (fun name hname => (h name hname).no_slash) hne

theorem head?_joinWith (h : ∀ name ∈ r, IsEntryName name) :
    (Text.joinWith ['/'] r).head? ≠ some '/' := by
  have hsegments : ∀ c ∈ r.map Component.name, c.IsSegment :=
    List.forall_mem_map.mpr fun name hname => ⟨(h name hname).no_slash, (h name hname).ofSegment⟩
  have htexts : (r.map Component.name).map Component.text = r := by
    rw [List.map_map]
    exact List.map_id r
  rw [← htexts]
  exact Component.head?_joinWith hsegments

/-- The path of an entry below a directory leads to the entry. -/
theorem find_join (hclosed : t.IsClosed) (hroot : root.IsResolved) (hne : r ≠ [])
    (hget : t.get? (routeOf root ++ r) = some entry)
    (hreach : (root.join (Text.joinWith ['/'] r)).text.byteLength ≤ pathLimit) :
    t.find (root.join (Text.joinWith ['/'] r)) = .ok entry := by
  have hroute := hclosed.names hget
  have hnames : ∀ name ∈ r, IsEntryName name := fun name hname =>
    hroute name (List.mem_append_right _ hname)
  obtain ⟨init, last, rfl⟩ := (List.eq_nil_or_concat' r).resolve_left hne
  have hinit : ∀ name ∈ init, IsEntryName name := fun name hname =>
    hnames name (by simp [hname])
  obtain ⟨segments, hsplit, hsegments, hbelow⟩ := hroot.splitOn_join (head?_joinWith hnames)
  rw [splitOn_joinWith hne hnames, ← List.append_assoc] at hsplit
  have hparent : Component.parent ∉ (segments ++ init).filterMap Component.ofSegment? := by
    rw [List.filterMap_append, filterMap_ofSegment? hinit, List.mem_append, not_or]
    exact ⟨hbelow, by simp⟩
  have hspelled : [] ++ (namesOf (segments ++ init) ++ [last]) =
      routeOf root ++ (init ++ [last]) := by
    rw [namesOf_append, namesOf_eq_self hinit, hsegments]
    simp
  have habove : ∀ r more, r ++ more = routeOf root ++ (init ++ [last]) → more ≠ [] →
      t.get? r = some .directory := by
    intro r more hr hmore
    rw [← hr] at hget
    exact hclosed.directory_above hmore hget
  have hfollow := follow_eq_ok habove (fun name hname => (hroute name hname).short) hparent
    (hnames last (by simp)).ofSegment hspelled
  rw [find, if_neg (Nat.not_lt.mpr hreach), if_pos (Path.join_isAbsolute hroot.isAbsolute _),
    hsplit, hfollow]
  simp only [bind, Except.bind, hget]

/-- In a directory that is there, a name is looked up unless the path is too long. -/
theorem find_join_name (hroot : root.IsResolved) {name : Text} (hslash : '/' ∉ name)
    (hname : Component.ofSegment? name = some (.name name))
    (hdirectory : ∀ r ∈ (routeOf root).inits, t.get? r = some .directory) :
    t.find (root.join name) = .error .tooLong ∨
      t.find (root.join name) = reached (t.get? (routeOf root ++ [name])) := by
  obtain ⟨segments, hsplit, hnames, hparent⟩ := hroot.splitOn_join_name hslash
  have habove : ∀ r more, r ++ more = routeOf root ++ [name] → more ≠ [] →
      t.get? r = some .directory := by
    intro r more hr hmore
    refine hdirectory r ((List.mem_inits _ _).mpr ⟨more.dropLast, ?_⟩)
    rw [← List.dropLast_append_of_ne_nil hmore, hr, List.dropLast_concat]
  have hroute : [] ++ (namesOf segments ++ [name]) = routeOf root ++ [name] := by
    rw [hnames, List.nil_append]
  have hfollow := follow_eq_ite habove hparent hname hroute
  rw [find, if_pos (Path.join_isAbsolute hroot.isAbsolute _), hsplit, hfollow]
  split
  · exact .inl rfl
  · split
    · refine .inr ?_
      cases hget : t.get? (routeOf root ++ [name]) <;> simp [reached, hget, bind, Except.bind]
    · exact .inl rfl

end FileTree
end Shorthand
