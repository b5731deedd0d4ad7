import Shorthand.Command.Namespaces
import Shorthand.Proofs.FileTree
import Shorthand.Proofs.Path.Components

/-!
The configuration file of a project. What is put there is found there again, and it is found as
long as nothing on the way to it changes.
-/

namespace Shorthand

/-- The path of a directory as the system gives it. -/
structure Path.IsResolved (p : Path) : Prop where
  isAbsolute : p.isAbsolute = true
  no_parent : Component.parent ∉ p.components

namespace FileTree

variable {t t' : FileTree} {route here : Route} {segments : List Text} {last : Text}

/-- The names among the segments of a path. -/
def namesOf (segments : List Text) : Route :=
  (segments.filterMap Component.ofSegment?).filterMap fun
    | .name n => some n
    | _ => none

/-- The directories on the way down to an entry, itself not among them. -/
def SameAbove (t t' : FileTree) (route : Route) : Prop :=
  ∀ r more, r ++ more = route → more ≠ [] → t'.get? r = t.get? r

/-- A path without `..` is followed in the same way in trees with the same directories above its
end, and to the entry that its names spell. -/
theorem follow_eq (h : SameAbove t t' route)
    (hparent : .parent ∉ segments.filterMap Component.ofSegment?)
    (hlast : Component.ofSegment? last = some (.name last))
    (hroute : here ++ (namesOf segments ++ [last]) = route) :
    t'.follow here (segments ++ [last]) = t.follow here (segments ++ [last]) ∧
      ∀ found, t.follow here (segments ++ [last]) = .ok found → found = route := by
  induction segments generalizing here with
  | nil =>
      have hhere := h here [last] hroute (by simp)
      simp only [List.nil_append, follow, hhere, hlast, true_and]
      intro found hfound
      split at hfound
      · contradiction
      · contradiction
      · split at hfound
        · cases hfound
          exact hroute
        · contradiction
  | cons s segments ih =>
      have hhere := h here _ hroute (by simp)
      rw [List.cons_append, follow, follow, hhere]
      cases t.get? here with
      | none => exact ⟨rfl, nofun⟩
      | some entry =>
          cases entry with
          | file content => exact ⟨rfl, nofun⟩
          | directory =>
              cases hs : Component.ofSegment? s with
              | none =>
                  rw [List.filterMap_cons_none hs] at hparent
                  rw [namesOf, List.filterMap_cons_none hs, ← namesOf] at hroute
                  exact ih hparent hroute
              | some c =>
                  rw [List.filterMap_cons_some hs] at hparent
                  rw [namesOf, List.filterMap_cons_some hs] at hroute
                  obtain ⟨hc, hmore⟩ := not_or.mp (mt List.mem_cons.mpr hparent)
                  cases c with
                  | parent => exact absurd rfl hc
                  | name n =>
                      simp only
                      split
                      · refine ih hmore (Eq.trans ?_ hroute)
                        simp [namesOf]
                      · exact ⟨rfl, nofun⟩
                  | root | current => exact ih hmore hroute

theorem sameAbove_put (h : route ≠ []) (entry : Entry) : SameAbove t (t.put route entry) route := by
  intro r more hr hmore
  rw [get?_put h, if_neg]
  rintro rfl
  exact hmore (List.append_right_eq_self.mp hr)

end FileTree

namespace Path

variable {root : Path}

theorem filterMap_splitOn (h : root.isAbsolute = true) :
    (root.text.splitOn '/').filterMap Component.ofSegment? = root.components.tail := by
  obtain ⟨s, rfl⟩ := exists_of_isAbsolute h
  have hsplit : List.splitOn '/' ('/' :: s) = [] :: s.splitOn '/' := by
    simpa using List.splitOn_append_cons_self [] s
  rw [hsplit, List.filterMap_cons_none rfl]
  rfl

/-- The segments of a path below a directory are those of the directory and those that lead on. -/
theorem splitOn_join_relative (h : root.isAbsolute = true) {rest : Text}
    (hrest : rest.head? ≠ some '/') :
    ∃ segments, (root.join rest).text.splitOn '/' = segments ++ rest.splitOn '/' ∧
      segments.filterMap Component.ofSegment? = root.components.tail := by
  have hroot : root.text ≠ [] := by
    obtain ⟨s, rfl⟩ := exists_of_isAbsolute h
    exact List.cons_ne_nil _ _
  rw [← filterMap_splitOn h, join, if_neg hrest]
  split
  · rename_i hlast
    obtain ⟨init, hinit⟩ := List.getLast?_eq_some_iff.mp (hlast.resolve_left hroot)
    refine ⟨init.splitOn '/', ?_, ?_⟩
    · rw [hinit, List.append_assoc, List.singleton_append, List.splitOn_append_cons_self]
    · rw [hinit, List.splitOn_append_cons_self]
      simp [Component.ofSegment?]
  · exact ⟨root.text.splitOn '/', List.splitOn_append_cons_self .., rfl⟩

theorem routeOf_eq (h : root.isAbsolute = true) :
    FileTree.routeOf root = root.components.tail.filterMap fun
      | .name n => some n
      | _ => none := by
  obtain ⟨s, rfl⟩ := exists_of_isAbsolute h
  rfl

/-- The segments before those that lead on have the names of the directory, and none of them leads
up. -/
theorem IsResolved.splitOn_join (h : root.IsResolved) {rest : Text}
    (hrest : rest.head? ≠ some '/') :
    ∃ segments, (root.join rest).text.splitOn '/' = segments ++ rest.splitOn '/' ∧
      FileTree.namesOf segments = FileTree.routeOf root ∧
      Component.parent ∉ segments.filterMap Component.ofSegment? := by
  obtain ⟨segments, hsplit, hsegments⟩ := splitOn_join_relative h.isAbsolute hrest
  refine ⟨segments, hsplit, ?_, ?_⟩
  · rw [FileTree.namesOf, hsegments, routeOf_eq h.isAbsolute]
  · rw [hsegments]
    exact fun hmem => h.no_parent (List.mem_of_mem_tail hmem)

/-- The segments of the path of a file in a directory are those of the directory and its name. -/
theorem IsResolved.splitOn_join_name (h : root.IsResolved) {name : Text} (hname : '/' ∉ name) :
    ∃ segments, (root.join name).text.splitOn '/' = segments ++ [name] ∧
      FileTree.namesOf segments = FileTree.routeOf root ∧
      Component.parent ∉ segments.filterMap Component.ofSegment? := by
  have hhead : name.head? ≠ some '/' := fun h => hname (List.mem_of_head? h)
  have hnames : ∀ l ∈ [name], '/' ∉ l := by simpa using hname
  have hsplit := List.splitOn_intercalate '/' hnames (List.cons_ne_nil _ _)
  rw [List.intercalate_singleton] at hsplit
  rw [← hsplit]
  exact h.splitOn_join hhead

end Path

/-- The route of the configuration file of a project. -/
def configRoute (root : Path) : Route :=
  FileTree.routeOf root ++ [configFile]

variable {root : Path} {t t' : FileTree} {c : Config} {d : Toml.Document}

/-- What a path leads to where it can be followed to its end. -/
def FileTree.reached : Option Entry → Except LookupFault Entry
  | some e => .ok e
  | none => .error .missing

/-- The configuration file is found in one tree as in another with the same directories above
it. -/
theorem find_configFile (hroot : root.IsResolved) (h : FileTree.SameAbove t t' (configRoute root)) :
    (∃ fault, t.find (Config.file root) = .error fault ∧
      t'.find (Config.file root) = .error fault) ∨
    t.find (Config.file root) = FileTree.reached (t.get? (configRoute root)) ∧
      t'.find (Config.file root) = FileTree.reached (t'.get? (configRoute root)) := by
  have hslash : '/' ∉ configFile := by decide
  obtain ⟨segments, hsplit, hnames, hparent⟩ := hroot.splitOn_join_name hslash
  have habsolute : (Config.file root).isAbsolute = true := Path.join_isAbsolute hroot.isAbsolute _
  have hlast : Component.ofSegment? configFile = some (.name configFile) := by decide
  have hroute : [] ++ (FileTree.namesOf segments ++ [configFile]) = configRoute root := by
    rw [hnames]
    rfl
  obtain ⟨hfollow, hfound⟩ := FileTree.follow_eq h hparent hlast hroute
  change (Config.file root).text.splitOn '/' = _ at hsplit
  simp only [FileTree.find, habsolute, if_true, hsplit, hfollow]
  split
  · exact .inl ⟨_, rfl, rfl⟩
  · cases hreached : t.follow [] (segments ++ [configFile]) with
    | error fault => exact .inl ⟨fault, rfl, rfl⟩
    | ok found =>
        obtain rfl := hfound found hreached
        refine .inr ⟨?_, ?_⟩
        · cases hget : t.get? (configRoute root) <;>
            simp [FileTree.reached, hget, bind, Except.bind]
        · cases hget : t'.get? (configRoute root) <;>
            simp [FileTree.reached, hget, bind, Except.bind]

theorem configRoute_ne_nil : configRoute root ≠ [] :=
  List.append_ne_nil_of_right_ne_nil _ (List.cons_ne_nil _ _)

namespace Config

theorem load_of_missing (h : t.readText? (file root) = .ok none) : load root t = .ok {} := by
  rw [load, h]
  rfl

theorem load_of_content {content : Text} (h : t.readText? (file root) = .ok (some content)) :
    load root t = parse (file root) content := by
  rw [load, h]
  rfl

/-- Loading sees the configuration file and the directories above it. -/
theorem load_congr (hroot : root.IsResolved) (h : FileTree.SameAbove t t' (configRoute root))
    (hget : t'.get? (configRoute root) = t.get? (configRoute root)) :
    load root t' = load root t := by
  have hfind : t'.find (file root) = t.find (file root) := by
    rcases find_configFile hroot h with ⟨fault, hfault, hfault'⟩ | ⟨hfound, hfound'⟩
    · rw [hfault, hfault']
    · rw [hfound, hfound', hget]
  rw [load, load, FileTree.readText?, FileTree.readText?, hfind]

/-- What has been put into the configuration file is loaded, unless there is no directory for it. -/
theorem load_putConfig (hroot : root.IsResolved) (hload : load root t = .ok c) (d : Toml.Document) :
    load root (putConfig root t d) = parse (file root) d.write ∨
      load root (putConfig root t d) = .ok {} ∧ t.readText? (file root) = .ok none := by
  have habove : FileTree.SameAbove t (putConfig root t d) (configRoute root) :=
    FileTree.sameAbove_put configRoute_ne_nil (.file (.text d.write))
  rcases find_configFile hroot habove with ⟨fault, hfault, hfault'⟩ | ⟨-, hfound⟩
  · cases fault with
    | missing =>
        have hread : t.readText? (file root) = .ok none := by
          rw [FileTree.readText?, hfault]
        have hread' : (putConfig root t d).readText? (file root) = .ok none := by
          rw [FileTree.readText?, hfault']
        exact .inr ⟨load_of_missing hread', hread⟩
    | notDirectory | tooLong =>
        rw [load, FileTree.readText?, hfault] at hload
        contradiction
  · have hget : (putConfig root t d).get? (configRoute root) = some (.file (.text d.write)) :=
      (FileTree.get?_put configRoute_ne_nil ..).trans (if_pos rfl)
    refine .inl (load_of_content ?_)
    rw [FileTree.readText?, hfound, hget]
    rfl

end Config

end Shorthand
