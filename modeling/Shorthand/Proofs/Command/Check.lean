import Shorthand.Command.Run
import Shorthand.Proofs.Fallible
import Shorthand.Proofs.Resolve.Location

/-!
The verdict of a check. Each link that scanning finds either holds or leads to a place where nothing
is, and a check tells the links of the second kind, one line for each, and nothing else.
-/

namespace Shorthand

variable {root : Path} {t : FileTree} {p : Project} {o : Occurrence} {path : Path}
  {links : List Occurrence} {lines : List Text}

theorem FileTree.pathExists_iff : t.pathExists path = true ↔ ∃ entry, t.find path = .ok entry := by
  unfold pathExists
  cases t.find path <;> simp

namespace Project

/-- The link is a URL, or there is a file or a directory where it leads. -/
def Holds (p : Project) (t : FileTree) (o : Occurrence) : Prop :=
  (∃ url, p.resolver.resolve (o.request .location) = .external url) ∨
    ∃ path entry, p.resolver.resolve (o.request .location) = .location path ∧
      t.find path = .ok entry

/-- The link leads to a place where nothing is. -/
def LeadsNowhere (p : Project) (t : FileTree) (o : Occurrence) (path : Path) : Prop :=
  p.resolver.resolve (o.request .location) = .location path ∧ ∀ entry, t.find path ≠ .ok entry

def missingLine (p : Project) (o : Occurrence) (path : Path) : Text :=
  "MISSING     " ++ (p.shown o.source ++ ":" ++ Text.ofNat o.line) ++ "  " ++ o.link.written ++
    " -> " ++ p.shown path

/-- The lines that a check owes to the links of a project, in their order. -/
inductive Checked (p : Project) (t : FileTree) : List Occurrence → List Text → Prop
  | nil : Checked p t [] []
  | holds {o : Occurrence} {links : List Occurrence} {lines : List Text} :
      p.Holds t o → Checked p t links lines → Checked p t (o :: links) lines
  | missing {o : Occurrence} {path : Path} {links : List Occurrence} {lines : List Text} :
      p.LeadsNowhere t o path → Checked p t links lines →
      Checked p t (o :: links) (p.missingLine o path :: lines)

theorem LeadsNowhere.not_holds (h : p.LeadsNowhere t o path) : ¬ p.Holds t o := by
  rintro (⟨url, hurl⟩ | ⟨place, entry, hplace, hentry⟩)
  · rw [h.1] at hurl
    contradiction
  · cases h.1.symm.trans hplace
    exact h.2 entry hentry

/-- A link that was found in a document is never left unresolved. -/
theorem holds_or_leadsNowhere (p : Project) (t : FileTree) (o : Occurrence) :
    p.Holds t o ∨ ∃ path, p.LeadsNowhere t o path := by
  rcases p.resolver.resolve_eq_external_or_present o.link.target o.link.label o.source with
    ⟨url, hurl⟩ | hplace
  · exact .inl (.inl ⟨url, hurl .location⟩)
  · by_cases hfound : ∃ entry,
        t.find (p.resolver.location o.link.target o.link.label o.source) = .ok entry
    · obtain ⟨entry, hentry⟩ := hfound
      exact .inl (.inr ⟨_, entry, hplace .location, hentry⟩)
    · exact .inr ⟨_, hplace .location, not_exists.mp hfound⟩

theorem brokenLine?_of_holds (h : p.Holds t o) : p.brokenLine? t o = none := by
  rcases h with ⟨url, hurl⟩ | ⟨path, entry, hpath, hentry⟩
  · simp only [brokenLine?, status, hurl]
  · have hexists : t.pathExists path = true := FileTree.pathExists_iff.mpr ⟨entry, hentry⟩
    simp only [brokenLine?, status, hpath, LinkStatus.ofPath, if_pos hexists]

theorem brokenLine?_of_leadsNowhere (h : p.LeadsNowhere t o path) :
    p.brokenLine? t o = some (p.missingLine o path) := by
  have hexists : ¬ t.pathExists path = true := by
    rw [FileTree.pathExists_iff]
    exact not_exists.mpr h.2
  simp only [brokenLine?, status, h.1, LinkStatus.ofPath, if_neg hexists]
  rfl

theorem Checked.eq_filterMap (h : p.Checked t links lines) :
    lines = links.filterMap (p.brokenLine? t) := by
  induction h with
  | nil => rfl
  | holds ho _ ih => rw [List.filterMap_cons_none (brokenLine?_of_holds ho), ih]
  | missing ho _ ih => rw [List.filterMap_cons_some (brokenLine?_of_leadsNowhere ho), ih]

theorem checked_filterMap (p : Project) (t : FileTree) (links : List Occurrence) :
    p.Checked t links (links.filterMap (p.brokenLine? t)) := by
  induction links with
  | nil => exact .nil
  | cons o links ih =>
      rcases p.holds_or_leadsNowhere t o with ho | ⟨path, ho⟩
      · rw [List.filterMap_cons_none (brokenLine?_of_holds ho)]
        exact .holds ho ih
      · rw [List.filterMap_cons_some (brokenLine?_of_leadsNowhere ho)]
        exact .missing ho ih

theorem Checked.eq_nil_iff (h : p.Checked t links lines) :
    lines = [] ↔ ∀ o ∈ links, p.Holds t o := by
  induction h with
  | nil => simp
  | holds ho _ ih => simp [ih, ho]
  | missing ho _ _ => simp [ho.not_holds]

/-- What a check says of a number of links and the lines that it owes to them. -/
def verdict (total : Nat) (lines : List Text) : Report :=
  if lines.isEmpty then { output := "All " ++ Text.ofNat total ++ " links resolve\n" }
  else
    { exit := .broken
      output := Text.ofLines lines ++ "\n" ++ Text.ofNat (min lines.length lastCount) ++
        " broken\n" }

theorem check_of_scan (h : p.scan t = .ok links) :
    p.check t = .ok (verdict links.length (links.filterMap (p.brokenLine? t))) := by
  rw [check, h]
  rfl

/-- A check that gives a verdict has not failed. -/
theorem exit_of_check {r : Report} (h : p.check t = .ok r) : r.exit ≠ .failed := by
  obtain ⟨links, hscan, -⟩ := bind_eq_ok_iff.mp h
  cases (check_of_scan hscan).symm.trans h
  unfold verdict
  split <;> nofun

end Project

theorem run_check (hload : Project.load root t = .ok p) (verbose : Bool) :
    (⟨.check, verbose⟩ : Invocation).run root t = ⟨.ofResult (p.check t), t⟩ := by
  simp only [Invocation.run, inspect, hload]
  rfl

/-- A check is sound and complete. It tells each link that leads to a place where nothing is by one
line, in the order in which scanning finds the links, and no other link. It succeeds just if every
link holds, and counts them then; otherwise it counts the lines, up to the largest 32-bit number. No
file is changed. -/
theorem check_verdict (hload : Project.load root t = .ok p) (hscan : p.scan t = .ok links)
    (verbose : Bool) :
    let checked := (⟨.check, verbose⟩ : Invocation).run root t
    ∃ lines, p.Checked t links lines ∧ checked.tree = t ∧
      (lines ≠ [] → checked.report.exit.code = 2 ∧ checked.report.output =
        Text.ofLines lines ++ "\n" ++ Text.ofNat (min lines.length (UInt32.size - 1)) ++
          " broken\n") ∧
      (lines = [] → checked.report.exit.code = 0 ∧ checked.report.output =
        "All " ++ Text.ofNat links.length ++ " links resolve\n") ∧
      (checked.report.exit.code = 0 ↔ ∀ o ∈ links, p.Holds t o) := by
  intro checked
  have hrun : checked = ⟨Project.verdict links.length (links.filterMap (p.brokenLine? t)), t⟩ := by
    rw [show checked = _ from run_check hload verbose, Project.check_of_scan hscan, Report.ofResult]
  have hchecked := p.checked_filterMap t links
  generalize links.filterMap (p.brokenLine? t) = lines at hrun hchecked
  rw [hrun]
  refine ⟨lines, hchecked, rfl, fun hne => ?_, ?_, ?_⟩
  · simp only [Project.verdict, if_neg (mt List.isEmpty_iff.mp hne)]
    exact ⟨rfl, rfl⟩
  · rintro rfl
    exact ⟨rfl, rfl⟩
  · rw [← hchecked.eq_nil_iff]
    cases lines with
    | nil => exact ⟨fun _ => rfl, fun _ => rfl⟩
    | cons line lines => exact ⟨nofun, nofun⟩

/-- A URL, a link to a directory and a link to nothing. -/
theorem check_verdict_one_missing :
    let t : FileTree := ⟨[(["ws"], .directory),
      (["ws", "a.md"], .file (.text "[site](https://e.org) [lib]([])\n[x](gone)\n")),
      (["ws", "src"], .directory), (["ws", "src", "cavalion-blocks"], .directory),
      (["ws", "src", "cavalion-blocks", "lib"], .directory)]⟩
    let p : Project := ⟨⟨"/ws"⟩, {}⟩
    let links : List Occurrence := [⟨⟨"site", "https://e.org"⟩, ⟨"/ws/a.md"⟩, 1, 1⟩,
      ⟨⟨"lib", "[]"⟩, ⟨"/ws/a.md"⟩, 1, 23⟩, ⟨⟨"x", "gone"⟩, ⟨"/ws/a.md"⟩, 2, 1⟩]
    let checked := (⟨.check, false⟩ : Invocation).run ⟨"/ws"⟩ t
    Project.load ⟨"/ws"⟩ t = .ok p ∧ p.scan t = .ok links ∧ checked.tree = t ∧
      checked.report.exit.code = 2 ∧
      checked.report.output = "MISSING     a.md:2  [x](gone) -> gone\n\n1 broken\n" := by
  intro t p links checked
  have hload : Project.load ⟨"/ws"⟩ t = .ok p := by decide +kernel
  have hscan : p.scan t = .ok links := by decide +kernel
  obtain ⟨lines, hlines, htree, hbroken, -⟩ := check_verdict hload hscan false
  have hmissing : lines = ["MISSING     a.md:2  [x](gone) -> gone"] := by
    rw [hlines.eq_filterMap]
    decide +kernel
  obtain ⟨hexit, houtput⟩ := hbroken (by rw [hmissing]; nofun)
  refine ⟨hload, hscan, htree, hexit, houtput.trans ?_⟩
  rw [hmissing]
  decide

end Shorthand
