import Shorthand.Proofs.Command.Check
import Shorthand.Proofs.Documents
import Shorthand.Proofs.FileTree.Following

/-!
Scanning a project. Every document is read once, in the order of a walk through the directories, and
as if it had been named on the command line. A scan stops at what is taken for a document and is not
a text, a directory among them.
-/

namespace Shorthand

variable {root : Path} {t : FileTree} {p : Project} {links : List Occurrence} {r : Route}
  {entry : Entry} {documents : List Text}

/-- The order of a walk. A directory comes before what it holds, and all that is in one of its
entries comes before all that is in another with a later name. -/
def Route.Precedes (a b : Route) : Prop :=
  (∃ more, more ≠ [] ∧ b = a ++ more) ∨
    ∃ above m n rest rest', a = above ++ m :: rest ∧ b = above ++ n :: rest' ∧ m < n

theorem Route.precedes_of_lt {a b : Route} (h : a < b) : a.Precedes b := by
  induction a generalizing b with
  | nil =>
      refine .inl ⟨b, ?_, rfl⟩
      rintro rfl
      exact List.not_lt_nil _ h
  | cons m a ih =>
      cases b with
      | nil => exact absurd h (List.not_lt_nil _)
      | cons n b =>
          rcases List.cons_lt_cons_iff.mp h with hlt | ⟨rfl, hlt⟩
          · exact .inr ⟨[], m, n, a, b, rfl, rfl, hlt⟩
          · rcases ih hlt with ⟨more, hmore, rfl⟩ | ⟨above, m', n', rest, rest', rfl, rfl, hnames⟩
            · exact .inl ⟨more, hmore, rfl⟩
            · exact .inr ⟨m :: above, m', n', rest, rest', rfl, rfl, hnames⟩

theorem Route.lt_of_append_lt {base a b : Route} (h : base ++ a < base ++ b) : a < b := by
  induction base with
  | nil => exact h
  | cons name base ih =>
      rcases List.cons_lt_cons_iff.mp h with hlt | ⟨-, hlt⟩
      · exact absurd hlt (lt_irrefl name)
      · exact ih hlt

/-- A project in a tree as a file system holds it. -/
structure FileTree.Houses (t : FileTree) (p : Project) : Prop where
  isResolved : p.root.IsResolved
  isDirectory : t.get? (FileTree.routeOf p.root) = some .directory
  ordered : t.Ordered
  isClosed : t.IsClosed

/-- A file is not the project's directory. -/
theorem FileTree.Houses.ne_nil_of_file {content : Content} (h : t.Houses p)
    (hget : t.get? (routeOf p.root ++ r) = some (.file content)) : r ≠ [] := by
  rintro rfl
  rw [List.append_nil, h.isDirectory] at hget
  cases hget

theorem FileTree.Houses.mem_sources_iff (h : t.Houses p) {s : Source} :
    s ∈ p.config.sources p.root t ↔ ∃ r entry, p.Visits t r entry ∧ s = .ofRoute p.root r entry :=
  Config.mem_sources_iff h.ordered h.isDirectory

/-- The route of a source from its project. -/
def Source.below (root : Path) (s : Source) : Route :=
  s.route.drop (FileTree.routeOf root).length

theorem Source.below_ofRoute (root : Path) (r : Route) (entry : Entry) :
    (ofRoute root r entry).below root = r :=
  List.drop_left

namespace Project

/-- What is visited and read is read in the same way when it is named. -/
theorem scanDocument_of_visits (h : t.Houses p) {content : Text} (hvisits : p.Visits t r entry)
    (hread : (Source.ofRoute p.root r entry).read = .ok content) :
    p.scanDocument t (Text.joinWith ['/'] r) = .ok (Source.ofRoute p.root r entry).links := by
  obtain ⟨hreach, hentry⟩ := Source.read_eq_ok_iff.mp hread
  obtain rfl : entry = .file (.text content) := hentry
  have hne := h.ne_nil_of_file hvisits.found
  have hpath : (Source.ofRoute p.root r (.file (.text content))).path =
      p.root.join (Text.joinWith ['/'] r) := if_neg hne
  rw [hpath] at hreach
  have hfind := FileTree.find_join h.isClosed h.isResolved hne hvisits.found hreach
  have hfound : t.readText? (p.root.join (Text.joinWith ['/'] r)) = .ok (some content) := by
    rw [FileTree.readText?, hfind]
    rfl
  rw [scanDocument, hfound, Source.links_of_read hread, hpath]
  rfl

/-- The routes of the documents in the order in which they are scanned. -/
def visited (p : Project) (t : FileTree) : List Route :=
  (p.config.sources p.root t).map (Source.below p.root)

theorem mem_visited_iff (h : t.Houses p) :
    r ∈ p.visited t ↔ ∃ entry, p.Visits t r entry := by
  simp only [visited, List.mem_map, h.mem_sources_iff]
  constructor
  · rintro ⟨s, ⟨r, entry, hvisits, rfl⟩, rfl⟩
    rw [Source.below_ofRoute]
    exact ⟨entry, hvisits⟩
  · rintro ⟨entry, hvisits⟩
    exact ⟨_, ⟨r, entry, hvisits, rfl⟩, Source.below_ofRoute ..⟩

theorem visited_pairwise (h : t.Houses p) : (p.visited t).Pairwise (· < ·) := by
  have hsources := (FileTree.sources_pairwise h.ordered p.root).filter
    fun s => p.config.covers s.relative
  refine List.pairwise_map.mpr (List.Pairwise.imp_of_mem ?_ hsources)
  intro s s' hs hs' hlt
  obtain ⟨r, entry, -, rfl⟩ := h.mem_sources_iff.mp hs
  obtain ⟨r', entry', -, rfl⟩ := h.mem_sources_iff.mp hs'
  rw [Source.below_ofRoute, Source.below_ofRoute]
  exact Route.lt_of_append_lt hlt

/-- The documents of a project that can be scanned, as they are named on the command line. -/
theorem mapM_visited (h : t.Houses p) (hreadable : ∀ s ∈ p.config.sources p.root t, s.IsReadable) :
    ((p.visited t).map (Text.joinWith ['/'])).mapM (p.scanDocument t) =
      .ok ((p.config.sources p.root t).map Source.links) := by
  rw [visited, List.map_map, List.mapM_map]
  refine mapM_eq_ok fun s hs => ?_
  obtain ⟨content, hread⟩ := hreadable s hs
  obtain ⟨r, entry, hvisits, rfl⟩ := h.mem_sources_iff.mp hs
  simp only [Function.comp_apply, Source.below_ofRoute]
  exact scanDocument_of_visits h hvisits hread

/-- Different documents are named differently. -/
theorem nodup_visited (h : t.Houses p) (hscan : p.scan t = .ok links) :
    ((p.visited t).map (Text.joinWith ['/'])).Nodup := by
  have hreadable := exists_scan_iff.mp ⟨links, hscan⟩
  have hroute : ∀ r ∈ p.visited t, r ≠ [] ∧ ∀ name ∈ r, FileTree.IsEntryName name := by
    intro r hr
    obtain ⟨entry, hvisits⟩ := (mem_visited_iff h).mp hr
    obtain ⟨content, hread⟩ := hreadable _ (h.mem_sources_iff.mpr ⟨r, entry, hvisits, rfl⟩)
    obtain rfl : entry = .file (.text content) := (Source.read_eq_ok_iff.mp hread).2
    exact ⟨h.ne_nil_of_file hvisits.found, fun name hname =>
      h.isClosed.names hvisits.found name (List.mem_append_right _ hname)⟩
  refine List.Nodup.map_on (fun r hr r' hr' heq => ?_) (visited_pairwise h).nodup
  rw [← FileTree.splitOn_joinWith (hroute r hr).1 (hroute r hr).2, heq,
    FileTree.splitOn_joinWith (hroute r' hr').1 (hroute r' hr').2]

/-- Documents that are named one by one are listed as the project is if they have its links. -/
theorem listLinks_documents
    (h : (documents.mapM (p.scanDocument t)).map List.flatten = p.scan t) (json verbose : Bool) :
    p.listLinks t documents json verbose = p.listLinks t [] json verbose := by
  have hlinks : p.linksOf t documents = p.linksOf t [] := by
    unfold linksOf
    split
    · rfl
    · exact h
  rw [listLinks, listLinks, hlinks]

end Project

theorem run_links (hload : Project.load root t = .ok p) (documents : List Text)
    (json verbose : Bool) :
    (⟨.links documents json, verbose⟩ : Invocation).run root t =
      ⟨.ofResult (p.listLinks t documents json verbose), t⟩ := by
  simp only [Invocation.run, inspect, hload]
  rfl

/-- A scan that succeeds has read the documents that a walk comes to, each once and in the order of
the walk, and its links are those of the documents one after the other. So the links are listed in
the same way if these documents are named. -/
theorem scan_reads_documents_in_order (h : t.Houses p) (hscan : p.scan t = .ok links) :
    ∃ routes : List Route, routes.Pairwise Route.Precedes ∧
      (∀ r, r ∈ routes ↔ ∃ entry, p.Visits t r entry) ∧
      let documents := routes.map (Text.joinWith ['/'])
      documents.Nodup ∧
      (∃ found, documents.mapM (p.scanDocument t) = .ok found ∧ links = found.flatten) ∧
      ∀ json verbose,
        p.listLinks t documents json verbose = p.listLinks t [] json verbose ∧
        (Project.load p.root t = .ok p →
          (⟨.links documents json, verbose⟩ : Invocation).run p.root t =
            (⟨.links [] json, verbose⟩ : Invocation).run p.root t) := by
  have hreadable := Project.exists_scan_iff.mp ⟨links, hscan⟩
  have hfound := Project.mapM_visited h hreadable
  have hlinks : links = ((p.config.sources p.root t).map Source.links).flatten := by
    rw [← List.flatMap_def]
    exact Except.ok.inj (hscan.symm.trans (Project.scan_eq hreadable))
  refine ⟨p.visited t, (Project.visited_pairwise h).imp Route.precedes_of_lt,
    fun r => Project.mem_visited_iff h, Project.nodup_visited h hscan, ⟨_, hfound, hlinks⟩,
    fun json verbose => ?_⟩
  have hlisted : p.listLinks t ((p.visited t).map (Text.joinWith ['/'])) json verbose =
      p.listLinks t [] json verbose := by
    refine Project.listLinks_documents ?_ json verbose
    rw [hfound, hscan, hlinks]
    rfl
  refine ⟨hlisted, fun hload => ?_⟩
  rw [run_links hload, run_links hload, hlisted]

/-- A document in a directory, one beside it, and one that is not covered. -/
theorem scan_reads_nested_document :
    let t : FileTree := ⟨[(["ws"], .directory),
      (["ws", ".colonlink.toml"], .file (.text "exclude = [\"drafts/\"]\n")),
      (["ws", "a"], .directory), (["ws", "a", "n.md"], .file (.text "[x](y)\n")),
      (["ws", "a.md"], .file (.text "[p](q)\n")), (["ws", "drafts"], .directory),
      (["ws", "drafts", "d.md"], .file (.text "[d](e)\n"))]⟩
    let p : Project := ⟨⟨"/ws"⟩, { excluded := ["drafts/"] }⟩
    let run (documents : List Text) := (⟨.links documents true, false⟩ : Invocation).run ⟨"/ws"⟩ t
    t.Houses p ∧ Project.load ⟨"/ws"⟩ t = .ok p ∧
      p.scan t = .ok [⟨⟨"x", "y"⟩, ⟨"/ws/a/n.md"⟩, 1, 1⟩, ⟨⟨"p", "q"⟩, ⟨"/ws/a.md"⟩, 1, 1⟩] ∧
      ∃ routes : List Route, (["a", "n.md"] : Route) ∈ routes ∧
        (["drafts", "d.md"] : Route) ∉ routes ∧
        run (routes.map (Text.joinWith ['/'])) = run [] := by
  intro t p run
  have hhouses : t.Houses p := by
    refine ⟨⟨by decide, by decide⟩, ?_, ?_, ?_⟩ <;> decide +kernel
  have hload : Project.load ⟨"/ws"⟩ t = .ok p := by decide +kernel
  have hscan : p.scan t =
      .ok [⟨⟨"x", "y"⟩, ⟨"/ws/a/n.md"⟩, 1, 1⟩, ⟨⟨"p", "q"⟩, ⟨"/ws/a.md"⟩, 1, 1⟩] := by
    decide +kernel
  obtain ⟨routes, -, hroutes, -, -, hrun⟩ := scan_reads_documents_in_order hhouses hscan
  have hnested : p.Visits t ["a", "n.md"] (.file (.text "[x](y)\n")) :=
    ⟨by decide +kernel, ⟨"n.md", by decide +kernel, by decide⟩, by decide +kernel, by decide⟩
  refine ⟨hhouses, hload, hscan, routes, (hroutes _).mpr ⟨_, hnested⟩, ?_,
    (hrun true false).2 hload⟩
  intro hmem
  obtain ⟨entry, hvisits⟩ := (hroutes _).mp hmem
  exact absurd hvisits.isCovered (by decide)

theorem Exit.code_eq_three_iff {exit : Exit} : exit.code = 3 ↔ exit = .failed := by
  cases exit <;> simp [code]

/-- A command that only fails by an error ends in failure if there is no report to give. -/
theorem Report.code_ofResult {result : Except Error Report}
    (h : ∀ r, result = .ok r → r.exit ≠ .failed) :
    (ofResult result).exit.code = 3 ↔ ¬ ∃ r, result = .ok r := by
  rw [Exit.code_eq_three_iff]
  cases result with
  | error e => simp [ofResult, ofError]
  | ok r => simp [ofResult, h r rfl]

theorem Source.not_isReadable_iff {s : Source} : ¬ s.IsReadable ↔
    s.entry = .directory ∨ (∃ bytes, s.entry = .file (.binary bytes)) ∨
      FileTree.pathLimit < s.path.text.byteLength := by
  simp only [IsReadable, read_eq_ok_iff, exists_and_left]
  cases s.entry with
  | directory => simp
  | file content => cases content <;> simp

namespace Project

/-- A scan stops at an entry that is taken for a document and is no text, or is out of reach. -/
theorem not_exists_scan_iff (hordered : t.Ordered)
    (hroot : t.get? (FileTree.routeOf p.root) = some .directory) :
    (¬ ∃ links, p.scan t = .ok links) ↔ ∃ r entry, p.Visits t r entry ∧
      (entry = .directory ∨ (∃ bytes, entry = .file (.binary bytes)) ∨
        FileTree.pathLimit < (p.root.along r).text.byteLength) := by
  rw [exists_scan_iff]
  simp only [not_forall, exists_prop]
  constructor
  · rintro ⟨s, hs, hunreadable⟩
    obtain ⟨r, entry, hvisits, rfl⟩ := (Config.mem_sources_iff hordered hroot).mp hs
    exact ⟨r, entry, hvisits, Source.not_isReadable_iff.mp hunreadable⟩
  · rintro ⟨r, entry, hvisits, hentry⟩
    exact ⟨_, (Config.mem_sources_iff hordered hroot).mpr ⟨r, entry, hvisits, rfl⟩,
      Source.not_isReadable_iff.mpr hentry⟩

theorem exists_check_iff : (∃ r, p.check t = .ok r) ↔ ∃ links, p.scan t = .ok links := by
  refine ⟨fun ⟨r, hr⟩ => ?_, fun ⟨links, hscan⟩ => ⟨_, check_of_scan hscan⟩⟩
  obtain ⟨links, hscan, -⟩ := bind_eq_ok_iff.mp hr
  exact ⟨links, hscan⟩

theorem exists_listLinks_iff {json verbose : Bool} :
    (∃ r, p.listLinks t documents json verbose = .ok r) ↔
      ∃ links, p.linksOf t documents = .ok links := by
  refine ⟨fun ⟨r, hr⟩ => ?_, fun ⟨links, hlinks⟩ => ?_⟩
  · obtain ⟨links, hlinks, -⟩ := bind_eq_ok_iff.mp hr
    exact ⟨links, hlinks⟩
  · rw [listLinks, hlinks]
    exact ⟨_, rfl⟩

theorem exit_of_listLinks {json verbose : Bool} {r : Report}
    (h : p.listLinks t documents json verbose = .ok r) : r.exit ≠ .failed := by
  obtain ⟨links, -, hr⟩ := bind_eq_ok_iff.mp h
  cases hr
  nofun

theorem exists_scanDocument_iff {document : Text} :
    (∃ links, p.scanDocument t document = .ok links) ↔
    ∃ content, t.readText? (p.root.join document) = .ok (some content) := by
  constructor
  · rintro ⟨links, h⟩
    obtain ⟨content?, hread, h⟩ := bind_eq_ok_iff.mp h
    cases content? with
    | none => contradiction
    | some content => exact ⟨content, hread⟩
  · rintro ⟨content, hread⟩
    rw [scanDocument, hread]
    exact ⟨_, rfl⟩

theorem exists_linksOf_iff (hne : documents ≠ []) : (∃ links, p.linksOf t documents = .ok links) ↔
    ∀ d ∈ documents, ∃ content, t.readText? (p.root.join d) = .ok (some content) := by
  have hempty : ¬ documents.isEmpty = true := mt List.isEmpty_iff.mp hne
  simp only [linksOf, if_neg hempty, map_eq_ok_iff, ← exists_scanDocument_iff,
    ← exists_mapM_eq_ok_iff]
  constructor
  · rintro ⟨_, found, hfound, -⟩
    exact ⟨found, hfound⟩
  · rintro ⟨found, hfound⟩
    exact ⟨_, found, hfound, rfl⟩

end Project

/-- A check and a listing of a project that can be loaded fail just if one of the entries that are
named like a document and covered is a directory, is a file that is not UTF-8 or has a path that is
too long. A listing of named documents fails just if one of them cannot be read. -/
theorem scan_fails_iff (hload : Project.load root t = .ok p) (hordered : t.Ordered)
    (hroot : t.get? (FileTree.routeOf root) = some .directory) (json verbose : Bool) :
    let code (c : Command) := ((⟨c, verbose⟩ : Invocation).run root t).report.exit.code
    let stops := ∃ r entry, p.Visits t r entry ∧
      (entry = .directory ∨ (∃ bytes, entry = .file (.binary bytes)) ∨
        FileTree.pathLimit < (root.along r).text.byteLength)
    (code .check = 3 ↔ stops) ∧ (code (.links [] json) = 3 ↔ stops) ∧
      ∀ documents, documents ≠ [] → (code (.links documents json) = 3 ↔
        ∃ d ∈ documents, ∀ content, t.readText? (root.join d) ≠ .ok (some content)) := by
  intro code stops
  obtain ⟨c, -, rfl⟩ := map_eq_ok_iff.mp hload
  have hstops := Project.not_exists_scan_iff (p := ⟨root, c⟩) hordered hroot
  have hlinks (documents : List Text) : code (.links documents json) = 3 ↔
      ¬ ∃ links, Project.linksOf ⟨root, c⟩ t documents = .ok links := by
    simp only [code, run_links hload]
    rw [Report.code_ofResult fun r hr => Project.exit_of_listLinks hr, Project.exists_listLinks_iff]
  refine ⟨?_, (hlinks []).trans hstops, fun documents hne => (hlinks documents).trans ?_⟩
  · simp only [code, run_check hload]
    rw [Report.code_ofResult fun r hr => Project.exit_of_check hr, Project.exists_check_iff, hstops]
  · rw [Project.exists_linksOf_iff hne]
    simp only [not_forall, exists_prop, not_exists]

/-- A directory that is named like a document ends a check and a listing, and does not end the
listing of another document. -/
theorem scan_fails_at_directory :
    let t : FileTree := ⟨[(["ws"], .directory), (["ws", "a.md"], .file (.text "[x](b.md)\n")),
      (["ws", "b.md"], .file (.text "")), (["ws", "old.md"], .directory)]⟩
    let p : Project := ⟨⟨"/ws"⟩, {}⟩
    let code (c : Command) := ((⟨c, false⟩ : Invocation).run ⟨"/ws"⟩ t).report.exit.code
    Project.load ⟨"/ws"⟩ t = .ok p ∧ t.Ordered ∧
      t.get? (FileTree.routeOf ⟨"/ws"⟩) = some .directory ∧
      code .check = 3 ∧ code (.links [] false) = 3 ∧ code (.links ["a.md"] false) ≠ 3 := by
  intro t p code
  have hload : Project.load ⟨"/ws"⟩ t = .ok p := by decide +kernel
  have hordered : t.Ordered := by decide +kernel
  have hroot : t.get? (FileTree.routeOf ⟨"/ws"⟩) = some .directory := by decide +kernel
  have hvisits : p.Visits t ["old.md"] .directory :=
    ⟨by decide +kernel, ⟨"old.md", by decide +kernel, by decide⟩, by decide +kernel, by decide⟩
  have hread : t.readText? (Path.join ⟨"/ws"⟩ "a.md") = .ok (some "[x](b.md)\n") := by
    decide +kernel
  obtain ⟨hcheck, hlinks, hnamed⟩ := scan_fails_iff hload hordered hroot false false
  refine ⟨hload, hordered, hroot, hcheck.mpr ⟨_, _, hvisits, .inl rfl⟩,
    hlinks.mpr ⟨_, _, hvisits, .inl rfl⟩, ?_⟩
  rw [Ne, hnamed ["a.md"] (by simp)]
  rintro ⟨d, hd, hunread⟩
  rw [List.mem_singleton.mp hd] at hunread
  exact hunread _ hread

end Shorthand
