import Shorthand.Proofs.Command.Check

/-!
Watching never works on stale state. What it tells after a change depends on the tree at that time
alone, and it is what a check started then would tell.
-/

namespace Shorthand
namespace Watch

variable {root : Path} {t : FileTree} {s : Session} {changes : List FileChange}

/-- A check that watching makes differs from one of its own only in how an error is logged. -/
theorem recheck_eq_check (root : Path) (t : FileTree) (verbose : Bool) :
    let r := ((⟨.check, verbose⟩ : Invocation).run root t).report
    (recheck root t).output = r.output ∧ (recheck root t).exit = r.exit := by
  simp only [recheck, Invocation.run, inspect]
  cases (Project.load root t).bind fun p => p.check t with
  | ok r => exact ⟨rfl, rfl⟩
  | error e => exact ⟨rfl, rfl⟩

/-- The error of a check goes to the log. -/
theorem recheck_output_of_failed (h : (recheck root t).exit = .failed) :
    (recheck root t).output = [] := by
  unfold recheck at h ⊢
  cases hcheck : (Project.load root t).bind fun p => p.check t with
  | error e => rfl
  | ok r =>
      obtain ⟨p, -, hr⟩ := bind_eq_ok_iff.mp hcheck
      rw [hcheck] at h
      exact absurd h (Project.exit_of_check hr)

/-- The first check is made before the project is loaded to be watched. -/
theorem start_output (root : Path) (t : FileTree) :
    (start root t).1.output = (recheck root t).output := by
  unfold start
  cases watchedDirectories root t <;> rfl

theorem root_of_start (h : Session.start root t = .ok s) : s.root = root := by
  obtain ⟨dirs, -, rfl⟩ := map_eq_ok_iff.mp h
  rfl

theorem start_goes_on (h : Session.start root t = .ok s) : (start root t).2 = true := by
  obtain ⟨dirs, hdirs, -⟩ := map_eq_ok_iff.mp h
  rw [start, hdirs]

/-- One change: the session keeps nothing of the tree. -/
theorem serve_cons {c : FileChange} (h : s.notices c = true) (changes : List FileChange) :
    s.serve t (c :: changes) = some (change s.root (t.changed c)) ::
      Session.serve { s with exit := (change s.root (t.changed c)).exit } (t.changed c)
        changes := by
  rw [Session.serve, if_pos h]
  rfl

/-- A number of changes: each is answered from the tree that it leaves. -/
theorem serve_getElem? (h : ∀ c ∈ changes, s.notices c = true) {k : Nat} (hk : k < changes.length) :
    (s.serve t changes)[k]? =
      some (some (change s.root ((changes.take (k + 1)).foldl FileTree.changed t))) := by
  induction changes generalizing s t k with
  | nil => contradiction
  | cons c changes ih =>
      obtain ⟨hc, hchanges⟩ := List.forall_mem_cons.mp h
      rw [serve_cons hc, List.take_succ_cons, List.foldl_cons]
      cases k with
      | zero => rfl
      | succ k =>
          rw [List.getElem?_cons_succ]
          exact ih (s := { s with exit := (change s.root (t.changed c)).exit }) hchanges
            (Nat.lt_of_succ_lt_succ hk)

theorem length_serve (s : Session) (t : FileTree) (changes : List FileChange) :
    (s.serve t changes).length = changes.length := by
  induction changes generalizing s t with
  | nil => rfl
  | cons c changes ih =>
      rw [Session.serve]
      split <;> exact congrArg Nat.succ (ih _ _)

/-- Once watching has started it answers every change, and each time it ends and puts out what a
check does that is started on the tree as it is then. Of a check that ends with an error there is no
output, and the next change is answered all the same. -/
theorem watching_is_never_stale (hstart : Session.start root t = .ok s)
    (hnotices : ∀ c ∈ changes, s.notices c = true) (verbose : Bool) :
    let fresh (now : FileTree) := ((⟨.check, verbose⟩ : Invocation).run root now).report
    (start root t).2 = true ∧ (start root t).1.output = (fresh t).output ∧
      (s.serve t changes).length = changes.length ∧
      ∀ k < changes.length, ∃ r, (s.serve t changes)[k]? = some (some r) ∧
        r.output = (fresh ((changes.take (k + 1)).foldl FileTree.changed t)).output ∧
        r.exit = (fresh ((changes.take (k + 1)).foldl FileTree.changed t)).exit ∧
        ((fresh ((changes.take (k + 1)).foldl FileTree.changed t)).exit = .failed →
          r.output = []) := by
  intro fresh
  refine ⟨start_goes_on hstart, (start_output root t).trans (recheck_eq_check root t verbose).1,
    length_serve s t changes, fun k hk => ⟨_, serve_getElem? hnotices hk, ?_⟩⟩
  rw [root_of_start hstart]
  obtain ⟨houtput, hexit⟩ :=
    recheck_eq_check root ((changes.take (k + 1)).foldl FileTree.changed t) verbose
  exact ⟨houtput, hexit, fun hfailed => recheck_output_of_failed (hexit.trans hfailed)⟩

/-- The configuration is spoiled, the missing file written and the configuration removed. -/
theorem watching_is_never_stale_spoiled_configuration :
    let t : FileTree := ⟨[(["ws"], .directory), (["ws", "a.md"], .file (.text "[x](b)\n"))]⟩
    let s : Session := ⟨⟨"/ws"⟩, [⟨"/ws"⟩], .broken⟩
    let changes : List FileChange := [⟨["ws", ".colonlink.toml"], some (.text "namespaces")⟩,
      ⟨["ws", "b"], some (.text [])⟩, ⟨["ws", ".colonlink.toml"], none⟩]
    Session.start ⟨"/ws"⟩ t = .ok s ∧ (∀ c ∈ changes, s.notices c = true) ∧
      (start ⟨"/ws"⟩ t).1.output = "MISSING     a.md:1  [x](b) -> b\n\n1 broken\n" ∧
      (∃ r : Report, (s.serve t changes)[1]? = some (some r) ∧ r.output = []) ∧
      ∃ r : Report, (s.serve t changes)[2]? = some (some r) ∧
        r.output = "All 1 links resolve\n" := by
  intro t s changes
  have hstart : Session.start ⟨"/ws"⟩ t = .ok s := by decide +kernel
  have hnotices : ∀ c ∈ changes, s.notices c = true := by decide
  obtain ⟨-, hfirst, -, hserve⟩ := watching_is_never_stale hstart hnotices false
  obtain ⟨r₁, hr₁, -, -, hfailed⟩ := hserve 1 (by decide)
  obtain ⟨r₂, hr₂, houtput, -, -⟩ := hserve 2 (by decide)
  refine ⟨hstart, hnotices, hfirst.trans ?_, ⟨r₁, hr₁, hfailed ?_⟩, r₂, hr₂, houtput.trans ?_⟩
  all_goals decide +kernel

end Watch
end Shorthand
