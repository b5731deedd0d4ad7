import Shorthand.Command.Run
import Shorthand.Proofs.Fallible

/-!
Everything that a command on namespaces can come to. A command is refused and leaves the tree, or
it writes an edited configuration; renaming then loads that and goes through the documents.
-/

namespace Shorthand

variable {root : Path} {t : FileTree} {old new name : Text} {walk : Walk}

theorem addNamespace_cases (root : Path) (t : FileTree) (name path : Text) :
    let o := addNamespace root t name path
    (o.report.exit ≠ .success ∧ o.tree = t) ∨
      ∃ d edited, Namespace.nameFault? name = none ∧ configDocument root t = .ok d ∧
        d.addNamespace name path = .ok edited ∧ o.report.exit = .success ∧
        o.tree = putConfig root t edited := by
  intro o
  simp only [o]
  unfold addNamespace
  split
  · exact .inl ⟨nofun, rfl⟩
  · rename_i hname
    split
    · exact .inl ⟨nofun, rfl⟩
    · rename_i d hd
      split
      · rename_i edited hedit
        exact .inr ⟨d, edited, hname, hd, hedit, rfl, rfl⟩
      · exact .inl ⟨nofun, rfl⟩
      · exact .inl ⟨nofun, rfl⟩

theorem removeNamespace_cases (root : Path) (t : FileTree) (name : Text) (force : Bool) :
    let o := removeNamespace root t name force
    (o.report.exit ≠ .success ∧ o.tree = t) ∨
      ∃ p d edited, Project.load root t = .ok p ∧
        (force = false → p.countUses t name = .ok 0) ∧ configDocument root t = .ok d ∧
        d.removeNamespace name = .ok edited ∧ o.report.exit = .success ∧
        o.tree = putConfig root t edited := by
  intro o
  simp only [o]
  unfold removeNamespace
  simp only
  split
  · rename_i later hlater
    obtain ⟨p, hp, hlater⟩ := bind_eq_ok_iff.mp hlater
    have edited_of (h : (configDocument root t >>= fun d =>
        d.removeNamespace name >>= fun edited => pure (putConfig root t edited)) = .ok later) :
        ∃ d edited, configDocument root t = .ok d ∧ d.removeNamespace name = .ok edited ∧
          later = putConfig root t edited := by
      obtain ⟨d, hd, h⟩ := bind_eq_ok_iff.mp h
      obtain ⟨edited, hedit, h⟩ := bind_eq_ok_iff.mp h
      cases h
      exact ⟨d, edited, hd, hedit, rfl⟩
    cases force with
    | true =>
        obtain ⟨d, edited, hd, hedit, rfl⟩ := edited_of hlater
        exact .inr ⟨p, d, edited, hp, nofun, hd, hedit, rfl, rfl⟩
    | false =>
        obtain ⟨count, hcount, hlater⟩ := bind_eq_ok_iff.mp hlater
        by_cases hused : count > 0
        · rw [if_pos hused] at hlater
          contradiction
        · rw [if_neg hused] at hlater
          obtain ⟨d, edited, hd, hedit, rfl⟩ := edited_of hlater
          obtain rfl : count = 0 := Nat.eq_zero_of_not_pos hused
          exact .inr ⟨p, d, edited, hp, fun _ => hcount, hd, hedit, rfl, rfl⟩
  · exact .inl ⟨nofun, rfl⟩

/-- The configuration that renaming writes, if it is not refused. -/
def renamedConfig (root : Path) (t : FileTree) (old new : Text) : Except Error Toml.Document :=
  match Namespace.nameFault? new with
  | some reason => .error (.invalidNamespace new reason)
  | none => (configDocument root t).bind fun d => d.renameNamespace old new

theorem renamedConfig_eq_ok_iff {d : Toml.Document} : renamedConfig root t old new = .ok d ↔
    Namespace.nameFault? new = none ∧
      ((configDocument root t).bind fun d => d.renameNamespace old new) = .ok d := by
  unfold renamedConfig
  cases Namespace.nameFault? new with
  | some reason => exact ⟨nofun, nofun⟩
  | none => exact ⟨fun h => ⟨rfl, h⟩, fun h => h.2⟩

theorem renameNamespace_of_refused {e : Error} (h : renamedConfig root t old new = .error e)
    (verbose : Bool) : renameNamespace root t old new verbose walk = .ofError t e := by
  cases hname : Namespace.nameFault? new with
  | some reason =>
      simp only [renamedConfig, hname] at h
      cases h
      simp only [renameNamespace, hname]
  | none =>
      simp only [renamedConfig, hname] at h
      simp only [renameNamespace, hname, h]

theorem renameNamespace_of_unloadable {d : Toml.Document} {e : Error}
    (h : renamedConfig root t old new = .ok d)
    (hload : Config.load root (putConfig root t d) = .error e) (verbose : Bool) :
    renameNamespace root t old new verbose walk = .ofError (putConfig root t d) e := by
  obtain ⟨hname, hedit⟩ := renamedConfig_eq_ok_iff.mp h
  simp only [renameNamespace, hname, hedit, hload]

theorem renameNamespace_of_loaded {d : Toml.Document} {config : Config}
    (h : renamedConfig root t old new = .ok d)
    (hload : Config.load root (putConfig root t d) = .ok config) (verbose : Bool) (walk : Walk) :
    let o := renameNamespace root t old new verbose walk
    let done := config.retarget root old new walk (putConfig root t d)
    o.tree = done.tree ∧ (o.report.exit = .success ↔ done.error = none) := by
  intro o done
  obtain ⟨hname, hedit⟩ := renamedConfig_eq_ok_iff.mp h
  simp only [o, renameNamespace, hname, hedit, hload]
  simp only [done]
  cases (config.retarget root old new walk (putConfig root t d)).error with
  | some e => exact ⟨rfl, nofun, nofun⟩
  | none => exact ⟨rfl, fun _ => rfl, fun _ => rfl⟩

theorem error_renameNamespace_of_loaded {d : Toml.Document} {config : Config}
    (h : renamedConfig root t old new = .ok d)
    (hload : Config.load root (putConfig root t d) = .ok config) (verbose : Bool) :
    (renameNamespace root t old new verbose walk).report.error =
      (config.retarget root old new walk (putConfig root t d)).error := by
  obtain ⟨hname, hedit⟩ := renamedConfig_eq_ok_iff.mp h
  simp only [renameNamespace, hname, hedit, hload]
  cases (config.retarget root old new walk (putConfig root t d)).error <;> rfl

end Shorthand
