import Mathlib.Data.List.Basic
import Shorthand.Text.Blank

/-!
Lines of a text. Each ends at its line feed, and neither the feed nor one carriage return before
it belongs to what the line says.
-/

namespace Shorthand
namespace Text

/-- What the lines of a text say, one after the other. -/
inductive HasLines : Text → List Text → Prop
  | nil : HasLines [] []
  | last {body : Text} : body ≠ [] → '\n' ∉ body → HasLines body [body]
  | feed {body rest : Text} {more : List Text} :
      '\n' ∉ body → body.getLast? ≠ some '\r' → HasLines rest more →
      HasLines (body ++ '\n' :: rest) (body :: more)
  | returnFeed {body rest : Text} {more : List Text} :
      '\n' ∉ body → HasLines rest more → HasLines (body ++ '\r' :: '\n' :: rest) (body :: more)

theorem lines_induction {motive : Text → Prop} (nil : motive [])
    (last : ∀ body, body ≠ [] → '\n' ∉ body → motive body)
    (feed : ∀ body rest, '\n' ∉ body → motive rest → motive (body ++ '\n' :: rest))
    (s : Text) : motive s := by
  induction hn : s.length using Nat.strongRecOn generalizing s with
  | _ n ih =>
      by_cases hs : '\n' ∈ s
      · obtain ⟨body, rest, rfl, hbody⟩ := List.eq_append_cons_of_mem hs
        refine feed body rest hbody (ih rest.length ?_ rest rfl)
        rw [← hn, List.length_append, List.length_cons]
        omega
      · cases s with
        | nil => exact nil
        | cons c s => exact last _ (List.cons_ne_nil c s) hs

theorem lines_last {body : Text} (hne : body ≠ []) (h : '\n' ∉ body) : lines body = [body] := by
  induction body with
  | nil => exact absurd rfl hne
  | cons c body ih =>
      simp only [List.mem_cons, not_or] at h
      rw [lines, if_neg (Ne.symm h.1)]
      cases body with
      | nil => rfl
      | cons d body => rw [ih (List.cons_ne_nil _ _) h.2]

theorem lines_feed {body : Text} (h : '\n' ∉ body) (rest : Text) :
    lines (body ++ '\n' :: rest) = (body ++ ['\n']) :: lines rest := by
  induction body with
  | nil => simp [lines]
  | cons c body ih =>
      simp only [List.mem_cons, not_or] at h
      rw [List.cons_append, lines, if_neg (Ne.symm h.1), ih h.2]
      rfl

theorem chomp_last {body : Text} (h : '\n' ∉ body) : chomp body = body := by
  have hnone : List.isSuffixOf? ['\n'] body = none := by
    rw [Option.eq_none_iff_forall_ne_some]
    intro start hs
    apply h
    rw [← List.append_eq_of_isSuffixOf?_eq_some hs]
    simp
  rw [chomp, hnone]

theorem chomp_feed (body : Text) :
    chomp (body ++ ['\n']) = (List.isSuffixOf? ['\r'] body).getD body := by
  have hsome : List.isSuffixOf? ['\n'] (body ++ ['\n']) = some body :=
    List.isSuffixOf?_eq_some_iff_append_eq.mpr rfl
  rw [chomp, hsome]

theorem chomp_plain_feed {body : Text} (h : body.getLast? ≠ some '\r') :
    chomp (body ++ ['\n']) = body := by
  have hnone : List.isSuffixOf? ['\r'] body = none := by
    rw [Option.eq_none_iff_forall_ne_some]
    intro start hs
    apply h
    rw [← List.append_eq_of_isSuffixOf?_eq_some hs, List.getLast?_concat]
  rw [chomp_feed, hnone, Option.getD_none]

theorem chomp_return_feed (body : Text) : chomp (body ++ ['\r', '\n']) = body := by
  have hsome : List.isSuffixOf? ['\r'] (body ++ ['\r']) = some body :=
    List.isSuffixOf?_eq_some_iff_append_eq.mpr rfl
  have happ : body ++ ['\r', '\n'] = (body ++ ['\r']) ++ ['\n'] := by simp
  rw [happ, chomp_feed, hsome, Option.getD_some]

theorem HasLines.eq_map_chomp {s : Text} {said : List Text} (h : HasLines s said) :
    said = s.lines.map chomp := by
  induction h with
  | nil => rfl
  | last hne hbody => rw [lines_last hne hbody, List.map_singleton, chomp_last hbody]
  | feed hbody hreturn _ ih =>
      rw [lines_feed hbody, List.map_cons, chomp_plain_feed hreturn, ih]
  | @returnFeed body rest _ hbody _ ih =>
      have hfeed : '\n' ∉ body ++ ['\r'] := by simpa using hbody
      have happ : body ++ '\r' :: '\n' :: rest = (body ++ ['\r']) ++ '\n' :: rest := by simp
      have hend : (body ++ ['\r']) ++ ['\n'] = body ++ ['\r', '\n'] := by simp
      rw [happ, lines_feed hfeed, List.map_cons, hend, chomp_return_feed, ih]

theorem hasLines_lines (s : Text) : HasLines s (s.lines.map chomp) := by
  induction s using lines_induction with
  | nil => exact .nil
  | last body hne hbody =>
      rw [lines_last hne hbody, List.map_singleton, chomp_last hbody]
      exact .last hne hbody
  | feed body rest hbody ih =>
      rw [lines_feed hbody, List.map_cons]
      by_cases hreturn : body.getLast? = some '\r'
      · obtain ⟨start, rfl⟩ := List.getLast?_eq_some_iff.mp hreturn
        rw [List.append_assoc, List.append_assoc]
        rw [List.singleton_append, List.singleton_append, chomp_return_feed]
        exact .returnFeed (fun h => hbody (List.mem_append_left _ h)) ih
      · rw [chomp_plain_feed hreturn]
        exact .feed hbody hreturn ih

theorem hasLines_iff {s : Text} {said : List Text} : HasLines s said ↔ said = s.lines.map chomp :=
  ⟨HasLines.eq_map_chomp, fun h => h ▸ hasLines_lines s⟩

theorem isBlank_of_mem_feed : ∀ c ∈ ['\n'], isBlank c = true :=
  List.forall_mem_singleton.mpr (by decide)

/-- What is cut from the end of a line is white space. -/
theorem exists_chomp_append (line : Text) :
    ∃ tail, (∀ c ∈ tail, isBlank c = true) ∧ line = line.chomp ++ tail := by
  cases hfeed : List.isSuffixOf? ['\n'] line with
  | none => exact ⟨[], by simp, by rw [chomp, hfeed, List.append_nil]⟩
  | some body =>
      rw [← List.append_eq_of_isSuffixOf?_eq_some hfeed]
      by_cases hreturn : body.getLast? = some '\r'
      · obtain ⟨start, rfl⟩ := List.getLast?_eq_some_iff.mp hreturn
        refine ⟨['\r', '\n'], ?_, ?_⟩
        · exact List.forall_mem_cons.mpr ⟨by decide, isBlank_of_mem_feed⟩
        · rw [List.append_assoc, List.singleton_append, chomp_return_feed]
      · exact ⟨['\n'], isBlank_of_mem_feed, by rw [chomp_plain_feed hreturn]⟩

end Text
end Shorthand
