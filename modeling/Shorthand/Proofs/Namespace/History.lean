import Shorthand.Proofs.Namespace.Table
import Shorthand.Proofs.Placeholder

/-!
Histories of tables. Calls follow each other on one table, and some of them fail. Whatever the calls
were, the table is one that successful calls alone could have made, and so it is well-formed.
-/

namespace Shorthand

/-- The calls that change a table. -/
inductive TableCall where
  | insert (name root : Text)
  | setWrapper (w : Wrapper) (name : Text)
  | withRootDefault (root : Text)
  deriving DecidableEq, Repr

namespace NamespaceTable

variable {t start : NamespaceTable} {target : Text}

/-- The answer to a call: the changed table, or why there is none. -/
def call (t : NamespaceTable) : TableCall → Except Error NamespaceTable
  | .insert name root => t.insert name root
  | .setWrapper w name => t.setWrapper w name
  | .withRootDefault root => .ok (t.withRootDefault root)

/-- The table that a call leaves for the next one. -/
def afterCall (t : NamespaceTable) (c : TableCall) : NamespaceTable :=
  match t.call c with
  | .ok t' => t'
  | .error _ => t

def afterCalls (start : NamespaceTable) (calls : List TableCall) : NamespaceTable :=
  calls.foldl afterCall start

theorem afterCall_of_ok {t' : NamespaceTable} {c : TableCall} (h : t.call c = .ok t') :
    t.afterCall c = t' := by
  rw [afterCall, h]

theorem afterCall_of_error {c : TableCall} {e : Error} (h : t.call c = .error e) :
    t.afterCall c = t := by
  rw [afterCall, h]

theorem afterCalls_concat (start : NamespaceTable) (calls : List TableCall) (c : TableCall) :
    start.afterCalls (calls ++ [c]) = (start.afterCalls calls).afterCall c :=
  List.foldl_concat ..

theorem Reachable.call (h : t.Reachable) {t' : NamespaceTable} {c : TableCall}
    (hcall : t.call c = .ok t') : t'.Reachable := by
  cases c with
  | insert name root => exact h.insert hcall
  | setWrapper w name => exact h.setWrapper hcall
  | withRootDefault root =>
      cases hcall
      exact h.withRootDefault root

theorem Reachable.afterCall (h : t.Reachable) (c : TableCall) : (t.afterCall c).Reachable := by
  cases hcall : t.call c with
  | ok t' =>
      rw [afterCall_of_ok hcall]
      exact h.call hcall
  | error e =>
      rw [afterCall_of_error hcall]
      exact h

theorem Reachable.afterCalls (h : start.Reachable) (calls : List TableCall) :
    (start.afterCalls calls).Reachable := by
  induction calls generalizing start with
  | nil => exact h
  | cons c calls ih => exact ih (h.afterCall c)

/-- Failing calls make no table that successful ones could not. -/
theorem reachable_iff_exists_calls :
    t.Reachable ↔ ∃ calls, t = default.afterCalls calls ∨ t = empty.afterCalls calls := by
  constructor
  · intro h
    -- A successful call is the last one of a longer history from the same start.
    have extend {t t' : NamespaceTable} {c : TableCall} (hcall : t.call c = .ok t') :
        (∃ calls, t = default.afterCalls calls ∨ t = empty.afterCalls calls) →
          ∃ calls, t' = default.afterCalls calls ∨ t' = empty.afterCalls calls := by
      intro ⟨calls, hstart⟩
      refine ⟨calls ++ [c], ?_⟩
      rw [afterCalls_concat, afterCalls_concat]
      cases hstart with
      | inl h => exact .inl (h ▸ afterCall_of_ok hcall).symm
      | inr h => exact .inr (h ▸ afterCall_of_ok hcall).symm
    induction h with
    | default => exact ⟨[], .inl rfl⟩
    | empty => exact ⟨[], .inr rfl⟩
    | insert _ hcall ih => exact extend (c := .insert _ _) hcall ih
    | setWrapper _ hcall ih => exact extend (c := .setWrapper _ _) hcall ih
    | withRootDefault root _ ih => exact extend (c := .withRootDefault root) rfl ih
  · intro ⟨calls, hstart⟩
    cases hstart with
    | inl h => exact h ▸ Reachable.default.afterCalls calls
    | inr h => exact h ▸ Reachable.empty.afterCalls calls

theorem splitPrefix?_eq_none_iff : t.splitPrefix? target = none ↔
    ∀ name payload, target = name ++ ':' :: payload → ':' ∉ name → ¬ t.roots.has name = true := by
  rw [Option.eq_none_iff_forall_ne_some]
  constructor
  · intro h name payload htarget hcolon hname
    rw [htarget] at h
    exact h (name, payload)
      (splitPrefix?_eq_some_iff.mpr ⟨Text.splitFirst?_append hcolon payload, hname⟩)
  · intro h ⟨name, payload⟩ hsplit
    obtain ⟨hfirst, hname⟩ := splitPrefix?_eq_some_iff.mp hsplit
    obtain ⟨htarget, hcolon⟩ := Text.exists_of_splitFirst? hfirst
    exact h name payload htarget hcolon hname

/-- No name starts with a delimiter, so a wrapped target is in no namespace. -/
theorem WellFormed.splitPrefix?_delimiter (h : t.WellFormed) {c : Char}
    (hc : Namespace.isNameChar c = false) (rest : Text) :
    t.splitPrefix? (c :: rest) = none := by
  refine splitPrefix?_eq_none_iff.mpr fun name payload htarget _ hname => ?_
  exact (h.isName hname).head? (':' :: payload) hc (by rw [← htarget]; rfl)

/-- Every table that a history leads to, failing calls included, has valid names that wrappers stand
for, is not touched by a call that fails, and finds a namespace in a target just where the text
before the first colon is registered. -/
theorem afterCalls_invariant (calls : List TableCall) (hstart : start = default ∨ start = empty) :
    let t := start.afterCalls calls
    (∀ name, t.roots.has name = true →
      name ≠ [] ∧ ∀ c ∈ name, c.isAlphanum = true ∨ c = '-' ∨ c = '_') ∧
    (∀ w name, t.wrapperNamespace? w = some name → t.roots.has name = true) ∧
    (∀ c e, t.call c = .error e → t.afterCall c = t) ∧
    (∀ name, t.roots.has name = true →
      ∀ payload, t.splitPrefix? (name ++ ':' :: payload) = some (name, payload)) ∧
    (∀ target, (∀ name payload, target = name ++ ':' :: payload → ':' ∉ name →
      ¬ t.roots.has name = true) → t.splitPrefix? target = none) ∧
    ∀ w : Wrapper, ∀ rest,
      t.splitPrefix? (w.opener :: rest) = none ∧ t.splitPrefix? (w.closer :: rest) = none := by
  intro t
  have hreachable : start.Reachable := by
    cases hstart with
    | inl h => exact h ▸ .default
    | inr h => exact h ▸ .empty
  have ht : t.WellFormed := (hreachable.afterCalls calls).wellFormed
  refine ⟨fun name hname => ?_, fun w name => ht.registered, fun c e => afterCall_of_error,
    fun name hname payload => ?_, fun target => splitPrefix?_eq_none_iff.mpr, fun w rest => ?_⟩
  · obtain ⟨hne, hchars⟩ := ht.isName hname
    refine ⟨hne, fun c hc => ?_⟩
    have hchar := hchars c hc
    simpa only [Namespace.isNameChar, Bool.or_eq_true, decide_eq_true_eq, or_assoc] using hchar
  · exact splitPrefix?_name (ht.isName hname) hname
  · constructor
    · exact ht.splitPrefix?_delimiter w.isNameChar_opener rest
    · exact ht.splitPrefix?_delimiter w.isNameChar_closer rest

theorem afterCalls_invariant_docs :
    let calls : List TableCall := [.insert "docs" "src/docs", .insert "my docs" "src",
      .setWrapper .parens "guides", .setWrapper .parens "docs", .withRootDefault "lib"]
    let t := default.afterCalls calls
    t.call (.setWrapper .brackets "guides") = .error (.unknownNamespace "guides") ∧
      t.afterCall (.setWrapper .brackets "guides") = t ∧
      t.wrapperNamespace? .parens = some "docs" ∧
      t.splitPrefix? "docs:a:b.md" = some (("docs" : Text), ("a:b.md" : Text)) ∧
      t.splitPrefix? "guides:a.md" = none := by
  intro calls t
  have hfails : t.call (.setWrapper .brackets "guides") = .error (.unknownNamespace "guides") := by
    decide
  obtain ⟨-, hwrappers, hkept, hsplit, hnone, -⟩ := afterCalls_invariant calls (.inl rfl)
  have hparens : t.wrapperNamespace? .parens = some "docs" := by decide
  refine ⟨hfails, hkept _ _ hfails, hparens, hsplit "docs" (hwrappers _ _ hparens) "a:b.md", ?_⟩
  refine hnone _ fun name payload htarget hcolon => ?_
  obtain ⟨rfl, -⟩ :=
    Text.eq_of_append_cons (a := "guides") (x := "a.md") (by decide) hcolon htarget
  decide

end NamespaceTable
end Shorthand
