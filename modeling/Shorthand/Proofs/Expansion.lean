import Shorthand.Placeholder
import Shorthand.Proofs.Namespace.Table
import Shorthand.Proofs.Scheme
import Shorthand.Proofs.Text

/-!
Wrapped targets and their canonical form. A wrapper that stands for a namespace and the
namespace's own prefix lead to the same expanded target, for the empty wrapper by way of the
placeholder that takes in the label.
-/

namespace Shorthand

namespace Wrapper

theorem payload?_wrap (w : Wrapper) (payload : Text) :
    w.payload? (w.wrap payload) = some payload := by
  simp [payload?, wrap]

theorem eq_wrap_of_payload? {w : Wrapper} {target payload : Text}
    (h : w.payload? target = some payload) : target = w.wrap payload := by
  cases target with
  | nil => contradiction
  | cons c rest =>
      rw [payload?] at h
      split at h
      · rename_i hc
        rw [wrap, List.append_eq_of_isSuffixOf?_eq_some h, hc]
      · contradiction

theorem payload?_eq_none {w : Wrapper} {target : Text} (h : target.head? ≠ some w.opener) :
    w.payload? target = none := by
  cases target with
  | nil => rfl
  | cons c rest => exact if_neg fun hc => h (by rw [hc, List.head?_cons])

theorem payload?_wrap_of_ne {v w : Wrapper} (h : v ≠ w) (payload : Text) :
    v.payload? (w.wrap payload) = none := by
  apply payload?_eq_none
  cases v <;> cases w <;> simp_all [wrap, opener]

end Wrapper

namespace Rule

/-- What claims a wrapped target depends on the payload alone. -/
theorem of?_wrap (w : Wrapper) (payload : Text) :
    of? (w.wrap payload) =
      if payload = [] then some (.emptyPlaceholder w)
      else if payload = ['.'] then some (.selfDirectory w)
      else if payload = ['!'] then some (.sentinel w)
      else some (.wrapped w) := by
  by_cases hnil : payload = []
  · subst hnil
    cases w <;> rfl
  by_cases hdot : payload = ['.']
  · subst hdot
    cases w <;> rfl
  by_cases hbang : payload = ['!']
  · subst hbang
    cases w <;> rfl
  have hother : Wrapper.payload? .brackets (Wrapper.wrap .parens payload) = none :=
    Wrapper.payload?_wrap_of_ne (by decide) payload
  cases w <;>
    simp [of?, all, Wrapper.all, applies, Wrapper.payload?_wrap, hother, hnil, hdot, hbang]

/-- Every rule of a family claims wrapped payloads only. -/
theorem exists_of_applies {rule : Rule} {w : Wrapper} {target : Text} (hw : rule.wrapper? = some w)
    (h : rule.applies target = true) : ∃ payload, target = w.wrap payload := by
  cases rule with
  | emptyPlaceholder v | selfDirectory v | sentinel v =>
      cases hw
      exact ⟨_, Wrapper.eq_wrap_of_payload? (of_decide_eq_true h)⟩
  | wrapped v =>
      cases hw
      obtain ⟨payload, hpayload⟩ := Option.isSome_iff_exists.mp h
      exact ⟨payload, Wrapper.eq_wrap_of_payload? hpayload⟩
  | emptyBraces => contradiction

theorem of?_eq_none {target : Text} (h : ∀ c ∈ ['[', '(', '{'], target.head? ≠ some c) :
    of? target = none := by
  have hb : Wrapper.payload? .brackets target = none := Wrapper.payload?_eq_none (h '[' (by simp))
  have hp : Wrapper.payload? .parens target = none := Wrapper.payload?_eq_none (h '(' (by simp))
  have hbraces : target ≠ ['{', '}'] := fun he => h '{' (by simp) (by rw [he]; rfl)
  simp [of?, all, Wrapper.all, applies, hb, hp, hbraces]

end Rule

/-- No delimiter opens a name. -/
theorem Namespace.IsName.head?_ne_delimiter {name : Text} (h : IsName name) (rest : Text) :
    ∀ c ∈ ['[', '(', '{'], (name ++ rest).head? ≠ some c := by
  intro c hc
  apply h.head? rest
  simp only [List.mem_cons, List.not_mem_nil, or_false] at hc
  rcases hc with rfl | rfl | rfl <;> decide

theorem Namespace.IsName.ne_wrap {name : Text} (h : IsName name) (w : Wrapper)
    (rest payload : Text) :
    name ++ rest ≠ w.wrap payload := by
  intro hwrap
  exact h.head? rest w.isNameChar_opener (by rw [hwrap]; rfl)

namespace NamespaceTable

variable {t : NamespaceTable} {w : Wrapper} {ns : Text}

/-- Everything that an expansion can come to, whatever the table: a target that no rule claims
stays, an empty pair of delimiters takes in a colon, and any other wrapped target goes to the
namespace of its wrapper. -/
theorem expand_cases (target : Text) :
    (∀ t : NamespaceTable, t.expand target = target) ∨
      (∃ w : Wrapper, target = w.wrap [] ∧ ∀ t : NamespaceTable, t.expand target = w.wrap [':']) ∨
      (∀ t : NamespaceTable, t.expand target = ['{', ':', '}']) ∨
      ∃ (w : Wrapper) (wrapped payload : Text), target = w.wrap wrapped ∧
        ∀ t : NamespaceTable, t.expand target = t.inWrapper w payload target := by
  cases hrule : Rule.of? target with
  | none => exact .inl fun t => by rw [expand, hrule]
  | some rule =>
      have hexpand (t : NamespaceTable) : t.expand target = t.expandBy target rule := by
        rw [expand, hrule]
      have happlies : rule.applies target = true := List.find?_some hrule
      have hwrapped {w : Wrapper} (hw : rule.wrapper? = some w) :=
        Rule.exists_of_applies hw happlies
      cases rule with
      | emptyPlaceholder w =>
          have hnil := Wrapper.eq_wrap_of_payload? (of_decide_eq_true happlies)
          exact .inr (.inl ⟨w, hnil, hexpand⟩)
      | selfDirectory w | sentinel w | wrapped w =>
          obtain ⟨wrapped, htarget⟩ := hwrapped rfl
          exact .inr (.inr (.inr ⟨w, wrapped, _, htarget, hexpand⟩))
      | emptyBraces => exact .inr (.inr (.inl hexpand))

theorem expand_wrap_nil (t : NamespaceTable) (w : Wrapper) :
    t.expand (w.wrap []) = w.wrap [':'] := by
  simp [expand, Rule.of?_wrap, expandBy]

theorem expand_wrap_dot (hw : t.wrapperNamespace? w = some ns) :
    t.expand (w.wrap ['.']) = ns ++ [':', '.', '/', ':'] := by
  simp [expand, Rule.of?_wrap, expandBy, inWrapper, hw]

theorem expand_wrap_bang (hw : t.wrapperNamespace? w = some ns) :
    t.expand (w.wrap ['!']) = ns ++ [':', '!', ':'] := by
  simp [expand, Rule.of?_wrap, expandBy, inWrapper, hw]

theorem expand_wrap (hw : t.wrapperNamespace? w = some ns) {payload : Text} (hnil : payload ≠ [])
    (hdot : payload ≠ ['.']) (hbang : payload ≠ ['!']) :
    t.expand (w.wrap payload) = ns ++ ':' :: payload := by
  simp [expand, Rule.of?_wrap, expandBy, inWrapper, hw, hnil, hdot, hbang, Wrapper.payload?_wrap]

/-- A target that starts with no delimiter matches no rule. -/
theorem expand_eq_self (t : NamespaceTable) {target : Text}
    (h : ∀ c ∈ ['[', '(', '{'], target.head? ≠ some c) : t.expand target = target := by
  simp [expand, Rule.of?_eq_none h]

theorem expand_name (t : NamespaceTable) (h : Namespace.IsName ns) (rest : Text) :
    t.expand (ns ++ rest) = ns ++ rest :=
  t.expand_eq_self (h.head?_ne_delimiter rest)

theorem expandTarget_congr {a b : Text} (h : t.expand a = t.expand b) (options : Options)
    (label : Text) : t.expandTarget options a label = t.expandTarget options b label := by
  simp only [expandTarget, h]

theorem expandPlaceholder_wrap (t : NamespaceTable) (w : Wrapper) (payload : Text) :
    t.expandPlaceholder (w.wrap [':']) (w.wrap payload) =
      t.inWrapper w payload (w.wrap payload) := by
  have hfind : Wrapper.all.find? (fun v =>
      decide (w.wrap [':'] = v.wrap [':']) && (Rule.wrapped v).applies (w.wrap payload)) =
        some w := by
    cases w with
    | brackets => simp [Wrapper.all, Rule.applies, Wrapper.payload?_wrap]
    | parens =>
        have hne : Wrapper.wrap .parens [':'] ≠ Wrapper.wrap .brackets [':'] := by decide
        simp [Wrapper.all, Rule.applies, Wrapper.payload?_wrap, hne]
  simp [expandPlaceholder, hfind, expandBy, Wrapper.payload?_wrap]

theorem expandPlaceholder_eq_self {expanded : Text} (h : ∀ v : Wrapper, expanded ≠ v.wrap [':'])
    (substituted : Text) : t.expandPlaceholder expanded substituted = substituted := by
  simp [expandPlaceholder, Wrapper.all, h]

/-- In a target that no rule claims only a colon is rewritten. -/
theorem expandTarget_unclaimed (t : NamespaceTable) {target : Text} (hrule : Rule.of? target = none)
    (options : Options) (label : Text) :
    t.expandTarget options target label = t.substituteColon options target label := by
  have hplain : ∀ w : Wrapper, target ≠ w.wrap [':'] := by
    intro w hw
    rw [hw, Rule.of?_wrap] at hrule
    contradiction
  have hexpand : t.expand target = target := by rw [expand, hrule]
  rw [expandTarget, hexpand, expandPlaceholder_eq_self hplain]

theorem expandTarget_eq_substituteColon (t : NamespaceTable) {target : Text}
    (h : ∀ c ∈ ['[', '(', '{'], target.head? ≠ some c) (options : Options) (label : Text) :
    t.expandTarget options target label = t.substituteColon options target label :=
  t.expandTarget_unclaimed (Rule.of?_eq_none h) options label

/-- The placeholder of a wrapper takes in the label. The first colon is its own, so only the
delimiter could be a namespace in front of it. -/
theorem substituteColon_placeholder (t : NamespaceTable) (options : Options) (w : Wrapper)
    (label : Text) : t.substituteColon options (w.wrap [':']) label =
      if t.roots.has [w.opener] then w.wrap [':'] else w.wrap label := by
  have hscheme : schemeLength? (w.wrap [':']) = none := by cases w <;> decide
  have hfirst : Text.splitFirst? ':' (w.wrap [':']) = some ([w.opener], [w.closer]) := by
    cases w <;> rfl
  simp only [substituteColon, hscheme, splitPrefix?, hfirst]
  cases t.roots.has [w.opener] <;> cases w <;> rfl

/-- The placeholder takes in the label as it is, and then the namespace of its wrapper. -/
theorem expandTarget_wrap_nil (ht : t.WellFormed) (hw : t.wrapperNamespace? w = some ns)
    (options : Options) (label : Text) :
    t.expandTarget options (w.wrap []) label = ns ++ ':' :: label := by
  rw [expandTarget, expand_wrap_nil, substituteColon_placeholder, if_neg (ht.not_has_opener w),
    expandPlaceholder_wrap, inWrapper, hw]

/-- An empty payload is the label. -/
theorem expandTarget_name_colon (ht : t.WellFormed) (hns : t.roots.has ns = true)
    (options : Options) (label : Text) :
    t.expandTarget options (ns ++ [':']) label = ns ++ ':' :: label := by
  have hname := ht.isName hns
  have hslash : '/' ∉ ns ++ [':'] := by simpa using hname.not_mem (c := '/') (by decide)
  have hfirst : Text.splitFirst? ':' (ns ++ [':']) = some (ns, []) :=
    Text.splitFirst?_append (hname.not_mem (by decide)) []
  rw [t.expandTarget_eq_substituteColon (hname.head?_ne_delimiter [':'])]
  simp only [substituteColon, schemeLength?_eq_none_of_not_mem (by simp) hslash,
    splitPrefix?, hfirst, hns, if_true]

end NamespaceTable
end Shorthand
