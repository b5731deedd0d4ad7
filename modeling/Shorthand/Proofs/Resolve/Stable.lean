import Mathlib.Data.List.Count
import Shorthand.Proofs.Expansion
import Shorthand.Proofs.Placeholder
import Shorthand.Proofs.Resolve.Protocol

/-!
Canonical forms as targets. Once a label without delimiters has taken the only colon behind the
marker of a target, there is nothing left to expand or to fill, and every other label leaves the
form as it is.
-/

namespace Shorthand

variable {t : NamespaceTable} {options : Options} {w : Wrapper} {target label before after : Text}

/-- The characters that a label must not bring for the result to be read the same way again. -/
def delimiters : List Char :=
  [':', '[', ']', '(', ')', '{', '}']

theorem Wrapper.opener_mem_delimiters (w : Wrapper) : w.opener ∈ delimiters := by
  cases w <;> decide

theorem Wrapper.closer_mem_delimiters (w : Wrapper) : w.closer ∈ delimiters := by
  cases w <;> decide

/-- A label without the delimiters stands between them. -/
theorem Wrapper.exists_of_append_eq_wrap {payload : Text} (hne : label ≠ [])
    (hopener : w.opener ∉ label) (hcloser : w.closer ∉ label)
    (h : before ++ (label ++ after) = w.wrap payload) :
    ∃ b a, before = w.opener :: b ∧ after = a ++ [w.closer] := by
  cases before with
  | nil =>
      obtain ⟨c, more, rfl⟩ := List.exists_cons_of_ne_nil hne
      rw [List.nil_append, List.cons_append, Wrapper.wrap] at h
      exact absurd (List.mem_cons.mpr (.inl (List.cons.inj h).1.symm)) hopener
  | cons c b =>
      rw [List.cons_append, Wrapper.wrap] at h
      obtain ⟨hc, hrest⟩ := List.cons.inj h
      have hafter : after ≠ [] := by
        intro hnil
        have hlast := congrArg List.getLast? hrest
        rw [hnil, List.append_nil, List.getLast?_concat, List.getLast?_append_of_ne_nil _ hne]
          at hlast
        exact hcloser (List.mem_of_getLast? hlast)
      have hlast : after.getLast? = some w.closer := by
        rw [← List.getLast?_append_of_ne_nil (b ++ label) hafter, List.append_assoc, hrest,
          List.getLast?_concat]
      obtain ⟨a, ha⟩ := List.getLast?_eq_some_iff.mp hlast
      exact ⟨b, a, by rw [hc], ha⟩

/-- With the only colon gone there is none. -/
theorem not_mem_spliceLastColon (hcount : target.count ':' ≤ 1) (hlabel : ':' ∉ label) :
    ':' ∉ spliceLastColon target 0 label := by
  by_cases hcolon : ':' ∈ target
  · obtain ⟨before, after, rfl, hbefore⟩ := List.eq_append_cons_of_mem hcolon
    have hafter : ':' ∉ after := by
      simp only [List.count_append, List.count_cons_self] at hcount
      exact List.not_mem_of_count_eq_zero (by omega)
    rw [spliceLastColon_split hafter]
    simp [hbefore, hlabel, hafter]
  · rwa [spliceLastColon_of_not_mem hcolon]

theorem spliceLastColon_ne_nil (hne : target ≠ []) (hlabel : label ≠ []) (floor : Nat) :
    spliceLastColon target floor label ≠ [] := by
  cases spliceLastColon_cases target floor with
  | inl hsame => rwa [hsame]
  | inr hput =>
      obtain ⟨before, after, -, -, hput⟩ := hput
      simp [hput, hlabel]

namespace NamespaceTable

/-- What comes after the marker of a protocol or a namespace; all of a target that has neither. -/
def behindMarker (t : NamespaceTable) (target : Text) : Text :=
  match schemeLength? target with
  | some marker => target.drop marker
  | none =>
      match t.splitPrefix? target with
      | some (_, payload) => payload
      | none => target

/-- A wrapper without a namespace is left alone. -/
theorem expand_wrap_unmapped (hw : t.wrapperNamespace? w = none) {payload : Text}
    (hne : payload ≠ []) : t.expand (w.wrap payload) = w.wrap payload := by
  rw [expand, Rule.of?_wrap, if_neg hne]
  by_cases hdot : payload = ['.']
  · simp [hdot, expandBy, inWrapper, hw]
  · by_cases hbang : payload = ['!']
    · simp [hbang, expandBy, inWrapper, hw]
    · simp [hdot, hbang, expandBy, inWrapper, hw]

/-- A wrapped text that expands to itself has no namespace to go to. -/
theorem wrapperNamespace?_of_expand_eq_self (ht : t.WellFormed) {payload : Text}
    (hcolon : ':' ∈ payload)
    (h : t.expand (w.wrap payload) = w.wrap payload) : t.wrapperNamespace? w = none := by
  cases hw : t.wrapperNamespace? w with
  | none => rfl
  | some ns =>
      have hne (other : Text) (hother : ':' ∉ other) : payload ≠ other :=
        fun heq => hother (heq ▸ hcolon)
      rw [expand_wrap hw (hne _ (by simp)) (hne _ (by decide)) (hne _ (by decide))] at h
      exact absurd h ((ht.isName (ht.registered hw)).ne_wrap w _ _)

/-- What is not a placeholder is expanded once. -/
theorem expand_expand (ht : t.WellFormed) (h : ∀ w : Wrapper, t.expand target ≠ w.wrap [':']) :
    t.expand (t.expand target) = t.expand target := by
  cases expand_cases target with
  | inl hsame => rw [hsame, hsame]
  | inr hchanged =>
      cases hchanged with
      | inl hempty =>
          obtain ⟨w, -, hplaceholder⟩ := hempty
          exact absurd (hplaceholder t) (h w)
      | inr hchanged =>
          cases hchanged with
          | inl hbraces =>
              rw [hbraces, expand, show Rule.of? ['{', ':', '}'] = none by decide]
          | inr hwrapped =>
              obtain ⟨w, wrapped, payload, -, hexpand⟩ := hwrapped
              cases hw : t.wrapperNamespace? w with
              | none =>
                  have hsame : t.expand target = target := by rw [hexpand, inWrapper, hw]
                  rw [hsame, hsame]
              | some ns =>
                  have hname : t.expand target = ns ++ ':' :: payload := by
                    rw [hexpand, inWrapper, hw]
                  rw [hname]
                  exact t.expand_name (ht.isName (ht.registered hw)) _

/-- Nothing becomes a shorthand by a label in the place of its colon. -/
theorem expand_put (ht : t.WellFormed) (hne : label ≠ []) (hfree : ∀ c ∈ delimiters, c ∉ label)
    (h : t.expand (before ++ ':' :: after) = before ++ ':' :: after) :
    t.expand (before ++ (label ++ after)) = before ++ (label ++ after) := by
  cases hrule : Rule.of? (before ++ (label ++ after)) with
  | none => rw [expand, hrule]
  | some rule =>
      have happlies : rule.applies (before ++ (label ++ after)) = true := List.find?_some hrule
      cases hfamily : rule.wrapper? with
      | none =>
          cases rule with
          | emptyPlaceholder | selfDirectory | sentinel | wrapped => contradiction
          | emptyBraces =>
              have hbraces : before ++ (label ++ after) = ['{', '}'] := of_decide_eq_true happlies
              obtain ⟨c, more, rfl⟩ := List.exists_cons_of_ne_nil hne
              have hc : c ∈ ['{', '}'] := by simp [← hbraces]
              exact absurd List.mem_cons_self
                (hfree c (List.mem_append_right [':', '[', ']', '(', ')'] hc))
      | some w =>
          obtain ⟨payload, hpayload⟩ := Rule.exists_of_applies hfamily happlies
          obtain ⟨b, a, rfl, rfl⟩ := Wrapper.exists_of_append_eq_wrap hne
            (hfree _ w.opener_mem_delimiters) (hfree _ w.closer_mem_delimiters) hpayload
          have hwrap : w.opener :: b ++ ':' :: (a ++ [w.closer]) = w.wrap (b ++ ':' :: a) := by
            simp [Wrapper.wrap]
          have hput : w.opener :: b ++ (label ++ (a ++ [w.closer])) =
              w.wrap (b ++ (label ++ a)) := by
            simp [Wrapper.wrap]
          rw [hwrap] at h
          rw [hput]
          exact expand_wrap_unmapped (wrapperNamespace?_of_expand_eq_self ht (by simp) h)
            (by simp [hne])

/-- The forms with nothing left to expand and no colon that a label could take. -/
inductive IsSettled (t : NamespaceTable) (options : Options) : Text → Prop
  | url {scheme rest : Text} : IsScheme scheme → (options.urlPlaceholders = true → ':' ∉ rest) →
      IsSettled t options (scheme ++ ':' :: '/' :: '/' :: rest)
  | named {name payload : Text} : t.roots.has name = true → payload ≠ [] → ':' ∉ payload →
      IsSettled t options (name ++ ':' :: payload)
  | plain {target : Text} : t.expand target = target → ':' ∉ target → IsSettled t options target

/-- No label changes a settled form. -/
theorem IsSettled.expandTarget_eq_self (ht : t.WellFormed) (h : IsSettled t options target)
    (label : Text) : t.expandTarget options target label = target := by
  have url {scheme rest : Text} (hscheme : IsScheme scheme)
      (hrest : options.urlPlaceholders = true → ':' ∉ rest) :
      t.expandTarget options (scheme ++ ':' :: '/' :: '/' :: rest) label =
        scheme ++ ':' :: '/' :: '/' :: rest := by
    rw [t.expandTarget_scheme options hscheme]
    split
    · rename_i hon
      rw [spliceLastColon_of_not_mem (hrest hon)]
    · rfl
  cases h with
  | url hscheme hrest => exact url hscheme hrest
  | @named name payload hn hne hcolon =>
      have hname := ht.isName hn
      by_cases hurl : IsScheme name ∧ ['/', '/'] <+: payload
      · -- The name of the namespace is read as a scheme.
        obtain ⟨hscheme, rest, rfl⟩ := hurl
        exact url hscheme fun _ hrest => hcolon (List.mem_append_right _ hrest)
      · rw [t.expandTarget_eq_substituteColon (hname.head?_ne_delimiter _),
          substituteColon_name hname hn (schemeLength?_name hname hurl), filled, if_neg hne,
          spliceLastColon_of_not_mem hcolon]
  | plain hexpand hcolon =>
      have hplain (v : Wrapper) : target ≠ v.wrap [':'] := by
        intro heq
        simp [heq, Wrapper.wrap] at hcolon
      have hscheme := schemeLength?_eq_none_of_not_mem List.mem_cons_self hcolon
      rw [expandTarget, hexpand, expandPlaceholder_eq_self hplain]
      simp only [substituteColon, hscheme, splitPrefix?, Text.splitFirst?_eq_none hcolon,
        spliceLastColon_of_not_mem hcolon]

/-- The placeholder of a wrapper settles with the label in it. -/
theorem isSettled_placeholder (ht : t.WellFormed) (hne : label ≠ [])
    (hfree : ∀ c ∈ delimiters, c ∉ label) (h : t.expand target = w.wrap [':']) :
    IsSettled t options (t.expandTarget options target label) := by
  have hcolon := hfree ':' (by decide)
  rw [expandTarget, h, substituteColon_placeholder, if_neg (ht.not_has_opener w),
    expandPlaceholder_wrap, inWrapper]
  cases hw : t.wrapperNamespace? w with
  | some ns => exact .named (ht.registered hw) hne hcolon
  | none =>
      refine .plain (expand_wrap_unmapped hw hne) ?_
      cases w <;> simp [Wrapper.wrap, Wrapper.opener, Wrapper.closer, hcolon]

/-- An expanded target settles once the only colon behind its marker has given way to the label. -/
theorem isSettled_substituteColon (ht : t.WellFormed) (hne : label ≠ [])
    (hfree : ∀ c ∈ delimiters, c ∉ label) (hexpand : t.expand target = target)
    (hcount : (t.behindMarker target).count ':' ≤ 1) :
    IsSettled t options (t.substituteColon options target label) := by
  have hcolon := hfree ':' (by decide)
  cases hscheme : schemeLength? target with
  | some n =>
      obtain ⟨scheme, rest, hs, rfl, rfl⟩ := exists_of_schemeLength? hscheme
      have hrest : (scheme ++ ':' :: '/' :: '/' :: rest).drop (scheme.length + 3) = rest := by simp
      simp only [behindMarker, hscheme, hrest] at hcount
      rw [t.substituteColon_scheme options hs]
      refine .url hs fun hon => ?_
      rw [if_pos hon]
      exact not_mem_spliceLastColon hcount hcolon
  | none =>
      simp only [behindMarker, hscheme] at hcount
      cases hsplit : t.splitPrefix? target with
      | some split =>
          obtain ⟨name, payload⟩ := split
          obtain ⟨hfirst, hn⟩ := splitPrefix?_eq_some_iff.mp hsplit
          obtain ⟨rfl, -⟩ := Text.exists_of_splitFirst? hfirst
          rw [hsplit] at hcount
          rw [substituteColon_name (ht.isName hn) hn hscheme, filled]
          split
          · exact .named hn hne hcolon
          · rename_i hpayload
            exact .named hn (spliceLastColon_ne_nil hpayload hne 0)
              (not_mem_spliceLastColon hcount hcolon)
      | none =>
          rw [hsplit] at hcount
          simp only [substituteColon, hscheme, hsplit]
          refine .plain ?_ (not_mem_spliceLastColon hcount hcolon)
          cases spliceLastColon_cases target 0 with
          | inl hsame => rw [hsame, hexpand]
          | inr hput =>
              obtain ⟨before, after, rfl, -, hput⟩ := hput
              rw [hput]
              exact expand_put ht hne hfree hexpand

theorem isSettled_expandTarget (ht : t.WellFormed) (hne : label ≠ [])
    (hfree : ∀ c ∈ delimiters, c ∉ label)
    (hcount : (t.behindMarker (t.expand target)).count ':' ≤ 1) :
    IsSettled t options (t.expandTarget options target label) := by
  by_cases hplain : ∀ w : Wrapper, t.expand target ≠ w.wrap [':']
  · rw [expandTarget, expandPlaceholder_eq_self hplain]
    exact isSettled_substituteColon ht hne hfree (expand_expand ht hplain) hcount
  · obtain ⟨w, hw⟩ : ∃ w : Wrapper, t.expand target = w.wrap [':'] := by simpa using hplain
    exact isSettled_placeholder ht hne hfree hw

end NamespaceTable

namespace Resolver

variable {r : Resolver}

/-- The canonical form that a label without delimiters makes of a target with one colon to fill, if
any, is a fixed point for every label. Given back as the target of a link, it resolves as the first
link did. Only an empty form does not, which stands for the file that the label names, and one with
white space at its ends, which targets are read without. -/
theorem canonical_form_is_fixed (ht : r.table.Reachable) (hne : label ≠ [])
    (hfree : ∀ c ∈ delimiters, c ∉ label)
    (hcount : (r.table.behindMarker (r.table.expand target)).count ':' ≤ 1) :
    let canonical := r.table.expandTarget r.options target label
    (∀ other, r.table.expandTarget r.options canonical other = canonical) ∧
      ∀ written : Text, written.trimmed = target → canonical ≠ [] → canonical.trimmed = canonical →
        ∀ other source mode,
          r.resolve ⟨canonical, other, source, mode⟩ =
            r.resolve ⟨written, label, source, mode⟩ := by
  intro canonical
  have hsettled : r.table.IsSettled r.options canonical :=
    NamespaceTable.isSettled_expandTarget ht.wellFormed hne hfree hcount
  have hfixed := hsettled.expandTarget_eq_self ht.wellFormed
  refine ⟨hfixed, fun written hwritten hcanonical htrimmed other source mode => ?_⟩
  have htarget : target ≠ [] := by
    intro hnil
    have hempty : canonical = r.table.expandTarget r.options [] label := by rw [← hnil]
    exact hcanonical (hempty.trans rfl)
  simp only [resolve, hwritten, htrimmed, if_neg htarget, if_neg hcanonical, hfixed]
  rfl

theorem canonical_form_is_fixed_comps :
    let r : Resolver := ⟨.default, {}, .ofFolders [⟨"/ws"⟩]⟩
    let source : Option Path := some ⟨"/ws/a.md"⟩
    r.table.expandTarget r.options "comps:guides/intro.md" "a:b" = "comps:guides/intro.md" ∧
      r.resolve ⟨"comps:guides/intro.md", "a:b", source, .fromDocument⟩ =
        r.resolve ⟨" (guides/:.md) ", "intro", source, .fromDocument⟩ := by
  intro r source
  have hcanonical :
      r.table.expandTarget r.options "(guides/:.md)" "intro" = "comps:guides/intro.md" := by decide
  have hfree : ∀ c ∈ delimiters, c ∉ ("intro" : Text) := by simp [delimiters]
  obtain ⟨hfixed, hback⟩ :=
    @canonical_form_is_fixed "(guides/:.md)" "intro" r .default (by decide) hfree (by decide)
  rw [hcanonical] at hfixed hback
  exact ⟨hfixed "a:b", hback " (guides/:.md) " (by decide) (by decide) (by decide) "a:b" source
    .fromDocument⟩

/-- The canonical form of an empty target, and one that ends in white space. -/
theorem trimmed_form_is_another_target :
    let r : Resolver := ⟨.default, {}, .ofFolders [⟨"/ws"⟩]⟩
    let source : Option Path := some ⟨"/ws/a.md"⟩
    let count (target : Text) := (r.table.behindMarker (r.table.expand target)).count ':'
    r.table.Reachable ∧ (∀ c ∈ delimiters, c ∉ ("x" : Text) ∧ c ∉ (" x " : Text)) ∧
      (count [] ≤ 1 ∧ r.table.expandTarget r.options [] "x" = [] ∧
        r.resolve ⟨[], "y", source, .fromDocument⟩ ≠ r.resolve ⟨[], "x", source, .fromDocument⟩) ∧
      (count "blocks:" ≤ 1 ∧ r.table.expandTarget r.options "blocks:" " x " = "blocks: x " ∧
        r.resolve ⟨"blocks: x ", "y", source, .fromDocument⟩ ≠
          r.resolve ⟨"blocks:", " x ", source, .fromDocument⟩) := by
  intro r source count
  refine ⟨.default, by simp [delimiters],
    ⟨by decide, by decide, by decide⟩, by decide, by decide, by decide⟩

end Resolver
end Shorthand
