import Shorthand.Placeholder
import Shorthand.Proofs.Namespace.Name
import Shorthand.Proofs.Scheme
import Shorthand.Proofs.Text

/-!
Where a label goes. It takes the place of the last colon behind the marker of a protocol or of a
namespace, and neither removes a marker nor, without a colon of its own, makes one.
-/

namespace Shorthand

variable {target label : Text} {floor : Nat}

/-- Every label is put in, at one place, or the target has no colon for any. -/
theorem spliceLastColon_cases (target : Text) (floor : Nat) :
    (∀ label, spliceLastColon target floor label = target) ∨
      ∃ before after, target = before ++ ':' :: after ∧ ':' ∉ after ∧
        ∀ label, spliceLastColon target floor label = before ++ (label ++ after) := by
  unfold spliceLastColon
  split
  · rename_i before after hsplit
    obtain ⟨htarget, hafter⟩ := Text.exists_of_splitLast? hsplit
    split
    · exact .inr ⟨before, after, htarget, hafter, fun label => List.append_assoc ..⟩
    · exact .inl fun _ => rfl
  · exact .inl fun _ => rfl

theorem spliceLastColon_of_not_mem (h : ':' ∉ target) (floor : Nat) (label : Text) :
    spliceLastColon target floor label = target := by
  rw [spliceLastColon, Text.splitLast?_eq_none_iff.mpr h]

theorem spliceLastColon_split {before after : Text} (h : ':' ∉ after) (label : Text) :
    spliceLastColon (before ++ ':' :: after) 0 label = before ++ (label ++ after) := by
  have hsplit : Text.splitLast? ':' (before ++ ':' :: after) = some (before, after) := by
    rw [List.append_cons, Text.splitLast?_append_of_not_mem h, Text.splitLast?_concat]
    rfl
  simp [spliceLastColon, hsplit]

/-- A colon after some text is looked for behind that text. -/
theorem spliceLastColon_append (a s label : Text) :
    spliceLastColon (a ++ s) a.length label = a ++ spliceLastColon s 0 label := by
  cases hs : Text.splitLast? ':' s with
  | some split => simp [spliceLastColon, hs, Text.splitLast?_append hs]
  | none =>
      have hlast := Text.splitLast?_append_of_not_mem (Text.splitLast?_eq_none_iff.mp hs) a
      rw [spliceLastColon, hlast, spliceLastColon, hs]
      cases ha : Text.splitLast? ':' a with
      | none => rfl
      | some split =>
          have hlength := congrArg List.length (Text.exists_of_splitLast? ha).1
          simp only [List.length_append, List.length_cons] at hlength
          simp only [Option.map_some]
          rw [if_neg (by omega)]

/-- A start without a colon stays in front. -/
theorem prefix_spliceLastColon {a : Text} (ha : ':' ∉ a) (h : a <+: target) :
    a <+: spliceLastColon target floor label := by
  rcases spliceLastColon_cases target floor with hsame | ⟨before, after, rfl, -, hput⟩
  · rwa [hsame]
  · rw [hput]
    exact (Text.prefix_of_prefix_append ha h).trans (List.prefix_append ..)

/-- A payload with the label put in. -/
def filled (payload label : Text) : Text :=
  if payload = [] then label else spliceLastColon payload 0 label

theorem prefix_filled {a payload : Text} (hne : a ≠ []) (ha : ':' ∉ a) (h : a <+: payload)
    (label : Text) : a <+: filled payload label := by
  have hpayload : payload ≠ [] := by
    rintro rfl
    exact hne (List.prefix_nil.mp h)
  rw [filled, if_neg hpayload]
  exact prefix_spliceLastColon ha h

section Name

variable {name payload : Text}

/-- A name with a payload is a URL if the name could be a scheme and two slashes follow it. -/
theorem hasProtocol_name_iff (hname : Namespace.IsName name) :
    hasProtocol (name ++ ':' :: payload) = true ↔ IsScheme name ∧ ['/', '/'] <+: payload := by
  rw [hasProtocol, Option.isSome_iff_exists]
  constructor
  · rintro ⟨n, hn⟩
    obtain ⟨scheme, rest, hs, htarget, -⟩ := exists_of_schemeLength? hn
    obtain ⟨rfl, rfl⟩ := Text.eq_of_append_cons (hname.not_mem (by decide))
      (hs.isName.not_mem (by decide)) htarget
    exact ⟨hs, rest, rfl⟩
  · rintro ⟨hs, rest, rfl⟩
    exact ⟨_, schemeLength?_append hs rest⟩

theorem schemeLength?_name (hname : Namespace.IsName name)
    (h : ¬ (IsScheme name ∧ ['/', '/'] <+: payload)) :
    schemeLength? (name ++ ':' :: payload) = none := by
  rwa [← hasProtocol_name_iff hname, hasProtocol, Option.not_isSome_iff_eq_none] at h

end Name

namespace NamespaceTable

variable {t t' : NamespaceTable} {options : Options} {name payload scheme : Text}

theorem splitPrefix?_eq_some_iff : t.splitPrefix? target = some (name, payload) ↔
    target.splitFirst? ':' = some (name, payload) ∧ t.roots.has name = true := by
  unfold splitPrefix?
  cases target.splitFirst? ':' with
  | none => simp
  | some split =>
      obtain ⟨n, p⟩ := split
      simp only [Option.ite_none_right_eq_some, Option.some.injEq,
        and_comm (a := t.roots.has _ = true)]
      refine and_congr_right fun h => ?_
      rw [(Prod.mk.inj h).1]

theorem splitPrefix?_name (hname : Namespace.IsName name) (hn : t.roots.has name = true) :
    t.splitPrefix? (name ++ ':' :: payload) = some (name, payload) :=
  splitPrefix?_eq_some_iff.mpr ⟨Text.splitFirst?_append (hname.not_mem (by decide)) payload, hn⟩

/-- A URL takes in the label behind its marker, if it may at all. -/
theorem substituteColon_scheme (t : NamespaceTable) (options : Options) (h : IsScheme scheme)
    (rest label : Text) :
    t.substituteColon options (scheme ++ ':' :: '/' :: '/' :: rest) label =
      scheme ++ ':' :: '/' :: '/' ::
        (if options.urlPlaceholders then spliceLastColon rest 0 label else rest) := by
  simp only [substituteColon, schemeLength?_append h]
  split
  · have hsplice := spliceLastColon_append (scheme ++ [':', '/', '/']) rest label
    simpa using hsplice
  · rfl

/-- In a namespace only the payload takes in the label. -/
theorem substituteColon_name (hname : Namespace.IsName name) (hn : t.roots.has name = true)
    (h : schemeLength? (name ++ ':' :: payload) = none) :
    t.substituteColon options (name ++ ':' :: payload) label =
      name ++ ':' :: filled payload label := by
  simp only [substituteColon, h, splitPrefix?_name hname hn, filled]
  cases payload with
  | nil => rfl
  | cons c payload =>
      have hsplice := spliceLastColon_append (name ++ [':']) (c :: payload) label
      simpa using hsplice

theorem prefix_substituteColon (hname : Namespace.IsName name) (hn : t.roots.has name = true)
    (h : ['/', '/'] <+: payload) :
    name ++ [':', '/', '/'] <+: t.substituteColon options (name ++ ':' :: payload) label := by
  by_cases hs : IsScheme name
  · obtain ⟨rest, rfl⟩ := h
    have hsub := t.substituteColon_scheme options hs rest label
    exact ⟨_, by simpa using hsub.symm⟩
  · rw [substituteColon_name hname hn (schemeLength?_name hname fun hp => hs hp.1)]
    obtain ⟨rest, hrest⟩ := prefix_filled (by simp) (by decide) h label
    exact ⟨rest, by simp [← hrest]⟩

/-- Every label takes the place of the same colon or comes behind a namespace without a payload, or
none is put in. -/
theorem substituteColon_cases (t : NamespaceTable) (options : Options) (target : Text) :
    (∀ label, t.substituteColon options target label = target) ∨
      ∃ before after, before <+: target ∧ ':' ∉ after ∧
        ∀ label, t.substituteColon options target label = before ++ (label ++ after) := by
  have hsplice (floor : Nat) :
      (∀ label, spliceLastColon target floor label = target) ∨
        ∃ before after, before <+: target ∧ ':' ∉ after ∧
          ∀ label, spliceLastColon target floor label = before ++ (label ++ after) := by
    cases spliceLastColon_cases target floor with
    | inl hsame => exact .inl hsame
    | inr hput =>
        obtain ⟨before, after, rfl, hafter, hput⟩ := hput
        exact .inr ⟨before, after, List.prefix_append .., hafter, hput⟩
  unfold substituteColon
  split
  · split
    · exact hsplice _
    · exact .inl fun _ => rfl
  · split
    · rename_i name hsplit
      have hmarker := Text.prefix_of_splitFirst? (splitPrefix?_eq_some_iff.mp hsplit).1
      exact .inr ⟨name ++ [':'], [], hmarker, List.not_mem_nil, fun label => by simp⟩
    · exact hsplice _
    · exact hsplice _

/-- A prefix that ends in a colon was there before a label without a colon was put in. -/
theorem prefix_of_prefix_substituteColon {a : Text} (hlabel : ':' ∉ label)
    (h : a ++ [':'] <+: t.substituteColon options target label) : a ++ [':'] <+: target := by
  rcases t.substituteColon_cases options target with hsame | ⟨before, after, hbefore, hafter, hput⟩
  · rwa [hsame] at h
  · rw [hput] at h
    have hnone : ':' ∉ label ++ after := by simp [hlabel, hafter]
    exact (Text.prefix_of_prefix_append_of_not_mem hnone h).trans hbefore

/-- What follows such a colon was there as well, if it has no character of the label. -/
theorem prefix_of_marker_substituteColon {a b : Text} (hne : label ≠ []) (hlabel : ':' ∉ label)
    (hb : ∀ c ∈ label, c ∉ b) (h : a ++ ':' :: b <+: t.substituteColon options target label) :
    a ++ ':' :: b <+: target := by
  rcases t.substituteColon_cases options target with hsame | ⟨before, after, hbefore, hafter, hput⟩
  · rwa [hsame] at h
  · rw [hput] at h
    have hnone : ':' ∉ label ++ after := by simp [hlabel, hafter]
    obtain ⟨rest, rfl⟩ := Text.prefix_of_prefix_append_of_not_mem hnone
      ((List.prefix_append (a ++ [':']) b).trans (by simpa using h))
    obtain ⟨c, more, rfl⟩ := List.exists_cons_of_ne_nil hne
    have hrest : b <+: rest ++ c :: (more ++ after) := by simpa using h
    have hkept : b <+: rest := Text.prefix_of_prefix_append (hb c List.mem_cons_self) hrest
    exact List.IsPrefix.trans (by simpa using hkept) hbefore

theorem hasProtocol_substituteColon (t : NamespaceTable) (options : Options) (target : Text)
    (hne : label ≠ []) (hcolon : ':' ∉ label) (hslash : '/' ∉ label) :
    hasProtocol (t.substituteColon options target label) = hasProtocol target := by
  rw [Bool.eq_iff_iff, hasProtocol_iff, hasProtocol_iff]
  constructor
  · intro ⟨scheme, rest, hs, hrest⟩
    have hslashes : ∀ c ∈ label, c ∉ ['/', '/'] := by
      intro c hc
      have hne : c ≠ '/' := fun h => hslash (h ▸ hc)
      simpa using hne
    have hmarker : scheme ++ ':' :: ['/', '/'] <+: t.substituteColon options target label :=
      ⟨rest, by simp [hrest]⟩
    obtain ⟨rest', hrest'⟩ := prefix_of_marker_substituteColon hne hcolon hslashes hmarker
    exact ⟨scheme, rest', hs, by simp [← hrest']⟩
  · intro ⟨scheme, rest, hs, htarget⟩
    exact ⟨scheme, _, hs, htarget ▸ t.substituteColon_scheme options hs rest label⟩

/-- A registered name in front of a target stays there. -/
theorem prefix_substituteColon_of_registered (hname : Namespace.IsName name)
    (hn : t.roots.has name = true) (h : name ++ [':'] <+: target) :
    name ++ [':'] <+: t.substituteColon options target label := by
  obtain ⟨payload, rfl⟩ := h
  rw [List.append_assoc, List.singleton_append]
  by_cases hslashes : ['/', '/'] <+: payload
  · exact List.IsPrefix.trans (by simp) (prefix_substituteColon hname hn hslashes)
  · have hscheme := schemeLength?_name hname fun hurl => hslashes hurl.2
    rw [substituteColon_name hname hn hscheme]
    simp

end NamespaceTable
end Shorthand
