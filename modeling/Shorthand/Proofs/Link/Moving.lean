import Mathlib.Data.List.Forall2
import Shorthand.Command.Namespaces
import Shorthand.Proofs.Link.Pieces
import Shorthand.Proofs.Namespace.Name
import Shorthand.Proofs.Text.Replace

/-!
Replacing the starts of link targets all over a document. The replacement knows nothing of links,
and yet a document keeps its links: none comes or goes, and of each only the target changes.
-/

namespace Shorthand

variable {old new : Text}

/-- A target in one namespace moved to another. -/
def Text.moved (old new target : Text) : Text :=
  match List.isPrefixOf? (old ++ [':']) target with
  | some payload => new ++ ':' :: payload
  | none => target

theorem Text.moved_append (old new payload : Text) :
    Text.moved old new (old ++ ':' :: payload) = new ++ ':' :: payload := by
  have hprefix : List.isPrefixOf? (old ++ [':']) (old ++ ':' :: payload) = some payload :=
    List.isPrefixOf?_eq_some_iff_append_eq.mpr (by simp)
  rw [moved, hprefix]

theorem Text.moved_eq_self {target : Text} (h : ¬ old ++ [':'] <+: target) :
    Text.moved old new target = target := by
  have hprefix : List.isPrefixOf? (old ++ [':']) target = none := by
    rw [Option.eq_none_iff_forall_ne_some]
    intro payload hpayload
    exact h ⟨payload, List.isPrefixOf?_eq_some_iff_append_eq.mp hpayload⟩
  rw [moved, hprefix]

theorem targetStart_append (name rest : Text) :
    targetStart name ++ rest = ']' :: '(' :: (name ++ ':' :: rest) := by
  simp [targetStart]

theorem targetStart_ne_nil (name : Text) : targetStart name ≠ [] := by
  simp [targetStart]

theorem targetStart_prefix_iff {name s : Text} :
    targetStart name <+: s ↔ ∃ t, s = ']' :: '(' :: t ∧ name ++ [':'] <+: t := by
  constructor
  · rintro ⟨rest, rfl⟩
    exact ⟨name ++ ':' :: rest, targetStart_append name rest, rest, by simp⟩
  · rintro ⟨_, rfl, rest, rfl⟩
    exact ⟨rest, by simp [targetStart]⟩

theorem not_mem_targetStart {name : Text} (h : Namespace.IsName name) {c : Char}
    (hc : c ∉ [']', '(', ':']) (hname : Namespace.isNameChar c = false) : c ∉ targetStart name := by
  have hmem := h.not_mem hname
  simp [targetStart] at hc ⊢
  tauto

/-- The starts of targets in a text that are in one namespace, moved to another. -/
def Text.retargeted (old new : Text) : Text → Text :=
  replaceAll (targetStart old) (targetStart new)

namespace Text

variable {c : Char} {s : Text}

theorem retargeted_targetStart (rest : Text) :
    retargeted old new (targetStart old ++ rest) = targetStart new ++ retargeted old new rest :=
  replaceAll_old (targetStart_ne_nil old) rest

theorem retargeted_cons (h : ¬ targetStart old <+: c :: s) :
    retargeted old new (c :: s) = c :: retargeted old new s :=
  replaceAll_cons h

theorem retargeted_of_not_mem {a : Text} (h : ']' ∉ a) (b : Text) :
    retargeted old new (a ++ b) = a ++ retargeted old new b :=
  replaceAll_append_of_not_mem rfl h b

theorem retargeted_eq_self (h : ¬ targetStart old <:+: s) : retargeted old new s = s :=
  replaceAll_of_not_infix h

theorem exists_retargeted_cons (old new : Text) (c : Char) (s : Text) :
    ∃ rest, retargeted old new (c :: s) = c :: rest := by
  by_cases hhit : targetStart old <+: c :: s
  · obtain ⟨rest, hrest⟩ := hhit
    rw [← hrest, retargeted_targetStart, targetStart_append]
    rw [targetStart_append] at hrest
    exact ⟨_, by rw [(List.cons.inj hrest).1]⟩
  · exact ⟨_, retargeted_cons hhit⟩

theorem retargeted_name {name : Text} (h : Namespace.IsName name) (payload : Text) :
    retargeted old new (name ++ ':' :: payload) = name ++ ':' :: retargeted old new payload := by
  have hplain : ']' ∉ name ++ [':'] := by simpa using h.not_mem (c := ']') (by decide)
  have hpayload : retargeted old new (name ++ [':'] ++ payload) =
      name ++ [':'] ++ retargeted old new payload := retargeted_of_not_mem hplain payload
  rwa [List.append_assoc, List.append_assoc, List.singleton_append, List.singleton_append]
    at hpayload

/-- After the opening of a target, the start of it is moved. -/
theorem retargeted_opening (hnew : Namespace.IsName new) (s : Text) :
    retargeted old new (']' :: '(' :: s) = ']' :: '(' :: retargeted old new (moved old new s) := by
  by_cases hmoves : old ++ [':'] <+: s
  · obtain ⟨payload, rfl⟩ := hmoves
    rw [List.append_assoc, List.singleton_append, moved_append, retargeted_name hnew,
      ← targetStart_append, retargeted_targetStart, targetStart_append]
  · have hmiss : ¬ targetStart old <+: ']' :: '(' :: s := by
      simpa [targetStart_prefix_iff] using hmoves
    have hopen : ¬ targetStart old <+: '(' :: s := by simp [targetStart_prefix_iff]
    rw [moved_eq_self hmoves, retargeted_cons hmiss, retargeted_cons hopen]

/-- Of a target that holds no other start of a target, only its own start is replaced. -/
theorem retargeted_moved (hnew : Namespace.IsName new) (h : ¬ targetStart old <:+: s) :
    retargeted old new (moved old new s) = moved old new s := by
  by_cases hmoves : old ++ [':'] <+: s
  · obtain ⟨payload, rfl⟩ := hmoves
    have hpayload : ¬ targetStart old <:+: payload := fun hinner =>
      h (hinner.trans (List.suffix_append ..).isInfix)
    rw [List.append_assoc, List.singleton_append, moved_append, retargeted_name hnew,
      retargeted_eq_self hpayload]
  · rw [moved_eq_self hmoves, retargeted_eq_self h]

end Text

theorem Link.isPlain_of_isNameChar {c : Char} (h : Namespace.isNameChar c = true) : IsPlain c := by
  refine ⟨?_, ?_, Namespace.isBlank_of_isNameChar h⟩ <;>
    rintro rfl <;> contradiction

def Link.moved (old new : Text) (l : Link) : Link :=
  { l with target := Text.moved old new l.target }

/-- The link after the starts of targets have been replaced in its document. -/
def Link.retargeted (old new : Text) (l : Link) : Link :=
  { l with target := Text.retargeted old new (Text.moved old new l.target) }

namespace Link

theorem target?_name {name : Text} (h : Namespace.IsName name) (inside : Bool) (s : Text) :
    target? inside (name ++ ':' :: s) = (target? inside s).map (name ++ ':' :: ·) := by
  have hplain : ∀ c ∈ name ++ [':'], IsPlain c :=
    List.forall_mem_append.mpr ⟨fun c hc => isPlain_of_isNameChar (h.2 c hc),
      List.forall_mem_singleton.mpr ⟨by decide, by decide, by decide⟩⟩
  have hname := target?_plain_append hplain inside s
  simpa only [List.append_assoc, List.singleton_append] using hname

/-- The recognizer goes one character further in two texts whose recognized targets correspond. -/
theorem target?_cons_map {f : Text → Text} {c : Char} {s s' : Text} (hnil : f [] = [])
    (h : ∀ inside, target? inside s' = (target? inside s).map f)
    (hcons : ∀ inside t, target? inside s = some t → f (c :: t) = c :: f t) (inside : Bool) :
    target? inside (c :: s') = (target? inside (c :: s)).map f := by
  have hread (inside : Bool) :
      (target? inside s').map (c :: ·) = ((target? inside s).map (c :: ·)).map f := by
    rw [h, Option.map_map, Option.map_map]
    exact Option.map_congr fun t ht => (hcons inside t ht).symm
  cases inside with
  | false =>
      simp only [target?]
      split
      · rw [Option.map_some, hnil]
      · split
        · exact hread true
        · split
          · rfl
          · exact hread false
  | true =>
      simp only [target?]
      split
      · exact hread false
      · split
        · rfl
        · exact hread true

/-- What is read as a target after the replacement is what was read before, with the starts of
targets in it replaced. -/
theorem target?_retargeted (hold : Namespace.IsName old) (hnew : Namespace.IsName new)
    (inside : Bool) (s : Text) :
    target? inside (Text.retargeted old new s) =
      (target? inside s).map (Text.retargeted old new) := by
  induction s using Text.replace_induction (targetStart_ne_nil old) generalizing inside with
  | nil => rfl
  | hit rest ih =>
      have hclose : IsPlain ']' := ⟨by decide, by decide, by decide⟩
      rw [Text.retargeted_targetStart, targetStart_append, targetStart_append,
        target?_plain hclose, target?_plain hclose]
      cases inside with
      | false =>
          rw [target?_open, target?_open, target?_name hold, target?_name hnew, ih]
          simp only [Option.map_map]
          refine Option.map_congr fun t _ => ?_
          have hstart : Text.retargeted old new (targetStart old ++ t) =
              targetStart new ++ Text.retargeted old new t := Text.retargeted_targetStart t
          rw [targetStart_append, targetStart_append] at hstart
          exact hstart.symm
      | true => rfl
  | miss c rest h ih =>
      rw [Text.retargeted_cons h]
      refine target?_cons_map rfl ih
        (fun inside t ht => Text.retargeted_cons fun hstart => ?_) inside
      exact h (hstart.trans (List.cons_prefix_cons.mpr ⟨rfl, prefix_of_target? ht⟩))

theorem target?_moved (hold : Namespace.IsName old) (hnew : Namespace.IsName new)
    (inside : Bool) (s : Text) :
    target? inside (Text.moved old new s) = (target? inside s).map (Text.moved old new) := by
  by_cases hmoves : old ++ [':'] <+: s
  · obtain ⟨payload, rfl⟩ := hmoves
    rw [List.append_assoc, List.singleton_append, Text.moved_append, target?_name hold,
      target?_name hnew, Option.map_map]
    exact Option.map_congr fun t _ => (Text.moved_append old new t).symm
  · rw [Text.moved_eq_self hmoves]
    refine Option.map_id'.symm.trans (Option.map_congr fun t ht => ?_)
    exact (Text.moved_eq_self fun hstart => hmoves (hstart.trans (prefix_of_target? ht))).symm

/-- The same link starts at a character after the replacement as before, retargeted. -/
theorem atStart?_retargeted (hold : Namespace.IsName old) (hnew : Namespace.IsName new) (c : Char)
    (s : Text) :
    atStart? (c :: Text.retargeted old new s) = (atStart? (c :: s)).map (retargeted old new) := by
  by_cases hopen : c = '['
  · subst hopen
    by_cases hclose : ']' ∈ s
    · obtain ⟨label, after, rfl, hlabel⟩ := List.eq_append_cons_of_mem hclose
      rw [Text.retargeted_of_not_mem hlabel, atStart?_label hlabel]
      cases after with
      | nil =>
          have hend : Text.retargeted old new [']'] = [']'] :=
            Text.retargeted_cons (by simp [targetStart_prefix_iff])
          rw [hend, atStart?_label hlabel]
          simp
      | cons d after =>
          by_cases hd : d = '('
          · subst hd
            rw [Text.retargeted_opening hnew, atStart?_label hlabel]
            by_cases hnil : label = []
            · simp [hnil]
            · simp only [if_neg hnil, target?_retargeted hold hnew, target?_moved hold hnew,
                Option.map_map]
              rfl
          · have hmiss : ¬ targetStart old <+: ']' :: d :: after := by
              simp [targetStart_prefix_iff, hd]
            obtain ⟨rest, hrest⟩ := Text.exists_retargeted_cons old new d after
            rw [Text.retargeted_cons hmiss, hrest, atStart?_label hlabel]
            simp [hd]
    · have hnone : ¬ targetStart old <:+: s := fun h => hclose (h.subset List.mem_cons_self)
      rw [Text.retargeted_eq_self hnone, atStart?_no_label hclose]
      rfl
  · simp [atStart?, hopen]

theorem IsTarget.moved {t : Text} (h : IsTarget t) (hold : Namespace.IsName old)
    (hnew : Namespace.IsName new) : IsTarget (Text.moved old new t) := by
  have hread := target?_moved hold hnew false (t ++ [')'])
  rw [target?_append h] at hread
  exact (isTarget_of_target? hread).1

theorem IsTarget.retargeted {t : Text} (h : IsTarget t) (hold : Namespace.IsName old)
    (hnew : Namespace.IsName new) : IsTarget (Text.retargeted old new t) := by
  have hread := target?_retargeted hold hnew false (t ++ [')'])
  rw [target?_append h] at hread
  exact (isTarget_of_target? hread).1

/-- A link in whose target no other target can start is only moved. -/
theorem retargeted_eq_moved (hnew : Namespace.IsName new) {l : Link}
    (h : ¬ [']', '('] <:+: l.target) : l.retargeted old new = l.moved old new := by
  have hinner : ¬ targetStart old <:+: l.target := fun hstart =>
    h (List.IsInfix.trans ⟨[], old ++ [':'], by simp [targetStart]⟩ hstart)
  rw [retargeted, Text.retargeted_moved hnew hinner, moved]

theorem IsLink.moved {l : Link} (h : l.IsLink) (hold : Namespace.IsName old)
    (hnew : Namespace.IsName new) : (l.moved old new).IsLink :=
  ⟨h.label_ne_nil, h.not_mem_label, h.isTarget.moved hold hnew⟩

theorem IsLink.retargeted {l : Link} (h : l.IsLink) (hold : Namespace.IsName old)
    (hnew : Namespace.IsName new) : (l.retargeted old new).IsLink :=
  ⟨h.label_ne_nil, h.not_mem_label, (h.isTarget.moved hold hnew).retargeted hold hnew⟩

/-- Of a link as it stands in a document, only the target is changed. -/
theorem retargeted_written (hold : Namespace.IsName old) (hnew : Namespace.IsName new) {l : Link}
    (hl : l.IsLink) (rest : Text) :
    Text.retargeted old new (l.written ++ rest) =
      (l.retargeted old new).written ++ Text.retargeted old new rest := by
  have hcloses : ')' ∉ targetStart old := not_mem_targetStart hold (by decide) (by decide)
  have hlabel : ']' ∉ '[' :: l.label := by simpa using hl.not_mem_label
  have hwritten (l : Link) :
      l.written ++ rest = ('[' :: l.label) ++ (']' :: '(' :: l.target) ++ ')' :: rest := by
    simp [written]
  -- Nothing that is replaced reaches over the end of the link.
  rw [hwritten, Text.retargeted, Text.replaceAll_append_cons (targetStart_ne_nil old) hcloses,
    ← Text.retargeted, Text.retargeted_of_not_mem hlabel, Text.retargeted_opening hnew]
  simp [written, Link.retargeted]

end Link

namespace Piece

/-- A line has the same links as before, retargeted. -/
theorem links_ofLine_retargeted (hold : Namespace.IsName old) (hnew : Namespace.IsName new)
    (line : Text) :
    links (ofLine (Text.retargeted old new line)) =
      (links (ofLine line)).map (Link.retargeted old new) := by
  induction hn : line.length using Nat.strongRecOn generalizing line with
  | _ n ih =>
      cases line with
      | nil => rfl
      | cons c rest =>
          cases hstart : Link.atStart? (c :: rest) with
          | some l =>
              obtain ⟨hl, after, hs⟩ := Link.atStart?_eq_some_iff.mp hstart
              rw [hs, ofLine_link hl, Link.retargeted_written hold hnew hl,
                ofLine_link (hl.retargeted hold hnew)]
              refine congrArg (l.retargeted old new :: ·) (ih after.length ?_ after rfl)
              rw [← hn, hs, List.length_append]
              simp [Link.written]
          | none =>
              by_cases hhit : targetStart old <+: c :: rest
              · obtain ⟨after, hafter⟩ := hhit
                have hopen {name : Text} (hname : Namespace.IsName name) : '[' ∉ targetStart name :=
                  not_mem_targetStart hname (by decide) (by decide)
                have hlength := congrArg List.length hafter
                have hpos := List.length_pos_of_ne_nil (targetStart_ne_nil old)
                rw [List.length_append, hn] at hlength
                rw [← hafter, links_ofLine_plain (hopen hold), Text.retargeted_targetStart,
                  links_ofLine_plain (hopen hnew)]
                exact ih after.length (by omega) after rfl
              · have hnone := Link.atStart?_retargeted hold hnew c rest
                rw [hstart, Option.map_none] at hnone
                rw [ofLine_plain hstart, Text.retargeted_cons hhit, ofLine_plain hnone]
                exact ih rest.length (by simp [← hn]) rest rfl

end Piece

namespace Occurrence

/-- A document has the same links as before, on the same lines and retargeted. -/
theorem map_ofDocument_retargeted (hold : Namespace.IsName old) (hnew : Namespace.IsName new)
    (source : Path) (content : Text) :
    (ofDocument source (Text.retargeted old new content)).map
        (fun o => (o.source, o.line, o.link)) =
      (ofDocument source content).map fun o => (o.source, o.line, o.link.retargeted old new) := by
  have hfeed {name : Text} (hname : Namespace.IsName name) : '\n' ∉ targetStart name :=
    not_mem_targetStart hname (by decide) (by decide)
  have hlines : (Text.retargeted old new content).lines =
      content.lines.map (Text.retargeted old new) :=
    Text.lines_replaceAll (targetStart_ne_nil old) (targetStart_ne_nil new) (hfeed hold)
      (hfeed hnew) content
  rw [ofDocument, ofDocument, hlines, List.zipIdx_map, List.flatMap_map, List.map_flatMap,
    List.map_flatMap]
  refine List.flatMap_congr fun ⟨line, number⟩ _ => ?_
  have hline := congrArg
    (List.map fun p : Path × Nat × Link => (p.1, p.2.1, p.2.2.retargeted old new))
    (map_ofLine source number line)
  rw [List.map_map, List.map_map] at hline
  simp only [Prod.map, id_eq, map_ofLine, Piece.links_ofLine_retargeted hold hnew, List.map_map]
  exact hline.symm

/-- A document has as many links after the starts of targets in it have been replaced as before, in
the same order, on the same lines and with the same labels. A target that starts with the old name
starts with the new one, and one in which no target starts stays. -/
theorem retargeting_keeps_links (hold : Namespace.IsName old) (hnew : Namespace.IsName new)
    (source : Path) (content : Text) :
    List.Forall₂
      (fun o o' => o'.source = o.source ∧ o'.line = o.line ∧ o'.link.label = o.link.label ∧
        o'.link.target = Text.replaceAll (targetStart old) (targetStart new)
          (Text.moved old new o.link.target) ∧
        (¬ targetStart old <:+: o.link.target →
          o'.link.target = Text.moved old new o.link.target ∧
          (¬ old ++ [':'] <+: o.link.target → o'.link.target = o.link.target)))
      (ofDocument source content)
      (ofDocument source (Text.replaceAll (targetStart old) (targetStart new) content)) := by
  have hmap := (map_ofDocument_retargeted hold hnew source content).symm
  rw [← List.forall₂_eq_eq_eq, List.forall₂_map_left_iff, List.forall₂_map_right_iff] at hmap
  refine hmap.imp fun o o' h => ?_
  simp only [Prod.mk.injEq] at h
  obtain ⟨hsource, hline, hlink⟩ := h
  rw [← hlink]
  refine ⟨hsource.symm, hline.symm, rfl, rfl, fun hinner => ?_⟩
  have hmoved : (o.link.retargeted old new).target = Text.moved old new o.link.target :=
    Text.retargeted_moved hnew hinner
  exact ⟨hmoved, fun hother => hmoved.trans (Text.moved_eq_self hother)⟩

/-- The start of a target outside all links, a link in the namespace and one that is not. -/
theorem retargeting_keeps_links_half_open :
    let content : Text := "](docs:\n[x](docs:a(b)) [y]([docs])\n"
    Namespace.IsName "docs" ∧ Namespace.IsName "guide" ∧
      (ofDocument ⟨"/ws/a.md"⟩
          (Text.replaceAll (targetStart "docs") (targetStart "guide") content)).map
        (fun o => (o.line, o.link)) =
      [(2, ⟨"x", "guide:a(b)"⟩), (2, ⟨"y", "[docs]"⟩)] := by
  intro content
  have hold : Namespace.IsName "docs" := ⟨by decide, List.all_eq_true.mp (by decide)⟩
  have hnew : Namespace.IsName "guide" := ⟨by decide, List.all_eq_true.mp (by decide)⟩
  have hlinks : ofDocument ⟨"/ws/a.md"⟩ content =
      [⟨⟨"x", "docs:a(b)"⟩, ⟨"/ws/a.md"⟩, 2, 1⟩, ⟨⟨"y", "[docs]"⟩, ⟨"/ws/a.md"⟩, 2, 16⟩] := by
    decide +kernel
  have hinner (target : Text) (h : Text.occurs (targetStart "docs") target = false) :
      ¬ targetStart "docs" <:+: target := by
    rw [← Text.occurs_iff_infix, h]
    nofun
  have hkept := retargeting_keeps_links hold hnew ⟨"/ws/a.md"⟩ content
  rw [hlinks, List.forall₂_cons_left_iff] at hkept
  obtain ⟨x, later, ⟨-, hxline, hxlabel, -, hx⟩, hkept, hdocument⟩ := hkept
  rw [List.forall₂_cons_left_iff] at hkept
  obtain ⟨y, none, ⟨-, hyline, hylabel, -, hy⟩, hkept, rfl⟩ := hkept
  rw [List.forall₂_nil_left_iff] at hkept
  have hxtarget := (hx (hinner _ (by decide))).1
  have hytarget := (hy (hinner _ (by decide))).2 (by decide)
  have hxlink : x.link = ⟨"x", "guide:a(b)"⟩ := congrArg₂ Link.mk hxlabel hxtarget
  have hylink : y.link = ⟨"y", "[docs]"⟩ := congrArg₂ Link.mk hylabel hytarget
  refine ⟨hold, hnew, ?_⟩
  rw [hdocument, hkept, List.map_cons, List.map_singleton, hxline, hyline, hxlink, hylink]

/-- The start of a target is replaced also where it stands within another target. -/
theorem inner_start_is_replaced :
    let content : Text := "[x](docs:a](docs:b))"
    (ofDocument ⟨"/ws/a.md"⟩
        (Text.replaceAll (targetStart "docs") (targetStart "guide") content)).map
        (fun o => o.link.target) ≠
      (ofDocument ⟨"/ws/a.md"⟩ content).map fun o => Text.moved "docs" "guide" o.link.target := by
  decide +kernel

end Occurrence
end Shorthand
