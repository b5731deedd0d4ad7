import Shorthand.Proofs.Toml.Assembly
import Shorthand.Proofs.Toml.Plain

/-!
Lines and headers that are written out are read again as the statements that they came from.
-/

namespace Shorthand
namespace Toml

variable {s rest : Text}

theorem opensGap_of_opensKey {c : Char} (h : opensKey c = true) : opensGap c = false := by
  rcases Bool.or_eq_true_iff.mp h with h | h
  · rcases isQuote_iff.mp h with rfl | rfl <;> rfl
  · by_contra hc
    simp only [opensGap, opensLine, isSpace, Bool.or_eq_true, decide_eq_true_eq,
      Bool.not_eq_false] at hc
    rcases hc with ((rfl | rfl) | rfl | rfl) | rfl <;> contradiction

theorem exists_opensKey_writeSegments {keys : List Key} (hne : keys ≠ [])
    (h : ∀ k ∈ keys, k.Sound) : ∃ c t, writeSegments keys = c :: t ∧ opensKey c = true := by
  obtain ⟨k, keys, rfl⟩ := List.exists_cons_of_ne_nil hne
  obtain ⟨c, t, hspelling, hc⟩ := (h k List.mem_cons_self).spelling_eq_cons
  cases keys with
  | nil => exact ⟨c, t, hspelling, hc⟩
  | cons next keys => exact ⟨c, _, by rw [writeSegments, hspelling]; rfl, hc⟩

theorem IsTail.withoutReturns (h : IsTail s) : withoutReturns s = s := by
  obtain ⟨blanks, remark, rfl, hblanks, hremark⟩ := h
  rw [withoutReturns_append, hblanks.withoutReturns, hremark.withoutReturns]

theorem isTail_withoutReturns {o : Option Text} (h : ∀ t ∈ o, IsTail t) :
    IsTail (withoutReturns (o.getD [])) := by
  cases o with
  | none => exact isSpaces_nil.isTail
  | some t =>
      rw [Option.getD_some, (h t rfl).withoutReturns]
      exact h t rfl

theorem Item.plain?_extend (i : Item) (tail : Text) : (i.extend tail).plain? = i.plain? := by
  cases i with
  | scalar value => cases value <;> rfl
  | array | inline | table | tables => rfl

theorem Item.isValue_extend (i : Item) (tail : Text) : (i.extend tail).isValue = i.isValue := by
  cases i <;> rfl

/-- A pair of a table as it is written, on lines of its own. -/
def pairLine (path : List Key) (p : Key × Item) : Text :=
  writeKeys (path ++ [p.1]) [] [' '] ++ ['='] ++ p.2.write [' '] [] ++ ['\n']

/-- Whatever comes after it, the text is read as `n` statements with the property. -/
def Reads (text : Text) (n : Nat) (P : List Statement → Prop) : Prop :=
  n ≤ text.length ∧ ∀ fuel rest, ∃ sts, P sts ∧
    Statement.read (n + fuel) (text ++ rest) =
      (sts ++ (Statement.read fuel rest).1, (Statement.read fuel rest).2)

theorem Reads.mono {text : Text} {n : Nat} {P Q : List Statement → Prop} (h : Reads text n P)
    (hPQ : ∀ sts, P sts → Q sts) : Reads text n Q := by
  refine ⟨h.1, fun fuel rest => ?_⟩
  obtain ⟨sts, hP, hread⟩ := h.2 fuel rest
  exact ⟨sts, hPQ sts hP, hread⟩

theorem reads_nil {P : List Statement → Prop} (h : P []) : Reads [] 0 P :=
  ⟨Nat.le_refl _, fun fuel rest => ⟨[], h, by simp⟩⟩

theorem Reads.append {t₁ t₂ : Text} {n₁ n₂ : Nat} {P₁ P₂ : List Statement → Prop}
    (h₁ : Reads t₁ n₁ P₁) (h₂ : Reads t₂ n₂ P₂) :
    Reads (t₁ ++ t₂) (n₁ + n₂) fun sts => ∃ a b, sts = a ++ b ∧ P₁ a ∧ P₂ b := by
  refine ⟨?_, fun fuel rest => ?_⟩
  · rw [List.length_append]
    exact Nat.add_le_add h₁.1 h₂.1
  · obtain ⟨b, hb, hread₂⟩ := h₂.2 fuel rest
    obtain ⟨a, ha, hread₁⟩ := h₁.2 (n₂ + fuel) (t₂ ++ rest)
    refine ⟨a ++ b, ⟨a, b, rfl, ha, hb⟩, ?_⟩
    rw [Nat.add_assoc, List.append_assoc, hread₁, hread₂, List.append_assoc]

/-- A gap and a statement after it, up to the line feed at its end. -/
theorem reads_of_statement {g text : Text} (hg : IsGap g) {c : Char} {t : Text}
    (htext : text = c :: t) (hc : opensGap c = false) {P : Statement → Prop}
    (hread : ∀ rest, ∃ st, P st ∧ Reader.statement g (text ++ rest) = .ok (st, rest)) :
    Reads (g ++ text) 1 fun sts => ∃ st, sts = [st] ∧ P st := by
  subst htext
  refine ⟨by rw [List.length_append, List.length_cons]; omega, fun fuel rest => ?_⟩
  obtain ⟨st, hst, hread⟩ := hread rest
  have hlead := Reader.lead_takes hg (c :: t ++ rest) (stops_cons.mpr hc)
  refine ⟨[st], ⟨st, rfl, hst⟩, ?_⟩
  rw [Nat.add_comm, Statement.read, List.append_assoc, hlead]
  rw [List.cons_append] at hread
  simp only [List.cons_append, hread, List.nil_append]

namespace Reader

theorem statement_pair {g t : Text} {c : Char} (hc : opensKey c = true)
    {path : List Key} {key : Key} {item : Item} {s₁ tail : Text}
    (hpair : pair (value (depthLimit - 1)) (c :: t) = .ok ((path, key, item), s₁))
    (htail : lineTail s₁ = .ok (tail, rest)) :
    statement g (c :: t) = .ok (.pair path (key.prepend g) (item.extend tail), rest) := by
  have hread : (do
      let p ← pair (value (depthLimit - 1))
      let tail ← lineTail
      return Statement.pair p.1 (p.2.1.prepend g) (p.2.2.extend tail) : Reader Statement) (c :: t) =
        .ok (.pair path (key.prepend g) (item.extend tail), rest) :=
    bind_eq_ok.mpr ⟨_, _, hpair, bind_eq_ok.mpr ⟨tail, rest, htail, rfl⟩⟩
  refine bind_eq_ok.mpr ⟨some c, _, peek_eq_ok.mpr ⟨rfl, rfl⟩, Eq.trans (congrFun ?_ _) hread⟩
  split
  · rename_i h
    cases h
    contradiction
  · rename_i h
    cases h
    contradiction
  · rename_i h
    cases h
    contradiction
  · rfl

end Reader

/-- The pair that a written entry is read as. -/
def Statement.IsPairOf (path : List Key) (p : Key × Item) (st : Statement) : Prop :=
  ∃ path' k' i', st = .pair path' k' i' ∧ path'.map Key.name = path.map Key.name ∧
    k'.name = p.1.name ∧ i'.plain? = p.2.plain? ∧ i'.isValue = true

theorem reads_pairLine {path : List Key} {k : Key} {i : Item} {p : Plain}
    (hkeys : ∀ x ∈ path ++ [k], x.Sound) (hdepth : path.length + 1 < depthLimit) (hi : i.Sound)
    (haround : i.decor.Fits IsSpaces IsTail) (hvalue : i.isValue = true)
    (hplain : i.plain? = some p) :
    Reads (pairLine path (k, i)) 1 fun sts =>
      ∃ st, sts = [st] ∧ Statement.IsPairOf path (k, i) st := by
  have hk := hkeys k (by simp)
  obtain ⟨blanks, remark, htail, hblanks, hremark⟩ := isTail_withoutReturns haround.2
  obtain ⟨hne, hstops⟩ := i.stops_body hi hvalue hplain
  obtain ⟨c, t, ht, hc⟩ := exists_opensKey_writeSegments (by simp) hkeys
  have hleft := isSpaces_withoutReturns haround.1 isSpaces_blank
  have hafter := isSpaces_withoutReturns hk.after isSpaces_blank
  have hquote (rest : Text) : Stops isQuote (blanks ++ (remark ++ '\n' :: rest)) := by
    refine hblanks.isGap.stops_isQuote ?_
    cases hremark <;> exact stops_cons.mpr rfl
  have hspace (rest : Text) : Stops isSpace (remark ++ '\n' :: rest) := by
    cases hremark <;> exact stops_cons.mpr rfl
  have htext : pairLine path (k, i) = withoutReturns (k.decor.before.getD []) ++
      (writeSegments (path ++ [k]) ++ (withoutReturns (k.decor.after.getD [' ']) ++ ('=' ::
        (withoutReturns (i.decor.before.getD [' ']) ++ (i.body ++ (blanks ++
          (remark ++ ['\n']))))))) := by
    rw [pairLine, Item.write_eq hvalue, writeKeys, List.getLast?_concat]
    simp [Decor.around, htail]
  rw [htext]
  refine reads_of_statement (isGap_getD hk.before .nil) (by rw [ht]; rfl)
    (opensGap_of_opensKey hc) fun rest => ?_
  obtain ⟨i', hitem, hplain', hvalue'⟩ := Reader.value_append hi hvalue hplain 78 (hquote rest)
  obtain ⟨path', k', hpair, hpath, hname⟩ := Reader.pair_append hkeys hdepth isSpaces_nil hafter
    hleft hblanks hne hstops (hspace rest) hitem
  have hlineTail := Reader.lineTail_append isSpaces_nil hremark rest
  rw [List.nil_append] at hpair hlineTail
  rw [ht, List.cons_append] at hpair
  have hstatement := Reader.statement_pair (g := withoutReturns (k.decor.before.getD [])) hc hpair
    hlineTail
  refine ⟨_, ⟨path', k'.prepend _, _, rfl, hpath, hname, ?_, ?_⟩, by simpa [ht] using hstatement⟩
  · rw [Item.plain?_extend, Item.plain?_withDecor, hplain', hplain]
  · rw [Item.isValue_extend, Item.isValue_withDecor, hvalue']

namespace Reader

theorem statement_header {g t s₁ tail : Text} {keys : List Key}
    (ht : Stops (fun x => decide (x = '[')) t) (hkeys : dottedKey t = .ok (keys, ']' :: s₁))
    (htail : lineTail s₁ = .ok (tail, rest)) :
    statement g ('[' :: t) = .ok (.header keys ⟨some g, some tail⟩, rest) :=
  bind_eq_ok.mpr ⟨some '[', _, peek_eq_ok.mpr ⟨rfl, rfl⟩, bind_eq_ok.mpr
    ⟨(), t, exactly_cons '[' t, bind_eq_ok.mpr ⟨none, t, optional?_of_fails (exactly_fails ht),
      bind_eq_ok.mpr ⟨keys, _, hkeys, bind_eq_ok.mpr ⟨(), s₁, exactly_cons ']' s₁, bind_eq_ok.mpr
        ⟨tail, rest, htail, rfl⟩⟩⟩⟩⟩⟩

end Reader

/-- The header of a table at the top level as it is written. -/
def headerLine (first : Bool) (head : Head) (k : Key) : Text :=
  head.decor.around (if first then [] else ['\n']) [] (['['] ++ writeKeys [k] [] [] ++ [']']) ++
    ['\n']

def Statement.IsHeaderOf (k : Key) (st : Statement) : Prop :=
  ∃ k' decor, st = .header [k'] decor ∧ k'.name = k.name

theorem reads_headerLine {k : Key} (hk : k.Tight) {head : Head}
    (hhead : head.decor.Fits IsGap IsTail) (first : Bool) :
    Reads (headerLine first head k) 1 fun sts => ∃ st, sts = [st] ∧ Statement.IsHeaderOf k st := by
  have hbefore := isSpaces_withoutReturns hk.before_spaces isSpaces_nil
  have hafter := isSpaces_withoutReturns hk.after isSpaces_nil
  obtain ⟨c, t, hspelling, hc⟩ := hk.spelling_eq_cons
  obtain ⟨blanks, remark, htail, hblanks, hremark⟩ := isTail_withoutReturns hhead.2
  have hgap : IsGap (withoutReturns (head.decor.before.getD (if first then [] else ['\n']))) := by
    refine isGap_getD hhead.1 ?_
    cases first with
    | true => exact .nil
    | false => exact .line (s := []) .nil .feed .nil
  have htext : headerLine first head k =
      withoutReturns (head.decor.before.getD (if first then [] else ['\n'])) ++
        ('[' :: (withoutReturns (k.decor.before.getD []) ++ (writeSegments [k] ++
          (withoutReturns (k.decor.after.getD []) ++ (']' :: (blanks ++ remark ++ ['\n'])))))) := by
    simp [headerLine, Decor.around, writeKeys, htail]
  rw [htext]
  refine reads_of_statement hgap rfl rfl fun rest => ?_
  have hkeys : ∀ x ∈ [k], x.Sound := by simpa using hk.toSound
  have hclose : Stops Reader.continuesKey (']' :: (blanks ++ remark ++ '\n' :: rest)) :=
    stops_cons.mpr rfl
  obtain ⟨keys', hread, hnames⟩ := Reader.dottedKey_append (List.cons_ne_nil _ _) hkeys
    (Nat.le_of_ble_eq_true rfl) hbefore hafter hclose
  obtain ⟨k', more, rfl, hname, hmore⟩ := List.map_eq_cons_iff.mp hnames
  obtain rfl := List.map_eq_nil_iff.mp hmore
  have hbracket : Stops (fun x => decide (x = '[')) (withoutReturns (k.decor.before.getD []) ++
      (writeSegments [k] ++ (withoutReturns (k.decor.after.getD []) ++
        (']' :: (blanks ++ remark ++ '\n' :: rest))))) := by
    refine Stops.append ?_ fun _ => ?_
    · intro x hx
      have := hbefore x (List.mem_of_mem_head? hx)
      by_contra hne
      simp only [decide_eq_false_iff_not, not_not] at hne
      rw [hne] at this
      contradiction
    · rw [writeSegments, hspelling]
      refine stops_cons.mpr ?_
      by_contra hne
      simp only [decide_eq_false_iff_not, not_not] at hne
      rw [hne] at hc
      contradiction
  have hlineTail := Reader.lineTail_append hblanks hremark rest
  have hstatement := Reader.statement_header
    (g := withoutReturns (head.decor.before.getD (if first then [] else ['\n']))) hbracket hread
    hlineTail
  exact ⟨_, ⟨k', _, rfl, hname⟩, by simpa using hstatement⟩

end Toml
end Shorthand
