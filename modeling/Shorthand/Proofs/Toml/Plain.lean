import Shorthand.Proofs.Toml.Value

/-!
The values that settings are made of: texts, booleans, and arrays and tables of texts. Written out,
they are read again with the same content.
-/

namespace Shorthand
namespace Toml

variable {s rest : Text}

inductive Plain where
  | text (value : Text)
  | boolean (value : Bool)
  | texts (values : List Text)
  | table (pairs : List (Text × Text))
  deriving DecidableEq

/-- The texts of a table under their names. -/
def Entries.pairs? (es : Entries) : Option (List (Text × Text)) :=
  es.mapM fun p => p.2.text?.map fun t => (p.1.name, t)

/-- The content of an item that is plain. -/
def Item.plain? : Item → Option Plain
  | .scalar (.text v) _ _ => some (.text v)
  | .scalar (.boolean b) _ _ => some (.boolean b)
  | .array items _ _ _ => (items.mapM Item.text?).map .texts
  | .inline _ _ es _ => (Entries.pairs? es).map .table
  | .table _ es => (Entries.pairs? es).map .table
  | _ => none

/-- A value without the text before and after it. -/
def Item.body : Item → Text
  | .scalar _ t _ => t
  | .array items comma closing _ =>
      ['['] ++ writeElements true items ++ (if comma then [','] else []) ++
        withoutReturns closing ++ [']']
  | .inline _ opening es _ =>
      ['{'] ++ withoutReturns opening ++ joinEntries (inlineEntries [] es) ++ ['}']
  | _ => []

theorem Item.write_eq {i : Item} (h : i.isValue = true) (before after : Text) :
    i.write before after = i.decor.around before after i.body := by
  cases i with
  | scalar | array | inline => rw [Item.write]; rfl
  | table | tables => contradiction

theorem Item.text?_eq_some_iff {i : Item} {v : Text} :
    i.text? = some v ↔ ∃ t d, i = .scalar (.text v) t d := by
  constructor
  · intro h
    unfold Item.text? at h
    split at h
    · cases h
      exact ⟨_, _, rfl⟩
    · contradiction
  · rintro ⟨t, d, rfl⟩
    rfl

theorem Item.Sound.exists_spelled {i : Item} {v : Text} (h : i.Sound) (hv : i.text? = some v) :
    ∃ t d, i = .scalar (.text v) t d ∧ Scalar.IsSpelled t (.text v) := by
  obtain ⟨t, d, rfl⟩ := Item.text?_eq_some_iff.mp hv
  cases h with
  | scalar hspelled => exact ⟨t, d, rfl, hspelled⟩

theorem Item.plain?_withDecor (i : Item) (d : Decor) : (i.withDecor d).plain? = i.plain? := by
  cases i with
  | scalar value => cases value <;> rfl
  | array | inline | table | tables => rfl

theorem IsGap.stops_isQuote (h : IsGap s) (hrest : Stops isQuote rest) :
    Stops isQuote (s ++ rest) := by
  cases h with
  | nil => exact hrest
  | space hc =>
      refine stops_cons.mpr ?_
      simp only [isSpace, Bool.or_eq_true, decide_eq_true_eq] at hc
      rcases hc with rfl | rfl <;> rfl
  | line hremark hfeed =>
      cases hremark <;> cases hfeed <;> exact stops_cons.mpr rfl

theorem stops_of_isQuote {p : Char → Bool} {c : Char} (hc : isQuote c = true)
    (hp : p '"' = false ∧ p '\'' = false) (s : Text) : Stops p (c :: s) := by
  rcases isQuote_iff.mp hc with rfl | rfl
  · exact stops_cons.mpr hp.1
  · exact stops_cons.mpr hp.2

theorem isGap_getD {o : Option Text} {default : Text} (h : ∀ t ∈ o, IsGap t)
    (hdefault : IsGap default) : IsGap (withoutReturns (o.getD default)) := by
  cases o with
  | none => exact hdefault.withoutReturns
  | some t => exact (h t rfl).withoutReturns

namespace Reader

theorem scalar_text {t v : Text} (h : Scalar.IsSpelled t (.text v)) :
    Takes scalar t (.scalar (.text v) t {}) isQuote := by
  intro rest hrest
  have hread := orElse_eq_ok (y := (.boolean <$> boolean) <|> (moment *> pure .moment) <|>
    (number *> pure .number)) |>.mpr (.inl (map_eq_ok (f := Scalar.text) |>.mpr
      ⟨v, h.2 rest hrest, rfl⟩))
  exact bind_eq_ok.mpr ⟨(.text v, t), rest, spelled_append hread, rfl⟩

theorem scalar_boolean {t : Text} {b : Bool} (h : Scalar.IsSpelled t (.boolean b)) :
    TakesAll scalar t (.scalar (.boolean b) t {}) := by
  intro rest
  have hstring : Fails (Scalar.text <$> string) (t ++ rest) := by
    refine fails_of_forall fun v r hr => ?_
    obtain ⟨v, hr, -⟩ := map_eq_ok.mp hr
    obtain ⟨c, t', hc, htext, -⟩ := string_eq_ok hr
    rw [show t = booleanSpelling b from h] at htext
    cases b <;> (rw [← (List.cons.inj htext).1] at hc; contradiction)
  have hread := orElse_eq_ok.mpr (.inr ⟨hstring, orElse_eq_ok
    (y := (moment *> pure .moment) <|> (number *> pure .number)) |>.mpr
      (.inl (map_eq_ok (f := Scalar.boolean) |>.mpr
        ⟨b, boolean_eq_ok.mpr (by rw [show t = booleanSpelling b from h]), rfl⟩))⟩)
  exact bind_eq_ok.mpr ⟨(.boolean b, t), rest, spelled_append hread, rfl⟩

theorem value_text {t v : Text} (h : Scalar.IsSpelled t (.text v)) (room : Nat) :
    Takes (value room) t (.scalar (.text v) t {}) isQuote := by
  intro rest hrest
  obtain ⟨c, t', rfl, hc⟩ := h.1
  cases room with
  | zero => exact scalar_text h rest hrest
  | succ room =>
      refine bind_eq_ok.mpr ⟨some c, _, peek_eq_ok.mpr ⟨rfl, rfl⟩, ?_⟩
      rcases isQuote_iff.mp hc with rfl | rfl <;> exact scalar_text h rest hrest

theorem value_boolean {t : Text} {b : Bool} (h : Scalar.IsSpelled t (.boolean b)) (room : Nat) :
    TakesAll (value room) t (.scalar (.boolean b) t {}) := by
  intro rest
  have hread := scalar_boolean h rest
  cases room with
  | zero => exact hread
  | succ room =>
      rw [show t = booleanSpelling b from h] at hread ⊢
      cases b <;> exact bind_eq_ok.mpr ⟨_, _, peek_eq_ok.mpr ⟨rfl, rfl⟩, hread⟩

/-- An element of an array, up to the comma or bracket after it. -/
theorem element_append {t v : Text} {d : Decor} (hspelled : Scalar.IsSpelled t (.text v))
    (hd : d.Fits IsGap IsGap) {before extra : Text} (hbefore : IsGap before) (hextra : IsGap extra)
    {c : Char} (hc : c = ',' ∨ c = ']') (room : Nat) (rest : Text) :
    ∃ b a s₁, gap (d.around before [] t ++ (extra ++ c :: rest)) = .ok (b, t ++ s₁) ∧
      value room (t ++ s₁) = .ok (.scalar (.text v) t {}, s₁) ∧ gap s₁ = .ok (a, c :: rest) := by
  have hstops : Stops opensGap (c :: rest) := by
    rcases hc with rfl | rfl <;> exact stops_cons.mpr rfl
  have hquote : Stops isQuote (c :: rest) := by
    rcases hc with rfl | rfl <;> exact stops_cons.mpr rfl
  have hb := isGap_getD hd.1 hbefore
  have ha := (isGap_getD hd.2 IsGap.nil).append hextra
  refine ⟨withoutReturns (d.before.getD before), withoutReturns (d.after.getD []) ++ extra,
    (withoutReturns (d.after.getD []) ++ extra) ++ c :: rest, ?_, ?_, gap_takes ha _ hstops⟩
  · have htext : d.around before [] t ++ (extra ++ c :: rest) =
        withoutReturns (d.before.getD before) ++
          (t ++ ((withoutReturns (d.after.getD []) ++ extra) ++
          c :: rest)) := by
      simp [Decor.around]
    rw [htext]
    obtain ⟨q, t', rfl, hq⟩ := hspelled.1
    exact gap_takes hb _ (stops_of_isQuote hq ⟨rfl, rfl⟩ _)
  · exact value_text hspelled room _ (ha.stops_isQuote hquote)

theorem mapM_text?_cons {i : Item} {items : List Item} {texts : List Text} :
    (i :: items).mapM Item.text? = some texts ↔
      ∃ v vs, i.text? = some v ∧ items.mapM Item.text? = some vs ∧ texts = v :: vs := by
  simp only [List.mapM_cons, Option.pure_def, Option.bind_eq_bind, Option.bind_eq_some_iff,
    Option.some.injEq]
  constructor
  · rintro ⟨v, hv, vs, hvs, rfl⟩
    exact ⟨v, vs, hv, hvs, rfl⟩
  · rintro ⟨v, vs, hv, hvs, rfl⟩
    exact ⟨v, hv, vs, hvs, rfl⟩

section Elements

variable {x : Reader Item} {q : Char} {t s₁ s₂ before after closing : Text} {item : Item}
  {items : List Item} {comma : Bool} {fuel : Nat}

theorem elements_close (hbefore : gap s = .ok (before, ']' :: rest)) (flag : Bool) (fuel : Nat) :
    elements x flag (fuel + 1) s = .ok (([], flag, before), rest) :=
  bind_eq_ok.mpr ⟨before, _, hbefore, bind_eq_ok.mpr ⟨some ']', _, peek_eq_ok.mpr ⟨rfl, rfl⟩,
    bind_eq_ok.mpr ⟨(), rest, exactly_cons ']' rest, rfl⟩⟩⟩

theorem elements_comma (hq : isQuote q = true) (hbefore : gap s = .ok (before, q :: t))
    (hitem : x (q :: t) = .ok (item, s₁)) (hafter : gap s₁ = .ok (after, ',' :: s₂))
    (hmore : elements x true fuel s₂ = .ok ((items, comma, closing), rest)) (flag : Bool) :
    elements x flag (fuel + 1) s =
      .ok ((item.withDecor ⟨some before, some after⟩ :: items, comma, closing), rest) := by
  refine bind_eq_ok.mpr ⟨before, _, hbefore, bind_eq_ok.mpr
    ⟨some q, _, peek_eq_ok.mpr ⟨rfl, rfl⟩, ?_⟩⟩
  rcases isQuote_iff.mp hq with rfl | rfl
  all_goals
    exact bind_eq_ok.mpr ⟨item, s₁, hitem, bind_eq_ok.mpr ⟨after, _, hafter, bind_eq_ok.mpr
      ⟨some ',', _, peek_eq_ok.mpr ⟨rfl, rfl⟩, bind_eq_ok.mpr ⟨(), s₂, exactly_cons ',' s₂,
        bind_eq_ok.mpr ⟨_, rest, hmore, rfl⟩⟩⟩⟩⟩

theorem elements_last (hq : isQuote q = true) (hbefore : gap s = .ok (before, q :: t))
    (hitem : x (q :: t) = .ok (item, s₁)) (hafter : gap s₁ = .ok (after, ']' :: rest))
    (flag : Bool) (fuel : Nat) :
    elements x flag (fuel + 1) s =
      .ok (([item.withDecor ⟨some before, some after⟩], false, []), rest) := by
  refine bind_eq_ok.mpr ⟨before, _, hbefore, bind_eq_ok.mpr
    ⟨some q, _, peek_eq_ok.mpr ⟨rfl, rfl⟩, ?_⟩⟩
  rcases isQuote_iff.mp hq with rfl | rfl
  all_goals
    exact bind_eq_ok.mpr ⟨item, s₁, hitem, bind_eq_ok.mpr ⟨after, _, hafter, bind_eq_ok.mpr
      ⟨some ']', _, peek_eq_ok.mpr ⟨rfl, rfl⟩, bind_eq_ok.mpr ⟨(), rest, exactly_cons ']' rest,
        rfl⟩⟩⟩⟩

end Elements

/-- The elements of an array after the first bracket or a comma. -/
theorem elements_append (room : Nat) {i : Item} {items : List Item} {texts : List Text}
    (hsound : ∀ x ∈ i :: items, x.Sound ∧ x.decor.Fits IsGap IsGap)
    (htexts : (i :: items).mapM Item.text? = some texts) (comma : Bool) {closing : Text}
    (hclosing : IsGap closing) {before : Text} (hbefore : IsGap before) (flag : Bool) {fuel : Nat}
    (hfuel : items.length + 2 ≤ fuel) (rest : Text) :
    ∃ items' comma' closing', elements (value room) flag fuel
        (i.write before [] ++ (writeElements false items ++ ((if comma then [','] else []) ++
          (closing ++ ']' :: rest)))) = .ok ((items', comma', closing'), rest) ∧
      items'.mapM Item.text? = some texts := by
  induction items generalizing i texts before flag fuel with
  | nil =>
      obtain ⟨fuel, rfl⟩ : ∃ m, fuel = m + 2 := ⟨fuel - 2, by simp at hfuel; omega⟩
      obtain ⟨hi, -⟩ := List.forall_mem_cons.mp hsound
      obtain ⟨v, vs, hv, hvs, rfl⟩ := mapM_text?_cons.mp htexts
      obtain ⟨t, d, rfl, hspelled⟩ := hi.1.exists_spelled hv
      obtain ⟨q, t', rfl, hq⟩ := hspelled.1
      have htexts' (decor : Decor) : [(Item.scalar (.text v) (q :: t') decor)].mapM Item.text? =
          some (v :: vs) := mapM_text?_cons.mpr ⟨v, vs, rfl, hvs, rfl⟩
      cases comma with
      | true =>
          obtain ⟨b, a, s₁, hb, ht, ha⟩ := element_append hspelled hi.2 hbefore .nil (.inl rfl)
            room (closing ++ ']' :: rest)
          have hclose := elements_close (x := value room) (gap_takes hclosing (']' :: rest)
            (stops_cons.mpr rfl)) true fuel
          exact ⟨_, _, _, elements_comma hq
            (by simpa [Item.write, Item.decor, writeElements] using hb) ht ha
            hclose flag, htexts' ⟨some b, some a⟩⟩
      | false =>
          obtain ⟨b, a, s₁, hb, ht, ha⟩ := element_append hspelled hi.2 hbefore hclosing
            (.inr rfl) room rest
          exact ⟨_, _, _, elements_last hq
            (by simpa [Item.write, Item.decor, writeElements] using hb) ht ha
            flag _, htexts' ⟨some b, some a⟩⟩
  | cons next items ih =>
      obtain ⟨fuel, rfl⟩ : ∃ m, fuel = m + 1 := ⟨fuel - 1, by omega⟩
      obtain ⟨hi, hmore⟩ := List.forall_mem_cons.mp hsound
      obtain ⟨v, vs, hv, hvs, rfl⟩ := mapM_text?_cons.mp htexts
      have hblank : IsGap [' '] := isSpaces_blank.isGap
      have hroom : items.length + 2 ≤ fuel := by
        rw [List.length_cons] at hfuel
        omega
      obtain ⟨items', comma', closing', hread, htexts'⟩ := ih hmore hvs hblank true hroom
      obtain ⟨t, d, rfl, hspelled⟩ := hi.1.exists_spelled hv
      obtain ⟨q, t', rfl, hq⟩ := hspelled.1
      obtain ⟨b, a, s₁, hb, ht, ha⟩ := element_append hspelled hi.2 hbefore .nil (.inl rfl) room
        (next.write [' '] [] ++ (writeElements false items ++ ((if comma then [','] else []) ++
          (closing ++ ']' :: rest))))
      have htexts'' : ((Item.scalar (.text v) (q :: t') {}).withDecor ⟨some b, some a⟩ ::
          items').mapM Item.text? = some (v :: vs) :=
        mapM_text?_cons.mpr ⟨v, vs, rfl, htexts', rfl⟩
      exact ⟨_, _, _, elements_comma hq (by simpa [Item.write, Item.decor, writeElements] using hb)
        ht ha hread
        flag, htexts''⟩

theorem length_le_writeElements (items : List Item) :
    items.length ≤ (writeElements false items).length := by
  induction items with
  | nil => exact Nat.zero_le _
  | cons i items ih =>
      simp only [writeElements, Bool.false_eq_true, if_false, List.length_append,
        List.length_cons]
      omega

theorem array_append (room : Nat) {items : List Item} {comma : Bool} {closing : Text} {d : Decor}
    (h : (Item.array items comma closing d).Sound) {texts : List Text}
    (htexts : items.mapM Item.text? = some texts) (rest : Text) :
    ∃ i, array (value room) ((Item.array items comma closing d).body ++ rest) = .ok (i, rest) ∧
      i.plain? = some (.texts texts) ∧ i.isValue = true := by
  cases h with
  | array hitems haround hclosing hcomma =>
      have hclosing' := hclosing.withoutReturns
      cases items with
      | nil =>
          obtain rfl := hcomma rfl
          have hclose := elements_close (x := value room) (gap_takes hclosing' (']' :: rest)
            (stops_cons.mpr rfl)) false
          refine ⟨.array [] false (withoutReturns closing) {}, ?_, ?_, rfl⟩
          · refine bind_eq_ok.mpr ⟨(), _, exactly_eq_ok.mpr rfl,
              bind_eq_ok.mpr ⟨([], false, withoutReturns closing), rest, ?_, rfl⟩⟩
            simpa [bounded, writeElements] using hclose _
          · rw [Item.plain?, htexts]
            rfl
      | cons i items =>
          have hlength := length_le_writeElements items
          have hfuel : items.length + 2 ≤ (i.write [] [] ++ (writeElements false items ++
              ((if comma then [','] else []) ++ (withoutReturns closing ++ ']' :: rest)))).length +
                1 := by
            simp only [List.length_append, List.length_cons]
            omega
          obtain ⟨items', comma', closing', hread, htexts'⟩ := elements_append room
            (fun x hx => ⟨hitems x hx, haround x hx⟩) htexts comma hclosing' .nil false hfuel rest
          refine ⟨.array items' comma' closing' {}, ?_, by rw [Item.plain?, htexts']; rfl, rfl⟩
          refine bind_eq_ok.mpr ⟨(), _, exactly_eq_ok.mpr ?_,
            bind_eq_ok.mpr ⟨(items', comma', closing'), rest, hread, rfl⟩⟩
          simp [Item.body, writeElements]

/-- A pair that is written out, from the white space before its key to that after its value. -/
theorem pair_append {x : Reader Item} {path : List Key} {key : Key}
    (hkeys : ∀ k ∈ path ++ [key], k.Sound) (hdepth : path.length + 1 < depthLimit)
    {before after left right body : Text} (hbefore : IsSpaces before) (hafter : IsSpaces after)
    (hleft : IsSpaces left) (hright : IsSpaces right) (hbody : body ≠ [])
    (hstops : Stops isSpace body) (hrest : Stops isSpace rest) {item : Item}
    (hitem : x (body ++ (right ++ rest)) = .ok (item, right ++ rest)) :
    ∃ path' key', pair x (before ++ (writeSegments (path ++ [key]) ++ (after ++
        ('=' :: (left ++ (body ++ (right ++ rest))))))) =
          .ok ((path', key', item.withDecor ⟨some left, some right⟩), rest) ∧
      path'.map Key.name = path.map Key.name ∧ key'.name = key.name := by
  have hequals : Stops continuesKey ('=' :: (left ++ (body ++ (right ++ rest)))) :=
    stops_cons.mpr rfl
  obtain ⟨keys', hread, hnames⟩ := dottedKey_append (by simp) hkeys (by simpa using hdepth)
    hbefore hafter hequals
  rw [List.map_append] at hnames
  obtain ⟨path', last, rfl, hpath, hlast⟩ := List.map_eq_append_iff.mp hnames
  obtain ⟨key', more, rfl, hkey, hmore⟩ := List.map_eq_cons_iff.mp hlast
  obtain rfl := List.map_eq_nil_iff.mp hmore
  refine ⟨path', key', ?_, hpath, hkey⟩
  obtain ⟨c, t, rfl⟩ := List.exists_cons_of_ne_nil hbody
  refine bind_eq_ok.mpr ⟨_, _, hread, bind_eq_ok.mpr ⟨(), _, exactly_cons '=' _, bind_eq_ok.mpr
    ⟨left, _, spaces_takes hleft _ (hstops.append nofun), bind_eq_ok.mpr
      ⟨some c, _, peek_eq_ok.mpr ⟨rfl, rfl⟩, bind_eq_ok.mpr ⟨item, _, hitem, bind_eq_ok.mpr
        ⟨right, _, spaces_takes hright _ hrest, ?_⟩⟩⟩⟩⟩⟩
  rw [List.getLast?_concat, List.dropLast_concat]
  rfl

end Reader

theorem Entries.pairs?_cons {p : Key × Item} {es : Entries} {pairs : List (Text × Text)} :
    Entries.pairs? (p :: es) = some pairs ↔
      ∃ v more, p.2.text? = some v ∧ es.pairs? = some more ∧ pairs = (p.1.name, v) :: more := by
  simp only [Entries.pairs?, List.mapM_cons, Option.pure_def, Option.bind_eq_bind,
    Option.bind_eq_some_iff, Option.map_eq_some_iff, Option.some.injEq]
  constructor
  · rintro ⟨_, ⟨v, hv, rfl⟩, more, hmore, rfl⟩
    exact ⟨v, more, hv, hmore, rfl⟩
  · rintro ⟨v, more, hv, hmore, rfl⟩
    exact ⟨_, ⟨v, hv, rfl⟩, more, hmore, rfl⟩

/-- An entry of an inline table, as it is written. -/
def inlineEntry (p : Key × Item) (last : Bool) : Text :=
  writeKeys [p.1] [' '] [' '] ++ ['='] ++ p.2.write [' '] (if last then [' '] else [])

theorem inlineEntries_plain {es : Entries} {pairs : List (Text × Text)}
    (h : es.pairs? = some pairs) : inlineEntries [] es = es.map inlineEntry := by
  induction es generalizing pairs with
  | nil => rw [inlineEntries]; rfl
  | cons p es ih =>
      obtain ⟨k, i⟩ := p
      obtain ⟨v, more, hv, hmore, rfl⟩ := Entries.pairs?_cons.mp h
      obtain ⟨t, d, rfl⟩ := Item.text?_eq_some_iff.mp hv
      exact congrArg (inlineEntry (k, .scalar (.text v) t d) :: ·) (ih hmore)

theorem isSpaces_withoutReturns {o : Option Text} {default : Text} (h : ∀ t ∈ o, IsSpaces t)
    (hdefault : IsSpaces default) : IsSpaces (withoutReturns (o.getD default)) := by
  cases o with
  | none => rwa [Option.getD_none, hdefault.withoutReturns]
  | some t =>
      rw [Option.getD_some, (h t rfl).withoutReturns]
      exact h t rfl

namespace Reader

theorem inlineEntry_append (room : Nat) {k : Key} {t v : Text} {d : Decor} (hk : k.Tight)
    (hspelled : Scalar.IsSpelled t (.text v)) (hd : d.Fits IsSpaces IsSpaces) (last : Bool)
    {before : Text} (hbefore : IsSpaces before) {c : Char} (hc : c = ',' ∨ c = '}') (rest : Text) :
    ∃ k' i', pair (value room)
        (before ++ (inlineEntry (k, .scalar (.text v) t d) last ++ c :: rest)) =
          .ok (([], k', i'), c :: rest) ∧ k'.name = k.name ∧ i'.text? = some v := by
  have hspace : Stops isSpace (c :: rest) := by
    rcases hc with rfl | rfl <;> exact stops_cons.mpr rfl
  have hquote : Stops isQuote (c :: rest) := by
    rcases hc with rfl | rfl <;> exact stops_cons.mpr rfl
  have hend : IsSpaces (if last then [' '] else [] : Text) := by
    cases last
    · exact isSpaces_nil
    · exact isSpaces_blank
  have hright := isSpaces_withoutReturns hd.2 hend
  obtain ⟨q, t', ht, hq⟩ := hspelled.1
  have hitem := value_text hspelled room _ (hright.isGap.stops_isQuote hquote)
  have hkey : ∀ x ∈ ([] : List Key) ++ [k], x.Sound := by simpa using hk.toSound
  obtain ⟨path', k', hread, hpath, hname⟩ := pair_append hkey (by decide)
    (isSpaces_append.mpr ⟨hbefore, isSpaces_withoutReturns hk.before_spaces isSpaces_blank⟩)
    (isSpaces_withoutReturns hk.after isSpaces_blank)
    (isSpaces_withoutReturns hd.1 isSpaces_blank) hright (by simp [ht])
    (ht ▸ stops_of_isQuote hq ⟨rfl, rfl⟩ t') hspace hitem
  obtain rfl := List.map_eq_nil_iff.mp hpath
  refine ⟨k', .scalar (.text v) t ⟨some (withoutReturns (d.before.getD [' '])),
    some (withoutReturns (d.after.getD (if last then [' '] else [])))⟩, ?_, hname, rfl⟩
  simpa [inlineEntry, writeKeys, writeSegments, Decor.around, Item.write, Item.withDecor] using
    hread

theorem pairs_append (room : Nat) {p : Key × Item} {es : Entries}
    (hsound : ∀ q ∈ p :: es, q.1.Tight ∧ q.2.Sound ∧ q.2.decor.Fits IsSpaces IsSpaces)
    {texts : List (Text × Text)} (htexts : Entries.pairs? (p :: es) = some texts) {before : Text}
    (hbefore : IsSpaces before) {fuel : Nat} (hfuel : es.length < fuel) (rest : Text) :
    ∃ read : List (Key × Item), pairs (value room) fuel
        (before ++ (joinEntries ((p :: es).map inlineEntry) ++ '}' :: rest)) =
          .ok (read.map fun q => ([], q.1, q.2), rest) ∧ Entries.pairs? read = some texts := by
  induction es generalizing p texts before fuel with
  | nil =>
      obtain ⟨fuel, rfl⟩ : ∃ m, fuel = m + 1 := ⟨fuel - 1, by simp at hfuel; omega⟩
      obtain ⟨k, i⟩ := p
      obtain ⟨v, more, hv, hmore, rfl⟩ := Entries.pairs?_cons.mp htexts
      obtain ⟨⟨hk, hi, hd⟩, -⟩ := List.forall_mem_cons.mp hsound
      obtain ⟨t, d, rfl, hspelled⟩ := hi.exists_spelled hv
      obtain ⟨k', i', hread, hname, htext⟩ := inlineEntry_append room hk hspelled hd true hbefore
        (.inr rfl) rest
      refine ⟨[(k', i')], ?_, ?_⟩
      · exact bind_eq_ok.mpr ⟨_, _, hread, bind_eq_ok.mpr
          ⟨none, _, optional?_of_fails (exactly_fails (stops_cons.mpr rfl)), bind_eq_ok.mpr
            ⟨(), rest, exactly_cons '}' rest, rfl⟩⟩⟩
      · exact Entries.pairs?_cons.mpr ⟨v, more, htext, hmore, by rw [hname]⟩
  | cons next es ih =>
      obtain ⟨fuel, rfl⟩ : ∃ m, fuel = m + 1 := ⟨fuel - 1, by omega⟩
      obtain ⟨k, i⟩ := p
      obtain ⟨v, more, hv, hmore, rfl⟩ := Entries.pairs?_cons.mp htexts
      obtain ⟨⟨hk, hi, hd⟩, hothers⟩ := List.forall_mem_cons.mp hsound
      obtain ⟨t, d, rfl, hspelled⟩ := hi.exists_spelled hv
      have hfuel' : es.length < fuel := by simpa using hfuel
      obtain ⟨read, hreads, hpairs⟩ := ih hothers hmore isSpaces_nil hfuel'
      obtain ⟨k', i', hread, hname, htext⟩ := inlineEntry_append room hk hspelled hd false hbefore
        (.inl rfl) (joinEntries ((next :: es).map inlineEntry) ++ '}' :: rest)
      refine ⟨(k', i') :: read, ?_, Entries.pairs?_cons.mpr ⟨v, more, htext, hpairs, by rw [hname]⟩⟩
      have hjoin : joinEntries (((k, Item.scalar (.text v) t d) :: next :: es).map inlineEntry) =
          inlineEntry (k, .scalar (.text v) t d) false ++ ',' ::
            joinEntries ((next :: es).map inlineEntry) := by
        simp [joinEntries]
      rw [hjoin, List.append_assoc, List.cons_append]
      exact bind_eq_ok.mpr ⟨_, _, hread, bind_eq_ok.mpr
        ⟨some (), _, optional?_of_eq_ok (exactly_cons ',' _), bind_eq_ok.mpr
          ⟨_, rest, hreads, rfl⟩⟩⟩

end Reader

theorem ofInlinePairs?_plain {read : List (Key × Item)} {es : Entries}
    (h : (Entries.names (es ++ read)).Nodup) :
    (read.map fun q => (([] : List Key), q.1, q.2)).foldlM (fun es (path, key, item) =>
      Entries.insertInline key item path false es) es = some (es ++ read) := by
  induction read generalizing es with
  | nil => simp
  | cons p read ih =>
      have hname : es.has p.1.name = false := by
        rw [Entries.has_eq_false_iff]
        intro hmem
        rw [Entries.names, List.map_append, List.map_cons] at h
        exact List.nodup_append.mp h |>.2.2 _ hmem _ List.mem_cons_self rfl
      rw [List.map_cons, List.foldlM_cons]
      simp only [Entries.insertInline, hname]
      have hnames : (Entries.names (es ++ [p] ++ read)).Nodup := by simpa using h
      simpa using ih hnames

theorem Entries.pairs?_map_fst {es : Entries} {pairs : List (Text × Text)}
    (h : es.pairs? = some pairs) : pairs.map Prod.fst = es.names := by
  induction es generalizing pairs with
  | nil => cases h; rfl
  | cons p es ih =>
      obtain ⟨v, more, -, hmore, rfl⟩ := Entries.pairs?_cons.mp h
      rw [List.map_cons, ih hmore]
      rfl

namespace Reader

/-- What is read as pairs starts with a key after its white space. -/
theorem exists_opensKey_of_pairs {x : Reader Item} {fuel : Nat}
    {read : List (List Key × Key × Item)} (h : pairs x fuel s = .ok (read, rest)) :
    ∃ blanks c t, spaces s = .ok (blanks, c :: t) ∧ opensKey c = true := by
  cases fuel with
  | zero => exact absurd h not_failure_eq_ok
  | succ fuel =>
      obtain ⟨_, _, hpair, -⟩ := bind_eq_ok.mp h
      obtain ⟨_, _, hkeys, -⟩ := bind_eq_ok.mp hpair
      obtain ⟨_, _, hsegments, -⟩ := bind_eq_ok.mp hkeys
      obtain ⟨_, _, hsegment, -⟩ := bind_eq_ok.mp hsegments
      rw [segment_eq] at hsegment
      obtain ⟨blanks, mid, hspaces, hname⟩ := bind_eq_ok.mp hsegment
      obtain ⟨⟨name, t⟩, _, hname, -⟩ := bind_eq_ok.mp hname
      obtain ⟨c, t, rfl, hc⟩ := exists_opensKey_of_keyName (spelled_eq_ok.mp hname).1
      exact ⟨blanks, c, t, hspaces, hc⟩

theorem length_le_joinEntries (es : Entries) :
    es.length ≤ (joinEntries (es.map inlineEntry)).length := by
  induction es with
  | nil => exact Nat.zero_le _
  | cons p es ih =>
      cases es with
      | nil => simp [joinEntries, inlineEntry]; omega
      | cons next es =>
          simp only [List.map_cons, joinEntries, List.length_append, List.length_cons] at ih ⊢
          omega

theorem inlineTable_append (room : Nat) {dotted : Bool} {opening : Text} {es : Entries} {d : Decor}
    (h : (Item.inline dotted opening es d).Sound) {texts : List (Text × Text)}
    (htexts : es.pairs? = some texts) (rest : Text) :
    ∃ i, inlineTable (value room) ((Item.inline dotted opening es d).body ++ rest) =
        .ok (i, rest) ∧ i.plain? = some (.table texts) ∧ i.isValue = true := by
  obtain ⟨hopening, hnames, hes⟩ := Entries.inlineSound_of_sound h
  have hentries := inlineEntries_plain htexts
  cases es with
  | nil =>
      refine ⟨.inline false opening [] {}, ?_, by rw [Item.plain?, htexts]; rfl, rfl⟩
      have hblank : (spaces <* exactly ['}']) (opening ++ '}' :: rest) = .ok (opening, rest) :=
        seqLeft_eq_ok.mpr ⟨_, (), spaces_takes hopening _ (stops_cons.mpr rfl),
          exactly_cons '}' rest⟩
      refine bind_eq_ok.mpr ⟨(), opening ++ '}' :: rest, exactly_eq_ok.mpr ?_, bind_eq_ok.mpr
        ⟨some opening, rest, optional?_of_eq_ok hblank, rfl⟩⟩
      simp [Item.body, hentries, joinEntries, hopening.withoutReturns]
  | cons p es =>
      have hlength := length_le_joinEntries (p :: es)
      have hfuel : es.length <
          (opening ++ (joinEntries ((p :: es).map inlineEntry) ++ '}' :: rest)).length + 1 := by
        simp only [List.length_append, List.length_cons] at hlength ⊢
        omega
      obtain ⟨read, hread, hpairs⟩ := pairs_append room hes htexts hopening hfuel rest
      have hnames' : (Entries.names ([] ++ read)).Nodup := by
        rw [List.nil_append, ← Entries.pairs?_map_fst hpairs, Entries.pairs?_map_fst htexts]
        exact hnames
      have hfold := ofInlinePairs?_plain hnames'
      refine ⟨.inline false [] read {}, ?_, by rw [Item.plain?, hpairs]; rfl, rfl⟩
      have hblank : Fails (spaces <* exactly ['}'])
          (opening ++ (joinEntries ((p :: es).map inlineEntry) ++ '}' :: rest)) := by
        refine fails_of_forall fun blank r hr => ?_
        obtain ⟨mid, _, hspaces, hclose⟩ := seqLeft_eq_ok.mp hr
        obtain ⟨blanks, c, t, hspaces', hc⟩ := exists_opensKey_of_pairs hread
        cases hspaces.symm.trans hspaces'
        cases exactly_eq_ok.mp hclose
        contradiction
      refine bind_eq_ok.mpr ⟨(), _, exactly_eq_ok.mpr ?_, bind_eq_ok.mpr
        ⟨none, _, optional?_of_fails hblank, bind_eq_ok.mpr ⟨_, _, hread, ?_⟩⟩⟩
      · simp [Item.body, hentries, hopening.withoutReturns]
      · rw [Entries.ofInlinePairs?, hfold]
        rfl

/-- A plain value that is written out is read again with the same content. -/
theorem value_append {i : Item} (hi : i.Sound) (hvalue : i.isValue = true) {p : Plain}
    (hp : i.plain? = some p) (room : Nat) (hrest : Stops isQuote rest) :
    ∃ i', value (room + 1) (i.body ++ rest) = .ok (i', rest) ∧ i'.plain? = some p ∧
      i'.isValue = true := by
  cases i with
  | scalar value t d =>
      cases hi with
      | scalar hspelled =>
          cases value with
          | text v => exact ⟨_, value_text hspelled _ rest hrest, hp, rfl⟩
          | boolean b => exact ⟨_, value_boolean hspelled _ rest, hp, rfl⟩
          | number | moment => contradiction
  | array items comma closing d =>
      obtain ⟨texts, htexts, rfl⟩ := Option.map_eq_some_iff.mp hp
      obtain ⟨i', hread, hplain⟩ := array_append room hi htexts rest
      refine ⟨i', bind_eq_ok.mpr ⟨some '[', _, peek_eq_ok.mpr ⟨?_, rfl⟩, hread⟩, hplain⟩
      simp [Item.body]
  | inline dotted opening es d =>
      obtain ⟨texts, htexts, rfl⟩ := Option.map_eq_some_iff.mp hp
      obtain ⟨i', hread, hplain⟩ := inlineTable_append room hi htexts rest
      refine ⟨i', bind_eq_ok.mpr ⟨some '{', _, peek_eq_ok.mpr ⟨?_, rfl⟩, hread⟩, hplain⟩
      simp [Item.body]
  | table | tables => contradiction

end Reader

theorem Item.stops_body {i : Item} (hi : i.Sound) (hvalue : i.isValue = true) {p : Plain}
    (hp : i.plain? = some p) : i.body ≠ [] ∧ Stops isSpace i.body := by
  cases i with
  | scalar value t d =>
      cases hi with
      | scalar hspelled =>
          cases value with
          | text v =>
              obtain ⟨c, t', rfl, hc⟩ := hspelled.1
              exact ⟨List.cons_ne_nil _ _, stops_of_isQuote hc ⟨rfl, rfl⟩ t'⟩
          | boolean b =>
              rw [Item.body, show t = booleanSpelling b from hspelled]
              cases b <;> exact ⟨List.cons_ne_nil _ _, stops_cons.mpr rfl⟩
          | number | moment => contradiction
  | array | inline =>
      simp only [Item.body, List.append_assoc, List.cons_append]
      exact ⟨List.cons_ne_nil _ _, stops_cons.mpr rfl⟩
  | table | tables => contradiction

end Toml
end Shorthand
