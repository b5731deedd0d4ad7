import Shorthand.Proofs.Toml.Key

/-!
What is read as a value can be written out to be read again: strings and booleans keep their
spelling, and there is only white space around the parts of arrays and tables.
-/

namespace Shorthand
namespace Toml

variable {s rest : Text}

def booleanSpelling (b : Bool) : Text :=
  if b then ['t', 'r', 'u', 'e'] else ['f', 'a', 'l', 's', 'e']

/-- The spelling of a string or boolean. Nothing is said of other scalars. -/
def Scalar.IsSpelled (t : Text) : Scalar → Prop
  | .text v => (∃ c t', t = c :: t' ∧ isQuote c = true) ∧ Reader.Takes Reader.string t v isQuote
  | .boolean b => t = booleanSpelling b
  | _ => True

/-- White space and a comment at the end of a line. -/
def IsTail (t : Text) : Prop :=
  ∃ blanks remark, t = blanks ++ remark ∧ IsSpaces blanks ∧ IsRemark remark

def Decor.Fits (before after : Text → Prop) (d : Decor) : Prop :=
  (∀ t ∈ d.before, before t) ∧ ∀ t ∈ d.after, after t

/-- The decor of a value; other items have none. -/
def Item.decor : Item → Decor
  | .scalar _ _ d => d
  | .array _ _ _ d => d
  | .inline _ _ _ d => d
  | _ => {}

/-- Whether the item is written after a key and `=`. -/
def Item.isValue : Item → Bool
  | .scalar _ _ _ => true
  | .array _ _ _ _ => true
  | .inline _ _ _ _ => true
  | _ => false

def Item.hasHeader : Item → Bool
  | .table head _ => !head.dotted
  | _ => false

def Entries.names (es : Entries) : List Text :=
  es.map fun p => p.1.name

/-- Items that can be written out and read again: spellings are those of their values, keys differ
from each other, and around everything is what may stand there. -/
inductive Item.Sound : Item → Prop where
  | scalar {value : Scalar} {t : Text} {d : Decor} (h : value.IsSpelled t) :
      Sound (.scalar value t d)
  | array {items : List Item} {comma : Bool} {closing : Text} {d : Decor}
      (hitems : ∀ i ∈ items, Sound i) (haround : ∀ i ∈ items, i.decor.Fits IsGap IsGap)
      (hclosing : IsGap closing) (hcomma : items = [] → comma = false) :
      Sound (.array items comma closing d)
  | inline {dotted : Bool} {opening : Text} {es : Entries} {d : Decor}
      (hopening : IsSpaces opening) (hnames : es.names.Nodup) (hkeys : ∀ p ∈ es, p.1.Tight)
      (hitems : ∀ p ∈ es, Sound p.2) (haround : ∀ p ∈ es, p.2.decor.Fits IsSpaces IsSpaces) :
      Sound (.inline dotted opening es d)
  | table {head : Head} {es : Entries} (hhead : head.decor.Fits IsGap IsTail)
      (hnames : es.names.Nodup) (hkeys : ∀ p ∈ es, p.1.Sound)
      (htight : ∀ p ∈ es, p.2.hasHeader = true → p.1.Tight) (hitems : ∀ p ∈ es, Sound p.2)
      (haround : ∀ p ∈ es, p.2.decor.Fits IsSpaces IsTail) : Sound (.table head es)
  | tables {elements : List (Head × Entries)}
      (helements : ∀ x ∈ elements, Sound (.table x.1 x.2)) : Sound (.tables elements)

theorem IsSpaces.isTail (h : IsSpaces s) : IsTail s :=
  ⟨s, [], (List.append_nil s).symm, h, .nil⟩

theorem Item.Sound.withDecor {i : Item} (h : i.Sound) (d : Decor) : (i.withDecor d).Sound := by
  cases h with
  | scalar h => exact .scalar h
  | array hitems haround hclosing hcomma => exact .array hitems haround hclosing hcomma
  | inline hopening hnames hkeys hitems haround =>
      exact .inline hopening hnames hkeys hitems haround
  | table hhead hnames hkeys htight hitems haround =>
      exact .table hhead hnames hkeys htight hitems haround
  | tables h => exact .tables h

theorem Item.isValue_withDecor (i : Item) (d : Decor) : (i.withDecor d).isValue = i.isValue := by
  cases i <;> rfl

/-- A value gets the decor that it is given. -/
theorem Item.withDecor_fits {before after : Text → Prop} {d : Decor} (h : d.Fits before after)
    (i : Item) : (i.withDecor d).decor.Fits before after := by
  cases i with
  | scalar | array | inline => exact h
  | table | tables => exact ⟨nofun, nofun⟩

theorem Decor.fits_some {before after : Text → Prop} {b a : Text} (hb : before b) (ha : after a) :
    (⟨some b, some a⟩ : Decor).Fits before after :=
  ⟨by rintro t ⟨⟩; exact hb, by rintro t ⟨⟩; exact ha⟩

theorem Decor.fits_empty {before after : Text → Prop} : ({} : Decor).Fits before after :=
  ⟨nofun, nofun⟩

namespace Entries

variable {es : Entries} {name : Text}

theorem get?_eq_none_iff : es.get? name = none ↔ name ∉ es.names := by
  induction es with
  | nil => simp [get?, names]
  | cons p es ih =>
      rw [get?, names, List.map_cons, List.mem_cons, not_or]
      split
      · rename_i hname
        simp [hname]
      · rename_i hname
        rw [ih, names]
        simp [Ne.symm hname]

theorem mem_of_get? {i : Item} (h : es.get? name = some i) : ∃ k, (k, i) ∈ es ∧ k.name = name := by
  induction es with
  | nil => contradiction
  | cons p es ih =>
      rw [get?] at h
      split at h
      · rename_i hname
        cases h
        exact ⟨p.1, List.mem_cons_self, hname⟩
      · obtain ⟨k, hk, hname⟩ := ih h
        exact ⟨k, List.mem_cons_of_mem _ hk, hname⟩

theorem has_eq_false_iff : es.has name = false ↔ name ∉ es.names := by
  rw [has, Option.isSome_eq_false_iff, Option.isNone_iff_eq_none, get?_eq_none_iff]

theorem names_set (name : Text) (item : Item) (es : Entries) :
    (es.set name item).names = es.names := by
  rw [names, names, set, List.map_map]
  refine List.map_congr_left fun p _ => ?_
  simp only [Function.comp]
  split <;> rfl

theorem mem_set {item : Item} {p : Key × Item} (h : p ∈ es.set name item) :
    p ∈ es ∨ ∃ i, (p.1, i) ∈ es ∧ p.1.name = name ∧ p.2 = item := by
  obtain ⟨q, hq, rfl⟩ := List.mem_map.mp h
  dsimp only
  split
  · rename_i hname
    exact .inr ⟨q.2, hq, hname, rfl⟩
  · exact .inl hq

theorem names_append (es : Entries) (k : Key) (i : Item) :
    (es ++ [(k, i)]).names = es.names ++ [k.name] := by
  simp [names]

theorem nodup_append {k : Key} {i : Item} (h : es.names.Nodup) (hk : k.name ∉ es.names) :
    (es ++ [(k, i)]).names.Nodup := by
  rw [names_append]
  refine List.nodup_append.mpr ⟨h, by simp, ?_⟩
  intro a ha b hb
  obtain rfl := List.mem_singleton.mp hb
  rintro rfl
  exact hk ha

/-- The entries of an inline table can be written out and read again. -/
def InlineSound (es : Entries) : Prop :=
  es.names.Nodup ∧ ∀ p ∈ es, p.1.Tight ∧ p.2.Sound ∧ p.2.decor.Fits IsSpaces IsSpaces

theorem InlineSound.inline (h : es.InlineSound) {opening : Text} (hopening : IsSpaces opening)
    (dotted : Bool) (d : Decor) : (Item.inline dotted opening es d).Sound :=
  .inline hopening h.1 (fun p hp => (h.2 p hp).1) (fun p hp => (h.2 p hp).2.1)
    fun p hp => (h.2 p hp).2.2

theorem inlineSound_of_sound {dotted : Bool} {opening : Text} {d : Decor}
    (h : (Item.inline dotted opening es d).Sound) : IsSpaces opening ∧ es.InlineSound := by
  cases h with
  | inline hopening hnames hkeys hitems haround =>
      exact ⟨hopening, hnames, fun p hp => ⟨hkeys p hp, hitems p hp, haround p hp⟩⟩

theorem InlineSound.append (h : es.InlineSound) {k : Key} {i : Item} (hname : k.name ∉ es.names)
    (hk : k.Tight) (hi : i.Sound) (haround : i.decor.Fits IsSpaces IsSpaces) :
    Entries.InlineSound (es ++ [(k, i)]) := by
  refine ⟨nodup_append h.1 hname, fun p hp => ?_⟩
  rcases List.mem_append.mp hp with hp | hp
  · exact h.2 p hp
  · obtain rfl := List.mem_singleton.mp hp
    exact ⟨hk, hi, haround⟩

theorem insertInline_sound {key : Key} {item : Item} (hkey : key.Tight) (hitem : item.Sound)
    (haround : item.decor.Fits IsSpaces IsSpaces) {path : List Key} (hpath : ∀ k ∈ path, k.Tight)
    {dotted : Bool} {es' : Entries} (h : es.InlineSound)
    (hinsert : insertInline key item path dotted es = some es') : es'.InlineSound := by
  induction path generalizing es es' dotted with
  | nil =>
      rw [insertInline] at hinsert
      split at hinsert
      · contradiction
      · rename_i hname
        cases hinsert
        exact h.append (has_eq_false_iff.mp (by simpa using hname)) hkey hitem haround
  | cons k path ih =>
      obtain ⟨hk, hpath⟩ := List.forall_mem_cons.mp hpath
      rw [insertInline] at hinsert
      split at hinsert
      · rename_i hget
        obtain ⟨inner, hinner, hes'⟩ := Option.bind_eq_some_iff.mp hinsert
        cases hes'
        have hempty : Entries.InlineSound [] := ⟨List.nodup_nil, nofun⟩
        exact h.append (get?_eq_none_iff.mp hget) hk
          ((ih hpath hempty hinner).inline isSpaces_nil _ _) Decor.fits_empty
      · rename_i opening inner d hget
        obtain ⟨inner', hinner, hes'⟩ := Option.bind_eq_some_iff.mp hinsert
        cases hes'
        obtain ⟨k', hmem, -⟩ := mem_of_get? hget
        obtain ⟨-, hsound, hfits⟩ := h.2 _ hmem
        obtain ⟨hopening, hinnerSound⟩ := inlineSound_of_sound hsound
        refine ⟨by rw [names_set]; exact h.1, fun p hp => ?_⟩
        rcases mem_set hp with hp | ⟨i, hi, -, hp⟩
        · exact h.2 p hp
        · rw [hp]
          exact ⟨(h.2 _ hi).1, (ih hpath hinnerSound hinner).inline hopening _ _, hfits⟩
      · contradiction

end Entries
namespace Reader

variable {i : Item}

/-- The items that a reader reads can be written out and read again. -/
def ReadsSound (x : Reader Item) : Prop :=
  ∀ {s i rest}, x s = .ok (i, rest) → i.Sound ∧ i.isValue = true

theorem boolean_eq_ok {b : Bool} :
    boolean s = .ok (b, rest) ↔ s = booleanSpelling b ++ rest := by
  have htrue : "true".toList = ['t', 'r', 'u', 'e'] := by decide
  have hfalse : "false".toList = ['f', 'a', 'l', 's', 'e'] := by decide
  simp only [boolean, orElse_eq_ok, seqRight_eq_ok, exactly_eq_ok, pure_eq_ok, htrue, hfalse]
  constructor
  · rintro (⟨_, _, rfl, rfl, rfl⟩ | ⟨-, _, _, rfl, rfl, rfl⟩) <;> rfl
  · intro h
    cases b with
    | true => exact .inl ⟨(), rest, h, rfl, rfl⟩
    | false =>
        refine .inr ⟨fails_of_forall fun u r hr => ?_, (), rest, h, rfl, rfl⟩
        obtain ⟨_, mid, hr, -⟩ := seqRight_eq_ok.mp hr
        rw [exactly_eq_ok.mp hr] at h
        cases h

theorem scalar_sound : ReadsSound scalar := by
  intro s i rest h
  obtain ⟨⟨value, t⟩, mid, hread, h⟩ := bind_eq_ok.mp h
  obtain ⟨rfl, -⟩ := pure_eq_ok.mp h
  refine ⟨.scalar ?_, rfl⟩
  have hvalue := (spelled_eq_ok.mp hread).1
  simp only [orElse_eq_ok, map_eq_ok, seqRight_eq_ok, pure_eq_ok] at hvalue
  rcases hvalue with ⟨v, hv, rfl⟩
    | ⟨-, ⟨b, hb, rfl⟩ | ⟨-, ⟨_, _, -, rfl, -⟩ | ⟨-, _, _, -, rfl, -⟩⟩⟩
  · obtain ⟨c, t', hc, rfl, ht⟩ := string_eq_ok hv
    rw [spelled_of_eq_append hread rfl]
    exact ⟨⟨c, t', rfl, hc⟩, ht⟩
  · exact spelled_of_eq_append hread (boolean_eq_ok.mp hb)
  · trivial
  · trivial

variable {value : Reader Item}

/-- A pair of an inline table. -/
def SoundPair (p : List Key × Key × Item) : Prop :=
  (∀ k ∈ p.1, k.Tight) ∧ p.2.1.Tight ∧ p.2.2.Sound ∧ p.2.2.decor.Fits IsSpaces IsSpaces ∧
    p.2.2.isValue = true

theorem pair_eq_ok (hvalue : ReadsSound value) {p : List Key × Key × Item}
    (h : pair value s = .ok (p, rest)) : SoundPair p := by
  obtain ⟨keys, s₁, hkeys, h⟩ := bind_eq_ok.mp h
  obtain ⟨_, s₂, -, h⟩ := bind_eq_ok.mp h
  obtain ⟨before, s₃, hbefore, h⟩ := bind_eq_ok.mp h
  obtain ⟨c, s₄, -, h⟩ := bind_eq_ok.mp h
  split at h
  · obtain ⟨_, _, h, -⟩ := bind_eq_ok.mp h
    exact absurd h not_throw_eq_ok
  · obtain ⟨item, s₅, hitem, h⟩ := bind_eq_ok.mp h
    obtain ⟨after, s₆, hafter, h⟩ := bind_eq_ok.mp h
    have htight := (dottedKey_eq_ok hkeys).2
    cases hkey : keys.getLast? with
    | some key =>
      rw [hkey] at h
      obtain ⟨rfl, -⟩ := pure_eq_ok.mp h
      exact ⟨fun k hk => htight k (List.dropLast_subset _ hk),
        htight key (List.mem_of_getLast? hkey), (hvalue hitem).1.withDecor _,
        Item.withDecor_fits (Decor.fits_some (spaces_eq_ok hbefore).2 (spaces_eq_ok hafter).2) _,
        by rw [Item.isValue_withDecor]; exact (hvalue hitem).2⟩
    | none =>
      rw [hkey] at h
      exact absurd h not_failure_eq_ok

theorem elements_eq_ok (hvalue : ReadsSound value) {comma comma' : Bool} {fuel : Nat}
    {items : List Item} {closing : Text}
    (h : elements value comma fuel s = .ok ((items, comma', closing), rest)) :
    (∀ i ∈ items, i.Sound ∧ i.decor.Fits IsGap IsGap) ∧ IsGap closing ∧
      (items = [] → comma' = comma) := by
  induction fuel generalizing s comma items comma' closing rest with
  | zero => exact absurd h not_failure_eq_ok
  | succ fuel ih =>
      obtain ⟨before, s₁, hbefore, h⟩ := bind_eq_ok.mp h
      obtain ⟨c, s₂, hpeek, h⟩ := bind_eq_ok.mp h
      have hgap := (gap_eq_ok hbefore).2
      split at h
      · exact absurd h not_failure_eq_ok
      · exact absurd h not_throw_eq_ok
      · exact absurd h not_throw_eq_ok
      · obtain ⟨_, s₃, -, h⟩ := bind_eq_ok.mp h
        obtain ⟨⟨⟩, -⟩ := pure_eq_ok.mp h
        exact ⟨nofun, hgap, fun _ => rfl⟩
      · obtain ⟨item, s₃, hitem, h⟩ := bind_eq_ok.mp h
        obtain ⟨after, s₄, hafter, h⟩ := bind_eq_ok.mp h
        obtain ⟨c', s₅, hpeek', h⟩ := bind_eq_ok.mp h
        have hsound : (item.withDecor ⟨some before, some after⟩).Sound ∧
            (item.withDecor ⟨some before, some after⟩).decor.Fits IsGap IsGap :=
          ⟨(hvalue hitem).1.withDecor _,
            Item.withDecor_fits (Decor.fits_some hgap (gap_eq_ok hafter).2) _⟩
        split at h
        · obtain ⟨_, s₆, -, h⟩ := bind_eq_ok.mp h
          obtain ⟨⟨more, comma'', closing'⟩, s₇, hmore, h⟩ := bind_eq_ok.mp h
          obtain ⟨⟨⟩, -⟩ := pure_eq_ok.mp h
          obtain ⟨hitems, hclosing, -⟩ := ih hmore
          exact ⟨List.forall_mem_cons.mpr ⟨hsound, hitems⟩, hclosing, nofun⟩
        · obtain ⟨_, s₆, -, h⟩ := bind_eq_ok.mp h
          obtain ⟨⟨⟩, -⟩ := pure_eq_ok.mp h
          exact ⟨by simpa using hsound, .nil, nofun⟩

theorem array_sound (hvalue : ReadsSound value) : ReadsSound (array value) := by
  intro s i rest h
  obtain ⟨_, s₁, -, h⟩ := bind_eq_ok.mp h
  obtain ⟨⟨items, comma, closing⟩, s₂, hread, h⟩ := bind_eq_ok.mp h
  obtain ⟨rfl, -⟩ := pure_eq_ok.mp h
  obtain ⟨hitems, hclosing, hcomma⟩ := elements_eq_ok hvalue hread
  exact ⟨.array (fun i hi => (hitems i hi).1) (fun i hi => (hitems i hi).2) hclosing hcomma, rfl⟩

theorem pairs_eq_ok (hvalue : ReadsSound value) {fuel : Nat} {read : List (List Key × Key × Item)}
    (h : pairs value fuel s = .ok (read, rest)) : ∀ p ∈ read, SoundPair p := by
  induction fuel generalizing s read rest with
  | zero => exact absurd h not_failure_eq_ok
  | succ fuel ih =>
      obtain ⟨first, s₁, hfirst, h⟩ := bind_eq_ok.mp h
      obtain ⟨o, s₂, -, h⟩ := bind_eq_ok.mp h
      cases o with
      | some u =>
          obtain ⟨more, s₃, hmore, h⟩ := bind_eq_ok.mp h
          obtain ⟨rfl, -⟩ := pure_eq_ok.mp h
          exact List.forall_mem_cons.mpr ⟨pair_eq_ok hvalue hfirst, ih hmore⟩
      | none =>
          obtain ⟨_, s₃, -, h⟩ := bind_eq_ok.mp h
          obtain ⟨rfl, -⟩ := pure_eq_ok.mp h
          simpa using pair_eq_ok hvalue hfirst

theorem ofInlinePairs?_sound {read : List (List Key × Key × Item)} (hread : ∀ p ∈ read, SoundPair p)
    {es es' : Entries} (h : es.InlineSound)
    (hes' : read.foldlM (fun es (path, key, item) =>
      Entries.insertInline key item path false es) es = some es') : es'.InlineSound := by
  induction read generalizing es with
  | nil =>
      cases hes'
      exact h
  | cons p read ih =>
      obtain ⟨⟨hpath, hkey, hitem, haround, -⟩, hmore⟩ := List.forall_mem_cons.mp hread
      obtain ⟨es₁, hinsert, hfold⟩ := Option.bind_eq_some_iff.mp hes'
      exact ih hmore (Entries.insertInline_sound hkey hitem haround hpath h hinsert) hfold

theorem inlineTable_sound (hvalue : ReadsSound value) : ReadsSound (inlineTable value) := by
  intro s i rest h
  have hempty : Entries.InlineSound [] := ⟨List.nodup_nil, nofun⟩
  obtain ⟨_, s₁, -, h⟩ := bind_eq_ok.mp h
  obtain ⟨o, s₂, hblank, h⟩ := bind_eq_ok.mp h
  cases o with
  | some blank =>
      obtain ⟨rfl, -⟩ := pure_eq_ok.mp h
      rcases optional?_eq_ok.mp hblank with ⟨_, ⟨⟩, hblank⟩ | ⟨⟨⟩, -⟩
      obtain ⟨mid, _, hspaces, -⟩ := seqLeft_eq_ok.mp hblank
      exact ⟨hempty.inline (spaces_eq_ok hspaces).2 _ _, rfl⟩
  | none =>
      obtain ⟨read, s₃, hread, h⟩ := bind_eq_ok.mp h
      cases hes : Entries.ofInlinePairs? read with
      | some es =>
          rw [hes] at h
          obtain ⟨rfl, -⟩ := pure_eq_ok.mp h
          exact ⟨(ofInlinePairs?_sound (pairs_eq_ok hvalue hread) hempty hes).inline isSpaces_nil
            _ _, rfl⟩
      | none =>
          rw [hes] at h
          exact absurd h not_failure_eq_ok

theorem value_sound (room : Nat) : ReadsSound (Reader.value room) := by
  induction room with
  | zero => exact scalar_sound
  | succ room ih =>
      intro s i rest h
      obtain ⟨c, s₁, hpeek, h⟩ := bind_eq_ok.mp h
      split at h
      · exact array_sound ih h
      · exact inlineTable_sound ih h
      · exact scalar_sound h

end Reader
end Toml
end Shorthand
