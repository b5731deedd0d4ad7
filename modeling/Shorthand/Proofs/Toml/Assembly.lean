import Shorthand.Proofs.Toml.Value
import Shorthand.Toml.Assembly

/-!
A document that is read can be written out and read again: so can its statements, and so can the
tables at every stage of its assembly.
-/

namespace Shorthand
namespace Toml

variable {s rest : Text} {es : Entries}

/-- White space and comments; the last line may lack its line end. -/
def IsEnding (t : Text) : Prop :=
  ∃ g remark, t = g ++ remark ∧ IsGap g ∧ IsRemark remark

def Statement.Sound : Statement → Prop
  | .pair path key item =>
      (∀ k ∈ path, k.Tight) ∧ key.Sound ∧ item.Sound ∧ item.decor.Fits IsSpaces IsTail ∧
        item.isValue = true
  | .header path decor => (∀ k ∈ path, k.Tight) ∧ decor.Fits IsGap IsTail
  | .arrayHeader path decor => (∀ k ∈ path, k.Tight) ∧ decor.Fits IsGap IsTail

theorem Key.Tight.prepend {k : Key} (h : k.Tight) {before : Text} (hbefore : IsGap before) :
    (k.prepend before).Sound where
  spelled := h.spelled
  before := by
    rintro t ⟨⟩
    refine hbefore.append ?_
    cases hb : k.decor.before with
    | none => exact .nil
    | some b => exact h.before b hb
  after := h.after
  innerBefore := h.innerBefore
  innerAfter := h.innerAfter

theorem Decor.Fits.extend {d : Decor} (h : d.Fits IsSpaces IsSpaces) {tail : Text}
    (htail : IsTail tail) : Decor.Fits IsSpaces IsTail { d with
      after := some (d.after.getD [] ++ tail) } := by
  refine ⟨h.1, ?_⟩
  rintro t ⟨⟩
  obtain ⟨blanks, remark, rfl, hblanks, hremark⟩ := htail
  have hafter : IsSpaces (d.after.getD []) := by
    cases ha : d.after with
    | none => exact isSpaces_nil
    | some a => exact h.2 a ha
  exact ⟨_, remark, (List.append_assoc ..).symm, isSpaces_append.mpr ⟨hafter, hblanks⟩, hremark⟩

theorem Item.extend_sound {i : Item} (hi : i.Sound) (haround : i.decor.Fits IsSpaces IsSpaces)
    (hvalue : i.isValue = true) {tail : Text} (htail : IsTail tail) :
    (i.extend tail).Sound ∧ (i.extend tail).decor.Fits IsSpaces IsTail ∧
      (i.extend tail).isValue = true := by
  cases hi with
  | scalar h => exact ⟨.scalar h, haround.extend htail, rfl⟩
  | array hitems hfits hclosing hcomma =>
      exact ⟨.array hitems hfits hclosing hcomma, haround.extend htail, rfl⟩
  | inline hopening hnames hkeys hitems hfits =>
      exact ⟨.inline hopening hnames hkeys hitems hfits, haround.extend htail, rfl⟩
  | table | tables => contradiction

namespace Reader

theorem header_eq_ok {before : Text} (hbefore : IsGap before) {st : Statement}
    (h : header before s = .ok (st, rest)) : st.Sound := by
  obtain ⟨_, s₁, -, h⟩ := bind_eq_ok.mp h
  obtain ⟨o, s₂, -, h⟩ := bind_eq_ok.mp h
  obtain ⟨path, s₃, hpath, h⟩ := bind_eq_ok.mp h
  obtain ⟨_, s₄, -, h⟩ := bind_eq_ok.mp h
  obtain ⟨tail, s₅, htail, h⟩ := bind_eq_ok.mp h
  obtain ⟨rfl, -⟩ := pure_eq_ok.mp h
  have hfits : Decor.Fits IsGap IsTail ⟨some before, some tail⟩ :=
    Decor.fits_some hbefore (lineTail_eq_ok htail)
  cases o <;> exact ⟨(dottedKey_eq_ok hpath).2, hfits⟩

theorem statement_eq_ok {before : Text} (hbefore : IsGap before) {st : Statement}
    (h : statement before s = .ok (st, rest)) : st.Sound := by
  obtain ⟨c, s₁, -, h⟩ := bind_eq_ok.mp h
  split at h
  · exact header_eq_ok hbefore h
  · exact absurd h not_throw_eq_ok
  · exact absurd h not_throw_eq_ok
  · obtain ⟨⟨path, key, item⟩, s₂, hpair, h⟩ := bind_eq_ok.mp h
    obtain ⟨tail, s₃, htail, h⟩ := bind_eq_ok.mp h
    obtain ⟨rfl, -⟩ := pure_eq_ok.mp h
    obtain ⟨hpath, hkey, hitem, haround, hvalue⟩ := pair_eq_ok (value_sound _) hpair
    exact ⟨hpath, hkey.prepend hbefore,
      Item.extend_sound hitem haround hvalue (lineTail_eq_ok htail)⟩

end Reader

namespace Statement

theorem read_sound (fuel : Nat) (s : Text) :
    (∀ st ∈ (read fuel s).1, st.Sound) ∧
      ∀ trailing, (read fuel s).2 = .ok trailing → IsEnding trailing := by
  induction fuel generalizing s with
  | zero => exact ⟨nofun, nofun⟩
  | succ fuel ih =>
      rw [read]
      split
      · exact ⟨nofun, nofun⟩
      · rename_i before hlead
        obtain ⟨-, g, remark, hbefore, hg, hremark, -⟩ := Reader.lead_eq_ok hlead
        refine ⟨nofun, ?_⟩
        rintro t ⟨⟩
        exact ⟨g, remark, hbefore, hg, hremark⟩
      · rename_i before s' hne hlead
        obtain ⟨-, g, remark, hbefore, hg, -, hend⟩ := Reader.lead_eq_ok hlead
        obtain rfl : remark = [] := hend.resolve_right hne
        rw [List.append_nil] at hbefore
        subst hbefore
        split
        · exact ⟨nofun, nofun⟩
        · rename_i first s'' hstatement
          obtain ⟨hrest, htrailing⟩ := ih s''
          exact ⟨List.forall_mem_cons.mpr ⟨Reader.statement_eq_ok hg hstatement, hrest⟩, htrailing⟩

end Statement
namespace Entries

/-- The entries of a table can be written out and read again. -/
def Sound (es : Entries) : Prop :=
  (Item.table {} es).Sound

theorem sound_iff : es.Sound ↔ es.names.Nodup ∧ (∀ p ∈ es, p.1.Sound) ∧
    (∀ p ∈ es, p.2.hasHeader = true → p.1.Tight) ∧ (∀ p ∈ es, p.2.Sound) ∧
      ∀ p ∈ es, p.2.decor.Fits IsSpaces IsTail := by
  constructor
  · intro h
    cases h with
    | table _ hnames hkeys htight hitems haround => exact ⟨hnames, hkeys, htight, hitems, haround⟩
  · rintro ⟨hnames, hkeys, htight, hitems, haround⟩
    exact .table Decor.fits_empty hnames hkeys htight hitems haround

theorem table_sound_iff {head : Head} :
    (Item.table head es).Sound ↔ head.decor.Fits IsGap IsTail ∧ es.Sound := by
  constructor
  · intro h
    cases h with
    | table hhead hnames hkeys htight hitems haround =>
        exact ⟨hhead, .table Decor.fits_empty hnames hkeys htight hitems haround⟩
  · rintro ⟨hhead, hes⟩
    cases hes with
    | table _ hnames hkeys htight hitems haround =>
        exact .table hhead hnames hkeys htight hitems haround

theorem sound_nil : Sound [] :=
  sound_iff.mpr ⟨List.nodup_nil, nofun, nofun, nofun, nofun⟩

theorem Sound.append (h : es.Sound) {k : Key} {i : Item} (hname : k.name ∉ es.names)
    (hk : k.Sound) (htight : i.hasHeader = true → k.Tight) (hi : i.Sound)
    (haround : i.decor.Fits IsSpaces IsTail) : Sound (es ++ [(k, i)]) := by
  obtain ⟨hnames, hkeys, htights, hitems, harounds⟩ := sound_iff.mp h
  refine sound_iff.mpr ⟨nodup_append hnames hname, ?_, ?_, ?_, ?_⟩
  all_goals
    intro p hp
    rcases List.mem_append.mp hp with hp | hp
  · exact hkeys p hp
  · exact List.mem_singleton.mp hp ▸ hk
  · exact htights p hp
  · exact List.mem_singleton.mp hp ▸ htight
  · exact hitems p hp
  · exact List.mem_singleton.mp hp ▸ hi
  · exact harounds p hp
  · exact List.mem_singleton.mp hp ▸ haround

/-- Items may be replaced by others that can be written where they stand. -/
theorem Sound.map (h : es.Sound) {f : Key × Item → Item}
    (hf : ∀ p ∈ es, f p = p.2 ∨ (f p).Sound ∧ (f p).decor.Fits IsSpaces IsTail ∧
      ((f p).hasHeader = true → p.2.hasHeader = true)) :
    Sound (es.map fun p => (p.1, f p)) := by
  obtain ⟨hnames, hkeys, htights, hitems, harounds⟩ := sound_iff.mp h
  have hsame : Entries.names (es.map fun p => (p.1, f p)) = es.names := by
    rw [names, names, List.map_map]
    rfl
  refine sound_iff.mpr ⟨hsame ▸ hnames, ?_, ?_, ?_, ?_⟩
  all_goals
    intro p hp
    obtain ⟨q, hq, rfl⟩ := List.mem_map.mp hp
    rcases hf q hq with heq | ⟨hsound, haround, hheader⟩
  · exact hkeys q hq
  · exact hkeys q hq
  · exact fun hp => htights q hq (heq ▸ hp)
  · exact fun hp => htights q hq (hheader hp)
  · exact heq.symm ▸ hitems q hq
  · exact hsound
  · exact heq.symm ▸ harounds q hq
  · exact haround

theorem set_eq_map (name : Text) (item : Item) (es : Entries) :
    es.set name item = es.map fun p => (p.1, if p.1.name = name then item else p.2) := by
  refine List.map_congr_left fun ⟨k, i⟩ _ => ?_
  exact (apply_ite (Prod.mk k) _ item i).symm

theorem Sound.set (h : es.Sound) {name : Text} {item : Item} (hi : item.Sound)
    (haround : item.decor.Fits IsSpaces IsTail)
    (hheader : ∀ k i, (k, i) ∈ es → k.name = name → item.hasHeader = true → i.hasHeader = true) :
    Sound (es.set name item) := by
  rw [set_eq_map]
  refine h.map fun p hp => ?_
  split
  · rename_i hname
    exact .inr ⟨hi, haround, hheader p.1 p.2 hp hname⟩
  · exact .inl rfl

theorem erase_sublist (name : Text) (es : Entries) : (es.erase name).Sublist es :=
  List.filter_sublist

theorem Sound.erase (h : es.Sound) (name : Text) : Sound (es.erase name) := by
  obtain ⟨hnames, hkeys, htights, hitems, harounds⟩ := sound_iff.mp h
  have hmem := (erase_sublist name es).subset
  exact sound_iff.mpr ⟨((erase_sublist name es).map _).nodup hnames, fun p hp => hkeys p (hmem hp),
    fun p hp => htights p (hmem hp), fun p hp => hitems p (hmem hp),
    fun p hp => harounds p (hmem hp)⟩

/-- With names that differ, an entry is the one that its name leads to. -/
theorem get?_of_mem (h : es.names.Nodup) {k : Key} {i : Item} (hmem : (k, i) ∈ es) :
    es.get? k.name = some i := by
  induction es with
  | nil => contradiction
  | cons p es ih =>
      rw [names, List.map_cons, List.nodup_cons] at h
      rw [get?]
      rcases List.mem_cons.mp hmem with rfl | hmem
      · rw [if_pos rfl]
      · rw [if_neg, ih h.2 hmem]
        intro hname
        exact h.1 (List.mem_map.mpr ⟨_, hmem, hname.symm⟩)

variable {α : Type} {byDots dotted : Bool}
  {change : (dotted : Bool) → Entries → Option (α × Entries)} {P : α → Prop} {a : α}

/-- A change inside of a document keeps it sound if it keeps the entries sound that it is made
to. -/
theorem within_sound
    (hchange : ∀ {dotted es a es'}, Sound es → change dotted es = some (a, es') →
      Sound es' ∧ P a)
    {path : List Key} (hpath : ∀ k ∈ path, k.Tight) {es' : Entries} (h : es.Sound)
    (hwithin : within byDots change path dotted es = some (a, es')) : es'.Sound ∧ P a := by
  induction path generalizing dotted es es' a with
  | nil => exact hchange h hwithin
  | cons k path ih =>
      obtain ⟨hk, hpath⟩ := List.forall_mem_cons.mp hpath
      obtain ⟨hnames, -, -, hitems, -⟩ := sound_iff.mp h
      rw [within] at hwithin
      split at hwithin
      · rename_i hget
        obtain ⟨⟨a', inner⟩, hinner, hes'⟩ := Option.bind_eq_some_iff.mp hwithin
        cases hes'
        obtain ⟨hsound, ha⟩ := ih hpath sound_nil hinner
        refine ⟨h.append (get?_eq_none_iff.mp hget) hk.toSound (fun _ => hk)
          (table_sound_iff.mpr ⟨Decor.fits_empty, hsound⟩) Decor.fits_empty, ha⟩
      · rename_i head inner hget
        split at hwithin
        · contradiction
        · obtain ⟨⟨a', inner'⟩, hinner, hes'⟩ := Option.bind_eq_some_iff.mp hwithin
          cases hes'
          obtain ⟨k', hmem, hname⟩ := mem_of_get? hget
          obtain ⟨hhead, hsound⟩ := table_sound_iff.mp (hitems _ hmem)
          obtain ⟨hsound', ha⟩ := ih hpath hsound hinner
          refine ⟨h.set (table_sound_iff.mpr ⟨hhead, hsound'⟩) Decor.fits_empty ?_, ha⟩
          intro k'' i hi hname' hheader
          have := get?_of_mem hnames hi
          rw [hname', hget] at this
          exact Option.some.inj this ▸ hheader
      · rename_i elements hget
        obtain ⟨⟨head, inner⟩, hlast, hwithin⟩ := Option.bind_eq_some_iff.mp hwithin
        obtain ⟨⟨a', inner'⟩, hinner, hes'⟩ := Option.bind_eq_some_iff.mp hwithin
        cases hes'
        obtain ⟨k', hmem, -⟩ := mem_of_get? hget
        have helements : ∀ x ∈ elements, (Item.table x.1 x.2).Sound := by
          cases hitems _ hmem with
          | tables helements => exact helements
        obtain ⟨hhead, hsound⟩ := table_sound_iff.mp
          (helements _ (List.mem_of_getLast? hlast))
        obtain ⟨hsound', ha⟩ := ih hpath hsound hinner
        refine ⟨h.set (.tables fun x hx => ?_) Decor.fits_empty nofun, ha⟩
        rcases List.mem_append.mp hx with hx | hx
        · exact helements x (List.dropLast_subset _ hx)
        · obtain rfl := List.mem_singleton.mp hx
          exact table_sound_iff.mpr ⟨hhead, hsound'⟩
      · contradiction

/-- A change that only answers with the entries keeps them sound wherever it is made. -/
theorem sound_of_within {byDots : Bool} {change : Bool → Entries → Option (Unit × Entries)}
    (hsound : ∀ dotted inner a inner', Sound inner → change dotted inner = some (a, inner') →
      Sound inner') {path : List Key} (hpath : ∀ k ∈ path, k.Tight) (h : es.Sound) {es' : Entries}
    (hchanged : (do
      let (_, es) ← within byDots change path false es
      return es) = some es') : es'.Sound := by
  obtain ⟨⟨_, es₁⟩, hwithin, hes'⟩ := Option.bind_eq_some_iff.mp hchanged
  cases hes'
  refine (within_sound (P := fun _ => True) ?_ hpath h hwithin).1
  intro dotted inner a inner' hinner hchange
  exact ⟨hsound dotted inner a inner' hinner hchange, trivial⟩

theorem addPair_sound {path : List Key} {key : Key} {item : Item}
    (h : es.Sound) (hst : (Statement.pair path key item).Sound) {es' : Entries}
    (hadd : addPair path key item es = some es') : es'.Sound := by
  obtain ⟨hpath, hkey, hitem, haround, hvalue⟩ := hst
  refine sound_of_within ?_ hpath h hadd
  intro dotted inner a inner' hinner hchange
  split at hchange
  · contradiction
  · rename_i hname
    cases hchange
    simp only [Bool.or_eq_true, not_or, Bool.not_eq_true] at hname
    refine hinner.append (has_eq_false_iff.mp hname.2) hkey ?_ hitem haround
    intro hheader
    cases item <;> contradiction

theorem takeImplicit_sound {path : List Key} {key : Key} (hpath : ∀ k ∈ path, k.Tight)
    (h : es.Sound) {own es' : Entries} (htake : takeImplicit path key es = some (own, es')) :
    es'.Sound ∧ own.Sound := by
  refine within_sound (P := Sound) ?_ hpath h htake
  intro dotted inner a inner' hinner hchange
  split at hchange
  · cases hchange
    exact ⟨hinner, sound_nil⟩
  · rename_i head own' hget
    split at hchange
    · cases hchange
      obtain ⟨k, hmem, -⟩ := mem_of_get? hget
      obtain ⟨-, -, -, hitems, -⟩ := sound_iff.mp hinner
      exact ⟨hinner.erase _, (table_sound_iff.mp (hitems _ hmem)).2⟩
    · contradiction
  · contradiction

theorem openArray_sound {path : List Key} {key : Key} (hpath : ∀ k ∈ path, k.Tight)
    (hkey : key.Tight) (h : es.Sound) {es' : Entries}
    (hopen : openArray path key es = some es') : es'.Sound := by
  refine sound_of_within ?_ hpath h hopen
  intro dotted inner a inner' hinner hchange
  split at hchange
  · rename_i hget
    cases hchange
    exact hinner.append (get?_eq_none_iff.mp hget) hkey.toSound nofun (.tables nofun)
      Decor.fits_empty
  · cases hchange
    exact hinner
  · contradiction

theorem addTable_sound {path : List Key} {key : Key} {head : Head} {own : Entries}
    (hpath : ∀ k ∈ path, k.Tight) (hkey : key.Tight) (hhead : head.decor.Fits IsGap IsTail)
    (h : es.Sound) (hown : own.Sound) {es' : Entries}
    (hadd : addTable path key head es own = some es') : es'.Sound := by
  refine sound_of_within ?_ hpath h hadd
  intro dotted inner a inner' hinner hchange
  split at hchange
  · contradiction
  · rename_i hname
    cases hchange
    exact hinner.append (has_eq_false_iff.mp (by simpa using hname)) hkey.toSound
      (fun _ => hkey) (table_sound_iff.mpr ⟨hhead, hown⟩) Decor.fits_empty

theorem addElement_sound {path : List Key} {key : Key} {head : Head} {own : Entries}
    (hpath : ∀ k ∈ path, k.Tight) (hhead : head.decor.Fits IsGap IsTail)
    (h : es.Sound) (hown : own.Sound) {es' : Entries}
    (hadd : addElement path key head es own = some es') : es'.Sound := by
  refine sound_of_within ?_ hpath h hadd
  intro dotted inner a inner' hinner hchange
  split at hchange
  · rename_i elements hget
    cases hchange
    obtain ⟨k, hmem, -⟩ := mem_of_get? hget
    obtain ⟨-, -, -, hitems, -⟩ := sound_iff.mp hinner
    have helements : ∀ x ∈ elements, (Item.table x.1 x.2).Sound := by
      cases hitems _ hmem with
      | tables helements => exact helements
    refine hinner.set (.tables fun x hx => ?_) Decor.fits_empty nofun
    rcases List.mem_append.mp hx with hx | hx
    · exact helements x hx
    · obtain rfl := List.mem_singleton.mp hx
      exact table_sound_iff.mpr ⟨hhead, hown⟩
  · contradiction

end Entries

def Section.Sound : Section → Prop
  | .root => True
  | .table path key head => (∀ k ∈ path, k.Tight) ∧ key.Tight ∧ head.decor.Fits IsGap IsTail
  | .element path key head => (∀ k ∈ path, k.Tight) ∧ key.Tight ∧ head.decor.Fits IsGap IsTail

structure Draft.Sound (d : Draft) : Prop where
  root : d.root.Sound
  current : d.current.Sound
  own : d.own.Sound

theorem Draft.Sound.close {d : Draft} (h : d.Sound) (hclose : d.close = some es) : es.Sound := by
  obtain ⟨hroot, hcurrent, hown⟩ := h
  unfold Draft.close at hclose
  split at hclose
  · cases hclose
    exact hown
  · rename_i path key head hd
    rw [hd] at hcurrent
    exact Entries.addTable_sound hcurrent.1 hcurrent.2.1 hcurrent.2.2 hroot hown hclose
  · rename_i path key head hd
    rw [hd] at hcurrent
    exact Entries.addElement_sound hcurrent.1 hcurrent.2.2 hroot hown hclose

theorem Draft.Sound.add {d d' : Draft} (h : d.Sound) {st : Statement} (hst : st.Sound)
    (hadd : d.add st = some d') : d'.Sound := by
  cases st with
  | pair path key item =>
      obtain ⟨own, hown, hd'⟩ := Option.bind_eq_some_iff.mp hadd
      cases hd'
      exact ⟨h.root, h.current, Entries.addPair_sound h.own hst hown⟩
  | header keys decor =>
      obtain ⟨root, hclose, hadd⟩ := Option.bind_eq_some_iff.mp hadd
      obtain ⟨key, hkey, hadd⟩ := Option.bind_eq_some_iff.mp hadd
      obtain ⟨⟨own, root'⟩, htake, hd'⟩ := Option.bind_eq_some_iff.mp hadd
      cases hd'
      obtain ⟨hkeys, hdecor⟩ := hst
      have hpath : ∀ k ∈ keys.dropLast, k.Tight := fun k hk => hkeys k (List.dropLast_subset _ hk)
      obtain ⟨hroot, hown⟩ := Entries.takeImplicit_sound hpath (h.close hclose) htake
      exact ⟨hroot, ⟨hpath, hkeys key (List.mem_of_getLast? hkey), hdecor⟩, hown⟩
  | arrayHeader keys decor =>
      obtain ⟨root, hclose, hadd⟩ := Option.bind_eq_some_iff.mp hadd
      obtain ⟨key, hkey, hadd⟩ := Option.bind_eq_some_iff.mp hadd
      obtain ⟨root', hopen, hd'⟩ := Option.bind_eq_some_iff.mp hadd
      cases hd'
      obtain ⟨hkeys, hdecor⟩ := hst
      have hpath : ∀ k ∈ keys.dropLast, k.Tight := fun k hk => hkeys k (List.dropLast_subset _ hk)
      have htight := hkeys key (List.mem_of_getLast? hkey)
      exact ⟨Entries.openArray_sound hpath htight (h.close hclose) hopen, ⟨hpath, htight, hdecor⟩,
        Entries.sound_nil⟩

theorem Draft.Sound.foldlM {statements : List Statement} (hst : ∀ st ∈ statements, st.Sound)
    {d d' : Draft} (h : d.Sound) (hfold : statements.foldlM Draft.add d = some d') : d'.Sound := by
  induction statements generalizing d with
  | nil =>
      cases hfold
      exact h
  | cons st statements ih =>
      obtain ⟨hfirst, hmore⟩ := List.forall_mem_cons.mp hst
      obtain ⟨d₁, hadd, hfold⟩ := Option.bind_eq_some_iff.mp hfold
      exact ih hmore (h.add hfirst hadd) hfold

/-- A document that can be written out and read again. -/
structure Document.Sound (d : Document) : Prop where
  entries : d.entries.Sound
  trailing : IsEnding d.trailing

theorem Document.parse_sound {content : Text} {d : Document} (h : parse content = .ok d) :
    d.Sound := by
  unfold parse at h
  have hread := Statement.read_sound
    (((List.isPrefixOf? ['\uFEFF'] content).getD content).length + 1)
    ((List.isPrefixOf? ['\uFEFF'] content).getD content)
  change (∀ st ∈ (Statement.readAll content).1, st.Sound) ∧
    ∀ trailing, (Statement.readAll content).2 = .ok trailing → IsEnding trailing at hread
  obtain ⟨hstatements, htrailing⟩ := hread
  generalize Statement.readAll content = read at h hstatements htrailing
  obtain ⟨statements, outcome⟩ := read
  simp only at h hstatements htrailing
  have hempty : Draft.Sound {} := ⟨Entries.sound_nil, trivial, Entries.sound_nil⟩
  split at h
  · contradiction
  · rename_i draft hdraft
    split at h
    · contradiction
    · contradiction
    · rename_i trailing entries hclose
      cases h
      exact ⟨(hempty.foldlM hstatements hdraft).close hclose, htrailing _ rfl⟩

end Toml
end Shorthand
