import Mathlib.Data.List.Forall2
import Mathlib.Data.List.Perm.Basic
import Shorthand.Proofs.Toml.Printing

/-!
Documents of plain entries that are written out and read again. Tables may come in another order,
and tables without entries that have no header of their own are lost; the content stays.
-/

namespace Shorthand
namespace Toml

variable {s rest : Text}

/-- Two entries say the same. -/
def Same (p q : Key × Item) : Prop :=
  p.1.name = q.1.name ∧ p.2.plain? = q.2.plain?

theorem Item.plain?_text {i : Item} {v : Text} :
    i.plain? = some (.text v) ↔ i.text? = some v := by
  cases i with
  | scalar value => cases value <;> simp [Item.plain?, Item.text?]
  | array | inline | table | tables => simp [Item.plain?, Item.text?]

namespace Entries

variable {es es' : Entries}

theorem names_of_same (h : List.Forall₂ Same es es') : es.names = es'.names := by
  induction h with
  | nil => rfl
  | cons hp _ ih =>
      rw [names, names, List.map_cons, List.map_cons, hp.1]
      exact congrArg _ ih

theorem pairs?_of_same (h : List.Forall₂ Same es es') {pairs : List (Text × Text)}
    (hpairs : es.pairs? = some pairs) : es'.pairs? = some pairs := by
  induction h generalizing pairs with
  | nil => exact hpairs
  | cons hp _ ih =>
      obtain ⟨v, more, hv, hmore, rfl⟩ := pairs?_cons.mp hpairs
      refine pairs?_cons.mpr ⟨v, more, ?_, ih hmore, by rw [hp.1]⟩
      exact Item.plain?_text.mp (hp.2.symm.trans (Item.plain?_text.mpr hv))

theorem text?_of_pairs? {pairs : List (Text × Text)} (h : es.pairs? = some pairs) :
    ∀ p ∈ es, ∃ v, p.2.text? = some v := by
  induction es generalizing pairs with
  | nil => nofun
  | cons p es ih =>
      obtain ⟨v, more, hv, hmore, -⟩ := pairs?_cons.mp h
      exact List.forall_mem_cons.mpr ⟨⟨v, hv⟩, ih hmore⟩

end Entries

/-- Adds copies of the entries to the section that is being read. -/
def AddsOwn (es : Entries) (sts : List Statement) : Prop :=
  ∀ d : Draft, (d.own.names ++ es.names).Nodup → ∃ es', List.Forall₂ Same es es' ∧
    sts.foldlM Draft.add d = some { d with own := d.own ++ es' }

/-- Adds copies of the entries, which are tables, to the document that is being read. -/
def AddsTables (es : Entries) (sts : List Statement) : Prop :=
  ∀ (d : Draft) (read : Entries), d.close = some read → (read.names ++ es.names).Nodup →
    ∃ d' es', List.Forall₂ Same es es' ∧ sts.foldlM Draft.add d = some d' ∧
      d'.close = some (read ++ es')

variable {es es₁ es₂ : Entries} {sts₁ sts₂ : List Statement}

theorem addsOwn_nil : AddsOwn [] [] :=
  fun d _ => ⟨[], .nil, by simp⟩

theorem addsTables_nil : AddsTables [] [] :=
  fun d read hclose _ => ⟨d, [], .nil, rfl, by simpa using hclose⟩

theorem Entries.names_append' (es₁ es₂ : Entries) :
    Entries.names (es₁ ++ es₂) = es₁.names ++ es₂.names :=
  List.map_append

theorem AddsOwn.append (h₁ : AddsOwn es₁ sts₁) (h₂ : AddsOwn es₂ sts₂) :
    AddsOwn (es₁ ++ es₂) (sts₁ ++ sts₂) := by
  intro d hnames
  rw [Entries.names_append', ← List.append_assoc] at hnames
  obtain ⟨es₁', hsame₁, hfold₁⟩ := h₁ d (List.nodup_append.mp hnames).1
  obtain ⟨es₂', hsame₂, hfold₂⟩ := h₂ { d with own := d.own ++ es₁' } (by
    rw [Entries.names_append', ← Entries.names_of_same hsame₁]
    exact hnames)
  refine ⟨es₁' ++ es₂', List.rel_append hsame₁ hsame₂, ?_⟩
  rw [List.foldlM_append, hfold₁]
  simpa using hfold₂

theorem AddsTables.append (h₁ : AddsTables es₁ sts₁) (h₂ : AddsTables es₂ sts₂) :
    AddsTables (es₁ ++ es₂) (sts₁ ++ sts₂) := by
  intro d read hclose hnames
  rw [Entries.names_append', ← List.append_assoc] at hnames
  obtain ⟨d₁, es₁', hsame₁, hfold₁, hclose₁⟩ := h₁ d read hclose (List.nodup_append.mp hnames).1
  obtain ⟨d₂, es₂', hsame₂, hfold₂, hclose₂⟩ := h₂ d₁ _ hclose₁ (by
    rw [Entries.names_append', ← Entries.names_of_same hsame₁]
    exact hnames)
  refine ⟨d₂, es₁' ++ es₂', List.rel_append hsame₁ hsame₂, ?_, by simpa using hclose₂⟩
  rw [List.foldlM_append, hfold₁]
  exact hfold₂

theorem addsOwn_pair {k : Key} {i : Item} {st : Statement}
    (hst : Statement.IsPairOf [] (k, i) st) : AddsOwn [(k, i)] [st] := by
  obtain ⟨path', k', i', rfl, hpath, hname, hplain, -⟩ := hst
  obtain rfl := List.map_eq_nil_iff.mp hpath
  intro d hnames
  refine ⟨[(k', i')], .cons ⟨hname.symm, hplain.symm⟩ .nil, ?_⟩
  have hhas : d.own.has k'.name = false := by
    rw [Entries.has_eq_false_iff, hname]
    intro hmem
    exact (List.nodup_append.mp hnames).2.2 _ hmem _ List.mem_cons_self rfl
  simp [Draft.add, Entries.addPair, Entries.within, hhas]

namespace Entries

variable {name : Text}

theorem get?_append_of_not_mem (h : name ∉ es.names) (other : Entries) :
    Entries.get? name (es ++ other) = other.get? name := by
  induction es with
  | nil => rfl
  | cons p es ih =>
      rw [names, List.map_cons, List.mem_cons, not_or] at h
      rw [List.cons_append, get?, if_neg (Ne.symm h.1), ih h.2]

theorem set_of_not_mem (h : name ∉ es.names) (item : Item) : es.set name item = es := by
  induction es with
  | nil => rfl
  | cons p es ih =>
      rw [names, List.map_cons, List.mem_cons, not_or] at h
      have hmore := ih h.2
      rw [set] at hmore ⊢
      rw [List.map_cons, hmore]
      exact congrArg (· :: es) (if_neg (Ne.symm h.1))

theorem set_append_singleton {k : Key} (h : k.name ∉ es.names) (old new : Item) :
    Entries.set k.name new (es ++ [(k, old)]) = es ++ [(k, new)] := by
  have hes := set_of_not_mem h new
  rw [set] at hes ⊢
  rw [List.map_append, hes]
  simp

end Entries

/-- The head of a table that dotted keys made. -/
def Head.ofDots : Head :=
  { implicit := true, dotted := true }

theorem add_dottedPair {d : Draft} {own inner : Entries} {k kp key : Key} {item : Item}
    (hd : d.own = own ++ [(k, .table .ofDots inner)]) (hk : k.name ∉ own.names)
    (hkp : kp.name = k.name) (hkey : key.name ∉ inner.names) :
    d.add (.pair [kp] key item) =
      some { d with own := own ++ [(k, .table .ofDots (inner ++ [(key, item)]))] } := by
  have hget : d.own.get? k.name = some (.table .ofDots inner) := by
    rw [hd, Entries.get?_append_of_not_mem hk, Entries.get?, if_pos rfl]
  have hset := Entries.set_append_singleton hk (.table .ofDots inner)
    (.table .ofDots (inner ++ [(key, item)]))
  rw [← hd] at hset
  simp only [Draft.add, Entries.addPair, Entries.within, hkp, hget]
  simp [Head.ofDots, Entries.has_eq_false_iff.mpr hkey] at hset ⊢
  exact hset

theorem foldlM_dottedPairs {k : Key} {rest : Entries} {sts : List Statement}
    (hsts : List.Forall₂ (Statement.IsPairOf [k]) rest sts) {d : Draft} {own inner : Entries}
    {k' : Key} (hd : d.own = own ++ [(k', .table .ofDots inner)]) (hk' : k'.name ∉ own.names)
    (hname : k'.name = k.name) (hnames : (inner.names ++ rest.names).Nodup) :
    ∃ rest', List.Forall₂ Same rest rest' ∧ sts.foldlM Draft.add d =
      some { d with own := own ++ [(k', .table .ofDots (inner ++ rest'))] } := by
  induction hsts generalizing d inner with
  | nil => exact ⟨[], .nil, by simp [← hd]⟩
  | @cons p st rest sts hst _ ih =>
      obtain ⟨path', key, item, rfl, hpath, hkey, hplain, -⟩ := hst
      obtain ⟨kp, more, rfl, hkp, hmore⟩ := List.map_eq_cons_iff.mp hpath
      obtain rfl := List.map_eq_nil_iff.mp hmore
      have hfresh : key.name ∉ inner.names := by
        rw [hkey]
        intro hmem
        exact (List.nodup_append.mp hnames).2.2 _ hmem _ List.mem_cons_self rfl
      have hadd : d.add (.pair [kp] key item) = some _ :=
        add_dottedPair hd hk' (hkp.trans hname.symm) hfresh
      obtain ⟨rest', hsame, hfold⟩ := ih
        (d := { d with own := own ++ [(k', .table .ofDots (inner ++ [(key, item)]))] }) rfl (by
          rw [Entries.names_append, hkey, List.append_assoc]
          exact hnames)
      refine ⟨(key, item) :: rest', .cons ⟨hkey.symm, hplain.symm⟩ hsame, ?_⟩
      rw [List.foldlM_cons, hadd]
      simpa using hfold

/-- The first dotted key makes the table and the others find it. -/
theorem addsOwn_dotted {k : Key} {head : Head} {inner : Entries} {sts : List Statement}
    (hne : inner ≠ []) (hinner : inner.names.Nodup) {pairs : List (Text × Text)}
    (hpairs : inner.pairs? = some pairs)
    (hsts : List.Forall₂ (Statement.IsPairOf [k]) inner sts) :
    AddsOwn [(k, .table head inner)] sts := by
  intro d hnames
  cases hsts with
  | nil => contradiction
  | @cons p st inner sts hst hsts =>
      obtain ⟨path', key, item, rfl, hpath, hkey, hplain, -⟩ := hst
      obtain ⟨kp, more, rfl, hkp, hmore⟩ := List.map_eq_cons_iff.mp hpath
      obtain rfl := List.map_eq_nil_iff.mp hmore
      have hk : kp.name ∉ d.own.names := by
        rw [hkp]
        intro hmem
        exact (List.nodup_append.mp hnames).2.2 _ hmem _ List.mem_cons_self rfl
      have hadd : d.add (.pair [kp] key item) =
          some { d with own := d.own ++ [(kp, .table .ofDots [(key, item)])] } := by
        simp [Draft.add, Entries.addPair, Entries.within, Entries.get?_eq_none_iff.mpr hk,
          Entries.has, Entries.get?, Head.ofDots]
      obtain ⟨inner', hsame, hfold⟩ := foldlM_dottedPairs hsts
        (d := { d with own := d.own ++ [(kp, .table .ofDots [(key, item)])] }) rfl hk hkp (by
          simpa [Entries.names, hkey] using hinner)
      have hcopy : List.Forall₂ Same (p :: inner) ((key, item) :: inner') :=
        .cons ⟨hkey.symm, hplain.symm⟩ hsame
      refine ⟨[(kp, .table .ofDots ((key, item) :: inner'))], .cons ⟨hkp.symm, ?_⟩ .nil, ?_⟩
      · rw [Item.plain?, Item.plain?, hpairs, Entries.pairs?_of_same hcopy hpairs]
      · rw [List.foldlM_cons, hadd]
        simpa using hfold

theorem addsTables_header {k : Key} {head : Head} {inner : Entries} {st : Statement}
    {sts : List Statement} (hinner : inner.names.Nodup) {pairs : List (Text × Text)}
    (hpairs : inner.pairs? = some pairs) (hst : Statement.IsHeaderOf k st)
    (hsts : AddsOwn inner sts) : AddsTables [(k, .table head inner)] (st :: sts) := by
  intro d read hclose hnames
  obtain ⟨k', decor, rfl, hk'⟩ := hst
  have hfresh : k'.name ∉ read.names := by
    rw [hk']
    intro hmem
    exact (List.nodup_append.mp hnames).2.2 _ hmem _ List.mem_cons_self rfl
  have hadd : d.add (.header [k'] decor) = some
      { root := read, current := .table [] k' { decor, position := some (d.headers + 1) },
        own := [], headers := d.headers + 1 } := by
    simp [Draft.add, hclose, Entries.takeImplicit, Entries.within,
      Entries.get?_eq_none_iff.mpr hfresh]
  obtain ⟨inner', hsame, hfold⟩ := hsts
    { root := read, current := .table [] k' { decor, position := some (d.headers + 1) }, own := [],
      headers := d.headers + 1 } (by simpa [Entries.names] using hinner)
  refine ⟨_, [(k', .table { decor, position := some (d.headers + 1) } inner')],
    .cons ⟨hk'.symm, ?_⟩ .nil, (by rw [List.foldlM_cons, hadd]; exact hfold), ?_⟩
  · rw [Item.plain?, Item.plain?, hpairs, Entries.pairs?_of_same hsame hpairs]
  · simp [Draft.close, Entries.addTable, Entries.within, Entries.has_eq_false_iff.mpr hfresh]

theorem Item.isValue_of_text? {i : Item} {v : Text} (h : i.text? = some v) : i.isValue = true := by
  obtain ⟨t, d, rfl⟩ := Item.text?_eq_some_iff.mp h
  rfl

theorem pairLines_value {path : List Key} {k : Key} {i : Item} (h : i.isValue = true)
    (es : Entries) : pairLines path ((k, i) :: es) = pairLine path (k, i) :: pairLines path es := by
  cases i with
  | scalar | array | inline => rfl
  | table | tables => contradiction

theorem pairLines_table {path : List Key} (k : Key) (head : Head) (inner es : Entries) :
    pairLines path ((k, .table head inner) :: es) =
      (if head.dotted then pairLines (path ++ [k]) inner else []) ++ pairLines path es :=
  rfl

theorem pairLines_texts {path : List Key} {pairs : List (Text × Text)}
    (h : es.pairs? = some pairs) : pairLines path es = es.map (pairLine path) := by
  induction es generalizing pairs with
  | nil => rw [pairLines]; rfl
  | cons p es ih =>
      obtain ⟨k, i⟩ := p
      obtain ⟨v, more, hv, hmore, rfl⟩ := Entries.pairs?_cons.mp h
      rw [pairLines_value (Item.isValue_of_text? hv), ih hmore, List.map_cons]

/-- The lines of a table of texts. -/
theorem reads_texts {path : List Key} (hpath : ∀ k ∈ path, k.Sound)
    (hdepth : path.length + 1 < depthLimit) (hes : es.Sound) {pairs : List (Text × Text)}
    (hpairs : es.pairs? = some pairs) :
    Reads (pairLines path es).flatten es.length
      (List.Forall₂ (Statement.IsPairOf path) es) := by
  rw [pairLines_texts hpairs]
  obtain ⟨-, hkeys, -, hitems, harounds⟩ := Entries.sound_iff.mp hes
  have htexts := Entries.text?_of_pairs? hpairs
  clear hes hpairs
  induction es with
  | nil => exact reads_nil .nil
  | cons p es ih =>
      obtain ⟨hkey, hkeys⟩ := List.forall_mem_cons.mp hkeys
      obtain ⟨hitem, hitems⟩ := List.forall_mem_cons.mp hitems
      obtain ⟨haround, harounds⟩ := List.forall_mem_cons.mp harounds
      obtain ⟨⟨v, hv⟩, htexts⟩ := List.forall_mem_cons.mp htexts
      have hsound : ∀ x ∈ path ++ [p.1], x.Sound :=
        List.forall_mem_append.mpr ⟨hpath, by simpa using hkey⟩
      have hline := reads_pairLine hsound hdepth hitem haround (Item.isValue_of_text? hv)
        (Item.plain?_text.mpr hv)
      rw [List.map_cons, List.flatten_cons, List.length_cons, Nat.add_comm]
      refine (hline.append (ih hkeys hitems harounds htexts)).mono ?_
      rintro sts ⟨_, more, rfl, ⟨st, rfl, hst⟩, hmore⟩
      exact .cons hst hmore

/-- The entries that are written as pairs of the root. Of tables, these are the ones that dotted
keys made. -/
def isRootPair (p : Key × Item) : Bool :=
  match p.2 with
  | .table head inner => head.dotted && !inner.isEmpty
  | .tables _ => false
  | _ => true

/-- The tables that are written with a header. -/
def isHeaded (p : Key × Item) : Bool :=
  match p.2 with
  | .table head inner => !head.dotted && !(head.implicit && inner.isEmpty)
  | _ => false

def Entries.IsPlain (es : Entries) : Prop :=
  ∀ p ∈ es, p.2.plain?.isSome = true

theorem addsOwn_values {es : Entries} {sts : List Statement}
    (h : List.Forall₂ (Statement.IsPairOf []) es sts) : AddsOwn es sts := by
  induction h with
  | nil => exact addsOwn_nil
  | cons hst _ ih => exact (addsOwn_pair hst).append ih

theorem reads_root (hes : es.Sound) (hplain : es.IsPlain) :
    ∃ n, Reads (pairLines [] es).flatten n (AddsOwn (es.filter isRootPair)) := by
  obtain ⟨-, hkeys, -, hitems, harounds⟩ := Entries.sound_iff.mp hes
  clear hes
  induction es with
  | nil =>
      rw [pairLines]
      exact ⟨0, reads_nil addsOwn_nil⟩
  | cons p es ih =>
      obtain ⟨hkey, hkeys⟩ := List.forall_mem_cons.mp hkeys
      obtain ⟨hitem, hitems⟩ := List.forall_mem_cons.mp hitems
      obtain ⟨haround, harounds⟩ := List.forall_mem_cons.mp harounds
      obtain ⟨hp, hplain⟩ := List.forall_mem_cons.mp hplain
      obtain ⟨n, hmore⟩ := ih hplain hkeys hitems harounds
      obtain ⟨k, i⟩ := p
      obtain ⟨c, hc⟩ := Option.isSome_iff_exists.mp hp
      by_cases hvalue : i.isValue = true
      · have hsound : ∀ x ∈ ([] : List Key) ++ [k], x.Sound := by simpa using hkey
        have hline := reads_pairLine hsound (by decide) hitem haround hvalue hc
        refine ⟨1 + n, ?_⟩
        have hroot : isRootPair (k, i) = true := by cases i <;> first | rfl | contradiction
        rw [pairLines_value hvalue, List.flatten_cons, List.filter_cons_of_pos hroot]
        refine (hline.append hmore).mono ?_
        rintro sts ⟨_, more, rfl, ⟨st, rfl, hst⟩, hadds⟩
        exact (addsOwn_pair hst).append hadds
      · cases i with
        | scalar | array | inline => exact absurd rfl hvalue
        | tables => contradiction
        | table head inner =>
            obtain ⟨pairs, hpairs, -⟩ := Option.map_eq_some_iff.mp hc
            have hinner := (Entries.table_sound_iff.mp hitem).2
            rw [pairLines_table, List.flatten_append]
            by_cases hroot : isRootPair (k, .table head inner) = true
            · obtain ⟨hdotted, hne⟩ := Bool.and_eq_true_iff.mp hroot
              have hsound : ∀ x ∈ [k], x.Sound := by simpa using hkey
              have hlines := reads_texts hsound (Nat.le_of_ble_eq_true rfl) hinner hpairs
              refine ⟨inner.length + n, ?_⟩
              rw [if_pos hdotted, List.filter_cons_of_pos hroot]
              refine (hlines.append hmore).mono ?_
              rintro sts ⟨a, b, rfl, ha, hb⟩
              exact (addsOwn_dotted (by simpa using hne) (Entries.sound_iff.mp hinner).1 hpairs
                ha).append hb
            · refine ⟨n, ?_⟩
              rw [List.filter_cons_of_neg hroot]
              have hnone : (if head.dotted then pairLines ([] ++ [k]) inner else []) = [] := by
                split
                · rename_i hdotted
                  have hempty : inner = [] := by simpa [isRootPair, hdotted] using hroot
                  rw [hempty, pairLines]
                · rfl
              rw [hnone]
              exact hmore

/-- The block of a table at the top level. -/
def blockOf (p : Key × Item) : Block :=
  match p.2 with
  | .table head inner => ⟨[p.1], false, head, pairLines [] inner⟩
  | _ => ⟨[p.1], false, {}, []⟩

theorem innerBlocks_texts {path : List Key} {pairs : List (Text × Text)}
    (h : es.pairs? = some pairs) : innerBlocks path es = [] := by
  induction es generalizing pairs with
  | nil => rfl
  | cons p es ih =>
      obtain ⟨k, i⟩ := p
      obtain ⟨v, more, hv, hmore, rfl⟩ := Entries.pairs?_cons.mp h
      obtain ⟨t, d, rfl⟩ := Item.text?_eq_some_iff.mp hv
      rw [innerBlocks, ih hmore]
      rfl

/-- In a document of plain entries only the tables with a header are blocks. -/
theorem innerBlocks_plain (hplain : es.IsPlain) :
    innerBlocks [] es = (es.filter fun p => p.2.hasHeader).map blockOf := by
  induction es with
  | nil => rfl
  | cons p es ih =>
      obtain ⟨k, i⟩ := p
      obtain ⟨hp, hplain'⟩ := List.forall_mem_cons.mp hplain
      obtain ⟨c, hc⟩ := Option.isSome_iff_exists.mp hp
      rw [innerBlocks, ih hplain']
      cases i with
      | scalar | array | inline => rfl
      | tables => contradiction
      | table head inner =>
          obtain ⟨pairs, hpairs, -⟩ := Option.map_eq_some_iff.mp hc
          rw [itemBlocks, innerBlocks_texts hpairs, List.append_nil, ownBlock]
          by_cases hdotted : head.dotted = true
          · rw [if_pos hdotted, List.filter_cons_of_neg (by simp [Item.hasHeader, hdotted])]
            rfl
          · rw [if_neg hdotted, List.filter_cons_of_pos (by simpa [Item.hasHeader] using hdotted)]
            rfl

/-- Tables that are written one after the other. -/
theorem reads_blocks (hkeys : ∀ p ∈ es, p.1.Tight) (hitems : ∀ p ∈ es, p.2.Sound)
    (hplain : es.IsPlain) (hheader : ∀ p ∈ es, p.2.hasHeader = true) (first : Bool) :
    ∃ n, Reads (writeBlocks first (es.map blockOf)) n (AddsTables (es.filter isHeaded)) := by
  induction es generalizing first with
  | nil => exact ⟨0, reads_nil addsTables_nil⟩
  | cons p es ih =>
      obtain ⟨k, i⟩ := p
      obtain ⟨hkey, hkeys'⟩ := List.forall_mem_cons.mp hkeys
      obtain ⟨hitem, hitems'⟩ := List.forall_mem_cons.mp hitems
      obtain ⟨hp, hplain'⟩ := List.forall_mem_cons.mp hplain
      obtain ⟨hhead, hheader'⟩ := List.forall_mem_cons.mp hheader
      obtain ⟨c, hc⟩ := Option.isSome_iff_exists.mp hp
      cases i with
      | scalar | array | inline | tables => contradiction
      | table head inner =>
          obtain ⟨pairs, hpairs, -⟩ := Option.map_eq_some_iff.mp hc
          obtain ⟨hfits, hinner⟩ := Entries.table_sound_iff.mp hitem
          have hdotted : head.dotted = false := by simpa [Item.hasHeader] using hhead
          have hlength : (pairLines [] inner).isEmpty = inner.isEmpty := by
            rw [pairLines_texts hpairs, List.isEmpty_map]
          rw [List.map_cons]
          by_cases hvoid : (head.implicit && inner.isEmpty) = true
          · obtain ⟨n, hmore⟩ := ih hkeys' hitems' hplain' hheader' first
            refine ⟨n, ?_⟩
            have hempty : (pairLines [] inner).flatten = [] := by
              have := (Bool.and_eq_true_iff.mp hvoid).2
              rw [← hlength, List.isEmpty_iff] at this
              rw [this]
              rfl
            have htext : writeBlocks first (blockOf (k, .table head inner) :: es.map blockOf) =
                writeBlocks first (es.map blockOf) := by
              simp [writeBlocks, Block.write, blockOf, hlength, hvoid, hempty]
            rw [htext, List.filter_cons_of_neg (by simp [isHeaded, hdotted, hvoid])]
            exact hmore
          · obtain ⟨n, hmore⟩ := ih hkeys' hitems' hplain' hheader' false
            have hsound : ∀ x ∈ ([] : List Key), x.Sound := nofun
            have hlines := reads_texts hsound (by decide) hinner hpairs
            refine ⟨1 + inner.length + n, ?_⟩
            have htext : writeBlocks first (blockOf (k, .table head inner) :: es.map blockOf) =
                headerLine first head k ++ (pairLines [] inner).flatten ++
                  writeBlocks false (es.map blockOf) := by
              simp [writeBlocks, Block.write, blockOf, hlength, hvoid, headerLine]
            rw [htext, List.filter_cons_of_pos (by simp [isHeaded, hdotted, hvoid])]
            refine (((reads_headerLine hkey hfits first).append hlines).append hmore).mono ?_
            rintro sts ⟨_, b, rfl, ⟨_, lines, rfl, ⟨st, rfl, hst⟩, hsts⟩, hb⟩
            exact (addsTables_header (Entries.sound_iff.mp hinner).1 hpairs hst
              (addsOwn_values hsts)).append hb

theorem map_ranked (n : Nat) (blocks : List Block) : (ranked n blocks).map (·.2) = blocks := by
  induction blocks generalizing n with
  | nil => rfl
  | cons b blocks ih => rw [ranked, List.map_cons, ih]

theorem insertRanked_perm (b : Nat × Block) (blocks : List (Nat × Block)) :
    (insertRanked b blocks).Perm (b :: blocks) := by
  induction blocks with
  | nil => exact .refl _
  | cons c blocks ih =>
      rw [insertRanked]
      split
      · exact .refl _
      · exact (ih.cons c).trans (.swap b c blocks)

theorem sortRanked_perm (blocks : List (Nat × Block)) : (sortRanked blocks).Perm blocks := by
  induction blocks with
  | nil => exact .refl _
  | cons b blocks ih => exact (insertRanked_perm b _).trans (ih.cons b)

/-- A table of the first rank stays in front. -/
theorem sortRanked_zero (b : Block) (blocks : List (Nat × Block)) :
    sortRanked ((0, b) :: blocks) = (0, b) :: sortRanked blocks := by
  rw [sortRanked]
  cases sortRanked blocks with
  | nil => rfl
  | cons c more => rw [insertRanked, if_pos (Nat.zero_le _)]

theorem exists_perm_of_perm_map {α β : Type} {f : α → β} {l : List α} {l' : List β}
    (h : l'.Perm (l.map f)) : ∃ m : List α, m.Perm l ∧ m.map f = l' := by
  have hmap : List.Forall₂ (fun b a => b = f a) (l.map f) l :=
    List.forall₂_map_left_iff.mpr (List.forall₂_same.mpr fun _ _ => rfl)
  obtain ⟨m, hm, hperm⟩ := List.perm_comp_forall₂ h hmap
  refine ⟨m, hperm, ?_⟩
  have heq := List.forall₂_map_right_iff (R := Eq) (u := m) (f := f) |>.mpr hm
  rw [List.forall₂_eq_eq_eq] at heq
  exact heq.symm

/-- The root comes first, and after it all tables in some order. -/
theorem Document.write_eq (d : Document) (hplain : d.entries.IsPlain) :
    ∃ tables : Entries, tables.Perm (d.entries.filter fun p => p.2.hasHeader) ∧
      d.write = (pairLines [] d.entries).flatten ++
        writeBlocks (pairLines [] d.entries).isEmpty (tables.map blockOf) ++
          withoutReturns d.trailing := by
  have hperm : ((sortRanked (ranked 0 (innerBlocks [] d.entries))).map (·.2)).Perm
      ((d.entries.filter fun p => p.2.hasHeader).map blockOf) := by
    rw [← innerBlocks_plain hplain]
    have hsorted := (sortRanked_perm (ranked 0 (innerBlocks [] d.entries))).map (·.2)
    rwa [map_ranked] at hsorted
  obtain ⟨tables, htables, hmap⟩ := exists_perm_of_perm_map hperm
  refine ⟨tables, htables, ?_⟩
  have hblocks : ranked 0 (ownBlock [] false {} d.entries ++ innerBlocks [] d.entries) =
      (0, ⟨[], false, {}, pairLines [] d.entries⟩) :: ranked 0 (innerBlocks [] d.entries) := rfl
  rw [Document.write, hblocks, sortRanked_zero, List.map_cons, hmap]
  simp [writeBlocks, Block.write]

/-- A table that nothing is written for. -/
def isVoid (p : Key × Item) : Bool :=
  match p.2 with
  | .table head inner => inner.isEmpty && (head.dotted || head.implicit)
  | _ => false

theorem Entries.IsPlain.not_isVoid (hplain : es.IsPlain) {p : Key × Item} (hp : p ∈ es) :
    (!isVoid p) = (isRootPair p || isHeaded p) := by
  obtain ⟨k, i⟩ := p
  cases i with
  | scalar | array | inline => rfl
  | tables => exact absurd (hplain _ hp) Bool.false_ne_true
  | table head inner =>
      simp only [isVoid, isRootPair, isHeaded]
      cases head.dotted <;> cases head.implicit <;> cases inner <;> rfl

/-- The other document has the same entries in some order, except for tables that nothing is
written for. -/
def Document.IsCopy (d d' : Document) : Prop :=
  ∃ order : Entries, order.Perm (d.entries.filter fun p => !isVoid p) ∧
    List.Forall₂ Same order d'.entries

theorem perm_written (hplain : es.IsPlain) {tables : Entries}
    (htables : tables.Perm (es.filter fun p => p.2.hasHeader)) :
    (es.filter isRootPair ++ tables.filter isHeaded).Perm (es.filter fun p => !isVoid p) := by
  have hheaded : (tables.filter isHeaded).Perm (es.filter isHeaded) := by
    refine (htables.filter _).trans (.of_eq ?_)
    rw [List.filter_filter]
    refine List.filter_congr fun p _ => ?_
    obtain ⟨k, i⟩ := p
    cases i with
    | table head inner => simp +contextual [isHeaded, Item.hasHeader]
    | scalar | array | inline | tables => rfl
  refine (hheaded.append_left _).trans ?_
  have hsplit := List.filter_append_perm isRootPair (es.filter fun p => !isVoid p)
  refine .trans (.of_eq ?_) hsplit
  rw [List.filter_filter, List.filter_filter]
  congr 1
  all_goals
    refine List.filter_congr fun p hp => ?_
    rw [hplain.not_isVoid hp]
  · cases isRootPair p <;> simp
  · obtain ⟨k, i⟩ := p
    cases i with
    | table head inner =>
        simp only [isRootPair, isHeaded]
        cases head.dotted <;> simp
    | scalar | array | inline | tables => rfl

namespace Reader

theorem opens_of_dottedKey {c : Char} {keys : List Key}
    (h : dottedKey (c :: s) = .ok (keys, rest)) : isSpace c = true ∨ opensKey c = true := by
  obtain ⟨read, mid, hread, -⟩ := bind_eq_ok.mp h
  obtain ⟨first, mid, hfirst, -⟩ := bind_eq_ok.mp hread
  rw [segment_eq] at hfirst
  obtain ⟨before, s₁, hbefore, hfirst⟩ := bind_eq_ok.mp hfirst
  obtain ⟨⟨name, spelling⟩, s₂, hname, -⟩ := bind_eq_ok.mp hfirst
  obtain ⟨hs, hspaces⟩ := spaces_eq_ok hbefore
  cases before with
  | nil =>
      obtain ⟨c', t, hs', hc⟩ := exists_opensKey_of_keyName (spelled_eq_ok.mp hname).1
      rw [List.nil_append] at hs
      rw [← hs] at hs'
      cases hs'
      exact .inr hc
  | cons b before =>
      cases hs
      exact .inl (hspaces _ List.mem_cons_self)

end Reader

/-- A byte order mark starts nothing. -/
theorem Statement.read_mark (fuel : Nat) (t trailing : Text) :
    (read fuel ('\uFEFF' :: t)).2 ≠ .ok trailing := by
  cases fuel with
  | zero => simp [read]
  | succ fuel =>
      have hlead := Reader.lead_takes (s := []) .nil ('\uFEFF' :: t) (stops_cons.mpr rfl)
      rw [List.nil_append] at hlead
      rw [read, hlead]
      simp only
      cases hstatement : Reader.statement [] ('\uFEFF' :: t) with
      | error fault => simp
      | ok read =>
          obtain ⟨st, rest⟩ := read
          obtain ⟨c, s₁, hpeek, h⟩ := Reader.bind_eq_ok.mp hstatement
          obtain ⟨rfl, rfl⟩ := Reader.peek_eq_ok.mp hpeek
          obtain ⟨p, s₂, hpair, -⟩ := Reader.bind_eq_ok.mp h
          obtain ⟨keys, s₃, hkeys, -⟩ := Reader.bind_eq_ok.mp hpair
          rcases Reader.opens_of_dottedKey hkeys with hc | hc <;> contradiction

theorem IsEnding.withoutReturns (h : IsEnding s) : IsEnding (withoutReturns s) := by
  obtain ⟨g, remark, rfl, hg, hremark⟩ := h
  rw [withoutReturns_append, hremark.withoutReturns]
  exact ⟨_, remark, rfl, hg.withoutReturns, hremark⟩

theorem Statement.read_ending (h : IsEnding s) (fuel : Nat) : read (fuel + 1) s = ([], .ok s) := by
  obtain ⟨g, remark, rfl, hg, hremark⟩ := h
  rw [read, Reader.lead_atEnd hg hremark]

/-- A document of plain entries that is written out is read again with the same content. -/
theorem Document.parse_write {d : Document} (hd : d.Sound) (hplain : d.entries.IsPlain) :
    ∃ d', parse d.write = .ok d' ∧ d.IsCopy d' := by
  obtain ⟨hnames, hkeys, htights, hitems, -⟩ := Entries.sound_iff.mp hd.entries
  obtain ⟨tables, htables, hwrite⟩ := d.write_eq hplain
  have hmem {p : Key × Item} (hp : p ∈ tables) : p ∈ d.entries ∧ p.2.hasHeader = true :=
    List.mem_filter.mp (htables.subset hp)
  obtain ⟨n, hroot⟩ := reads_root hd.entries hplain
  obtain ⟨m, hblocks⟩ := reads_blocks
    (fun p (hp : p ∈ tables) => htights p (hmem hp).1 (hmem hp).2)
    (fun p hp => hitems p (hmem hp).1) (fun p hp => hplain p (hmem hp).1) (fun p hp => (hmem hp).2)
    (pairLines [] d.entries).isEmpty
  obtain ⟨hfuel, hreads⟩ := hroot.append hblocks
  have hending := hd.trailing.withoutReturns
  obtain ⟨sts, ⟨a, b, rfl, ha, hb⟩, hread⟩ :=
    hreads (d.write.length + 1 - (n + m)) (withoutReturns d.trailing)
  have hlength : n + m ≤ d.write.length := by
    rw [hwrite, List.length_append]
    omega
  obtain ⟨fuel, hfuel⟩ : ∃ fuel, d.write.length + 1 - (n + m) = fuel + 1 :=
    ⟨d.write.length - (n + m), by omega⟩
  rw [← hwrite, Nat.add_sub_of_le (by omega), hfuel, Statement.read_ending hending] at hread
  simp only [List.append_nil] at hread
  have hreadAll : Statement.readAll d.write = (a ++ b, .ok (withoutReturns d.trailing)) := by
    rw [Statement.readAll]
    cases htext : d.write with
    | nil =>
        rw [htext] at hread
        exact hread
    | cons c t =>
        by_cases hc : c = '\uFEFF'
        · subst hc
          refine absurd (congrArg Prod.snd hread) ?_
          rw [htext]
          exact Statement.read_mark _ t _
        · have hnone : List.isPrefixOf? ['\uFEFF'] (c :: t) = none := by
            simp [List.isPrefixOf?, Ne.symm hc]
          rw [hnone, Option.getD_none, ← htext, hread]
  have hperm := perm_written hplain htables
  have hnodup : (Entries.names (d.entries.filter isRootPair) ++
      Entries.names (tables.filter isHeaded)).Nodup := by
    rw [← Entries.names_append']
    exact ((hperm.map _).nodup_iff).mpr ((List.filter_sublist.map _).nodup hnames)
  obtain ⟨own, hown, hfold⟩ := ha {} (List.nodup_append.mp hnodup).1
  obtain ⟨draft, es', hes', hfold', hclose⟩ := hb { own } own rfl (by
    rw [← Entries.names_of_same hown]
    exact hnodup)
  refine ⟨⟨own ++ es', withoutReturns d.trailing⟩, ?_,
    _, hperm, List.rel_append hown hes'⟩
  rw [parse, hreadAll]
  simp only [List.foldlM_append, hfold]
  simp [hfold', hclose]

namespace Entries

variable {es' : Entries} {name : Text} {i : Item}

theorem get?_eq_some_iff (h : es.names.Nodup) :
    es.get? name = some i ↔ ∃ k, (k, i) ∈ es ∧ k.name = name := by
  constructor
  · exact mem_of_get?
  · rintro ⟨k, hmem, rfl⟩
    exact get?_of_mem h hmem

theorem get?_of_same (h : List.Forall₂ Same es es') (name : Text) :
    es.get? name = none ∧ es'.get? name = none ∨
      ∃ i i', es.get? name = some i ∧ es'.get? name = some i' ∧ i.plain? = i'.plain? := by
  induction h with
  | nil => exact .inl ⟨rfl, rfl⟩
  | @cons p q es es' hp _ ih =>
      rw [get?, get?, ← hp.1]
      by_cases hname : p.1.name = name
      · rw [if_pos hname, if_pos hname]
        exact .inr ⟨_, _, rfl, rfl, hp.2⟩
      · rw [if_neg hname, if_neg hname]
        exact ih

end Entries

namespace Document.IsCopy

variable {d d' : Document}

theorem names_subset (h : d.IsCopy d') {name : Text} (hname : name ∈ d'.entries.names) :
    name ∈ d.entries.names := by
  obtain ⟨order, hperm, hsame⟩ := h
  rw [← Entries.names_of_same hsame] at hname
  exact (List.filter_sublist.map _).subset ((hperm.map _).subset hname)

theorem names_nodup (h : d.IsCopy d') (hnames : d.entries.names.Nodup) :
    d'.entries.names.Nodup := by
  obtain ⟨order, hperm, hsame⟩ := h
  rw [← Entries.names_of_same hsame]
  exact (hperm.map _).nodup_iff.mpr ((List.filter_sublist.map _).nodup hnames)

theorem get? (h : d.IsCopy d') (hnames : d.entries.names.Nodup) (name : Text) :
    (d'.entries.get? name = none ∧
        ∀ i, d.entries.get? name = some i → ∃ head, i = .table head []) ∨
      ∃ i i', d.entries.get? name = some i ∧ d'.entries.get? name = some i' ∧
        i.plain? = i'.plain? := by
  obtain ⟨order, hperm, hsame⟩ := h
  have horder : order.names.Nodup :=
    (hperm.map _).nodup_iff.mpr ((List.filter_sublist.map _).nodup hnames)
  rcases Entries.get?_of_same hsame name with ⟨hnone, hnone'⟩ | ⟨i, i', hi, hi', hplain⟩
  · refine .inl ⟨hnone', fun i hi => ?_⟩
    obtain ⟨k, hmem, rfl⟩ := Entries.mem_of_get? hi
    by_cases hvoid : isVoid (k, i) = true
    · cases i with
      | table head inner =>
          obtain rfl : inner = [] := List.isEmpty_iff.mp (Bool.and_eq_true_iff.mp hvoid).1
          exact ⟨head, rfl⟩
      | scalar | array | inline | tables => contradiction
    · have hwritten : (k, i) ∈ order :=
        hperm.mem_iff.mpr (List.mem_filter.mpr ⟨hmem, by simpa using hvoid⟩)
      rw [Entries.get?_of_mem horder hwritten] at hnone
      contradiction
  · obtain ⟨k, hmem, hk⟩ := Entries.mem_of_get? hi
    have hmem' := (List.mem_filter.mp (hperm.mem_iff.mp hmem)).1
    exact .inr ⟨i, i', (Entries.get?_eq_some_iff hnames).mpr ⟨k, hmem', hk⟩, hi', hplain⟩

end Document.IsCopy

end Toml
end Shorthand
