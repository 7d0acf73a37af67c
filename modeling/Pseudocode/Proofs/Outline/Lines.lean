import Pseudocode.Proofs.Outline.Basic
import Pseudocode.Proofs.Outline.Quoting
import Pseudocode.Proofs.Places

/-!
The lines of the outline.

A line says at which depth a node stands and in which slot, what kind it has, and its properties. It
can be read from left to right. The spaces end before the first letter, and the first word is the
name of a slot if a colon follows it, else the name of a kind. Each property is ended by its own
value: the names of flags are whole words, and a text is quoted.

Design. Every piece gets a lemma of one form: where two texts start with a piece of that sort, the
pieces are equal and so is what stands behind them.

Main results: equal lines show equal labels (`Row.label_inj`), and the outline has one line for
each row (`lines_outline`).
-/

namespace Pseudocode

open Text

/-! ### Words -/

/-- Where two texts start with characters of one sort, and these go no further, the starts are
equal. -/
theorem run_append_inj {p : Char → Bool} {u u' v v' : List Char} (hu : u.all p = true)
    (hu' : u'.all p = true) (hv : ∀ c ∈ v.head?, p c = false) (hv' : ∀ c ∈ v'.head?, p c = false)
    (h : u ++ v = u' ++ v') : u = u' ∧ v = v' := by
  induction u generalizing u' with
  | nil =>
    cases u' with
    | nil => exact ⟨rfl, h⟩
    | cons c u' =>
      -- the longer run would go on with a character that ends the shorter one
      have hc := hv c (by rw [← List.nil_append v, h]; rfl)
      simp [hc] at hu'
  | cons c u ih =>
    cases u' with
    | nil =>
      have hc := hv' c (by rw [← List.nil_append v', ← h]; rfl)
      simp [hc] at hu
    | cons d u' =>
      obtain ⟨rfl, hrest⟩ := List.cons.inj h
      rw [List.all_cons, Bool.and_eq_true] at hu hu'
      obtain ⟨rfl, hv⟩ := ih hu.2 hu'.2 hrest
      exact ⟨rfl, hv⟩

/-- A word of letters. -/
structure Lettered (w : String) : Prop where
  ne : w ≠ ""
  all : w.toList.all Char.isAlpha = true

instance (w : String) : Decidable (Lettered w) :=
  decidable_of_iff (w ≠ "" ∧ w.toList.all Char.isAlpha = true)
    ⟨fun h => ⟨h.1, h.2⟩, fun h => ⟨h.ne, h.all⟩⟩

namespace Lettered

variable {w w' : String} {u v : List Char}

/-- A word of letters is determined by a text that goes on with something else than a letter. -/
theorem append_inj (hw : Lettered w) (hw' : Lettered w')
    (hu : ∀ c ∈ u.head?, c.isAlpha = false) (hv : ∀ c ∈ v.head?, c.isAlpha = false)
    (h : w.toList ++ u = w'.toList ++ v) : w = w' ∧ u = v := by
  obtain ⟨hword, hrest⟩ := run_append_inj hw.all hw'.all hu hv h
  exact ⟨String.toList_inj.mp hword, hrest⟩

/-- What starts with a word starts with a letter. -/
theorem exists_letter (hw : Lettered w) :
    ∃ c cs, w.toList = c :: cs ∧ c.isAlpha = true := by
  rcases hlist : w.toList with - | ⟨c, cs⟩
  · exact absurd (String.toList_eq_nil_iff.mp hlist) hw.ne
  · have hall := hw.all
    rw [hlist, List.all_cons, Bool.and_eq_true] at hall
    exact ⟨c, cs, rfl, hall.1⟩

theorem no_newline (hw : Lettered w) : '\n' ∉ w.toList :=
  fun hmem => absurd (List.all_eq_true.mp hw.all _ hmem) (by decide)

end Lettered

theorem Kind.lettered_name {k : Kind} (h : ∀ s, k ≠ .other s) : Lettered k.name := by
  cases k with
  | other s => exact absurd rfl (h s)
  | _ => decide

theorem Kind.ofName_name {k : Kind} (h : ∀ s, k ≠ .other s) : Kind.ofName k.name = k := by
  cases k with
  | other s => exact absurd rfl (h s)
  | _ => rfl

namespace Node

theorem lettered_slot_name : ∀ slot ∈ outlineSlots, Lettered slot.name := by decide

theorem Slot.ofName_name : ∀ slot ∈ outlineSlots, Slot.ofName slot.name = slot := by decide

theorem lettered_propertyNames : ∀ key ∈ propertyNames, Lettered key := by decide

/-! ### Properties -/

/-- What the outline writes for the value of a property. -/
def valueText : Property → String
  | .text s => quoted s
  | p => p.display

theorem toList_propertyText (key : String) (p : Property) :
    (propertyText (key, p)).toList = key.toList ++ '=' :: (valueText p).toList := by
  cases p <;> simp [propertyText, valueText]

theorem quoted_append_ne {s : String} {c : Char} (hc : c.isAlpha = true) {u v : List Char} :
    (quoted s).toList ++ u ≠ c :: v := by
  rw [toList_quoted]
  intro h
  obtain ⟨rfl, -⟩ := List.cons.inj h
  obtain hquote | hquote := isQuote_quoteFor s.toList <;> rw [hquote] at hc <;> cases hc

/-- A property that is no text shows as a word. -/
theorem lettered_display {p : Property} (hp : ∀ s, p ≠ .text s) : Lettered p.display := by
  rcases p with s | (- | -) | -
  · exact absurd rfl (hp s)
  all_goals decide

/-- Values that are no texts are determined by their words. -/
theorem display_inj {p q : Property} (hp : ∀ s, p ≠ .text s) (hq : ∀ s, q ≠ .text s)
    (h : p.display = q.display) : p = q := by
  rcases p with s | (- | -) | -
  · exact absurd rfl (hp s)
  all_goals
    rcases q with t | (- | -) | -
    · exact absurd rfl (hq t)
    all_goals first | rfl | exact absurd h (by decide)

theorem valueText_of_ne_text {p : Property} (hp : ∀ s, p ≠ .text s) : valueText p = p.display := by
  cases p with
  | text s => exact absurd rfl (hp s)
  | _ => rfl

/-- The value of a property is determined by a text that goes on with something else than a
letter. -/
theorem valueText_append_inj {p q : Property} {u v : List Char}
    (hu : ∀ c ∈ u.head?, c.isAlpha = false) (hv : ∀ c ∈ v.head?, c.isAlpha = false)
    (h : (valueText p).toList ++ u = (valueText q).toList ++ v) : p = q ∧ u = v := by
  -- a quoted text and a word begin with different characters
  have hword : ∀ {p : Property} {s : String} {u v : List Char}, (∀ s, p ≠ .text s) →
      (quoted s).toList ++ u ≠ (valueText p).toList ++ v := by
    intro p s u v hp
    obtain ⟨c, cs, hcs, hc⟩ := (lettered_display hp).exists_letter
    rw [valueText_of_ne_text hp, hcs]
    exact quoted_append_ne hc
  by_cases hp : ∃ s, p = .text s <;> by_cases hq : ∃ t, q = .text t
  · obtain ⟨s, rfl⟩ := hp
    obtain ⟨t, rfl⟩ := hq
    obtain ⟨rfl, hrest⟩ := quoted_append_inj h
    exact ⟨rfl, hrest⟩
  · obtain ⟨s, rfl⟩ := hp
    exact absurd h (hword (not_exists.mp hq))
  · obtain ⟨t, rfl⟩ := hq
    exact absurd h.symm (hword (not_exists.mp hp))
  · have hp := not_exists.mp hp
    have hq := not_exists.mp hq
    rw [valueText_of_ne_text hp, valueText_of_ne_text hq] at h
    obtain ⟨hshow, hrest⟩ := (lettered_display hp).append_inj (lettered_display hq) hu hv h
    exact ⟨display_inj hp hq hshow, hrest⟩

/-- So is a property with its name. -/
theorem propertyText_append_inj {p q : String × Property} (hp : p.1 ∈ propertyNames)
    (hq : q.1 ∈ propertyNames) {u v : List Char} (hu : ∀ c ∈ u.head?, c.isAlpha = false)
    (hv : ∀ c ∈ v.head?, c.isAlpha = false)
    (h : (propertyText p).toList ++ u = (propertyText q).toList ++ v) : p = q ∧ u = v := by
  have hequals : ∀ {cs : List Char}, ∀ c ∈ ('=' :: cs).head?, c.isAlpha = false := by
    rintro cs _ ⟨⟩
    rfl
  rw [toList_propertyText, toList_propertyText, List.append_assoc, List.append_assoc,
    List.cons_append, List.cons_append] at h
  obtain ⟨hkey, hvalue⟩ := (lettered_propertyNames _ hp).append_inj (lettered_propertyNames _ hq)
    hequals hequals h
  obtain ⟨hvalue, hrest⟩ := valueText_append_inj hu hv (List.cons.inj hvalue).2
  exact ⟨Prod.ext hkey hvalue, hrest⟩

/-- The properties behind the first one, up to the end of the list. -/
def moreText (ps : List (String × Property)) : List Char :=
  (ps.flatMap fun p => ',' :: ' ' :: (propertyText p).toList) ++ [')']

theorem not_letter_of_mem_head_moreText {ps : List (String × Property)} :
    ∀ c ∈ (moreText ps).head?, c.isAlpha = false := by
  cases ps <;> rintro _ ⟨⟩ <;> rfl

/-- The properties behind the first one are determined by their text. -/
theorem moreText_inj {ps qs : List (String × Property)} (hps : ps.map Prod.fst ⊆ propertyNames)
    (hqs : qs.map Prod.fst ⊆ propertyNames) (h : moreText ps = moreText qs) : ps = qs := by
  induction ps generalizing qs with
  | nil =>
    cases qs with
    | nil => rfl
    | cons q qs => cases (List.cons.inj h).1
  | cons p ps ih =>
    cases qs with
    | nil => cases (List.cons.inj h).1
    | cons q qs =>
      rw [List.map_cons, List.cons_subset] at hps hqs
      have h : (propertyText p).toList ++ moreText ps = (propertyText q).toList ++ moreText qs := by
        simpa [moreText] using h
      -- each property ends where the comma or the closing bracket behind it begins
      obtain ⟨rfl, hmore⟩ := propertyText_append_inj hps.1 hqs.1 not_letter_of_mem_head_moreText
        not_letter_of_mem_head_moreText h
      rw [ih hps.2 hqs.2 hmore]

/-- The properties as they stand behind the kind. -/
def propertiesText : List (String × Property) → List Char
  | [] => []
  | p :: ps => '(' :: ((propertyText p).toList ++ moreText ps)

/-- The properties of a node are determined by their text, no properties being no text at all. -/
theorem propertiesText_inj {ps qs : List (String × Property)}
    (hps : ps.map Prod.fst ⊆ propertyNames) (hqs : qs.map Prod.fst ⊆ propertyNames)
    (h : propertiesText ps = propertiesText qs) : ps = qs := by
  cases ps with
  | nil => cases qs with
    | nil => rfl
    | cons q qs => cases h
  | cons p ps => cases qs with
    | nil => cases h
    | cons q qs =>
      refine moreText_inj hps hqs ?_
      have htail := congrArg (fun cs => [',', ' '] ++ cs) (List.cons.inj h).2
      simpa [moreText] using htail

theorem toList_intercalate_cons (t : String) (ts : List String) :
    (", ".intercalate (t :: ts)).toList
      = t.toList ++ ts.flatMap fun u => ',' :: ' ' :: u.toList := by
  induction ts generalizing t with
  | nil => simp
  | cons u ts ih =>
    rw [String.intercalate_cons_cons, String.toList_append, String.toList_append, ih]
    simp

theorem toList_propertiesText (ps : List (String × Property)) :
    (if ps.isEmpty then "" else "(" ++ ", ".intercalate (ps.map propertyText) ++ ")").toList
      = propertiesText ps := by
  cases ps with
  | nil => rfl
  | cons p ps =>
    rw [List.isEmpty_cons, if_neg Bool.false_ne_true, String.toList_append, String.toList_append,
      List.map_cons, toList_intercalate_cons, propertiesText, moreText, List.flatMap_map]
    simp

/-! ### Rows -/

/-- The slot as it stands before the kind. -/
def slotText : Option Slot → List Char
  | some slot => slot.name.toList ++ [':', ' ']
  | none => []

namespace Row

/-- What the line of a row shows. -/
def label (r : Row) : Nat × Option Slot × Kind × List (String × Property) :=
  (r.depth, r.slot, r.node.kind, r.node.properties)

theorem toList_text (r : Row) :
    r.text.toList = List.replicate (2 * r.depth) ' '
      ++ (slotText r.slot ++ (r.node.kind.name.toList ++ propertiesText r.node.properties)) := by
  rw [text, String.toList_append, toList_propertiesText]
  cases r.slot <;> simp [slotText]

/-- The outline shows all of the node, and names its slot. -/
structure Shown (r : Row) : Prop where
  node : r.node.Shown
  slot : ∀ s ∈ r.slot, s ∈ outlineSlots

theorem not_letter_of_mem_head_propertiesText {ps : List (String × Property)} :
    ∀ c ∈ (propertiesText ps).head?, c.isAlpha = false := by
  cases ps with
  | nil => nofun
  | cons p ps => rintro _ ⟨⟩; rfl

/-- The kind and the text of the properties of a node are determined by the two together. -/
theorem kind_inj {k k' : Kind} {ps ps' : List (String × Property)} (hk : ∀ s, k ≠ .other s)
    (hk' : ∀ s, k' ≠ .other s)
    (h : k.name.toList ++ propertiesText ps = k'.name.toList ++ propertiesText ps') :
    k = k' ∧ propertiesText ps = propertiesText ps' := by
  obtain ⟨hname, hrest⟩ := (Kind.lettered_name hk).append_inj (Kind.lettered_name hk')
    not_letter_of_mem_head_propertiesText not_letter_of_mem_head_propertiesText h
  rw [← Kind.ofName_name hk, ← Kind.ofName_name hk', hname]
  exact ⟨rfl, hrest⟩

/-- A word with a colon behind it is no kind. -/
theorem slot_ne_kind {slot : Slot} {k : Kind} {ps : List (String × Property)} {cs : List Char}
    (hslot : slot ∈ outlineSlots) (hk : ∀ s, k ≠ .other s) :
    slotText (some slot) ++ cs ≠ k.name.toList ++ propertiesText ps := by
  intro h
  rw [slotText, List.append_assoc] at h
  obtain ⟨-, hcolon⟩ := (lettered_slot_name slot hslot).append_inj (Kind.lettered_name hk)
    (by rintro _ ⟨⟩; rfl) not_letter_of_mem_head_propertiesText h
  cases ps with
  | nil => cases hcolon
  | cons p ps => cases (List.cons.inj hcolon).1

/-- The slot, the kind and the properties of a row are determined by its text behind the spaces; the
root has no slot. -/
theorem slot_kind_inj {slot slot' : Option Slot} {k k' : Kind} {ps ps' : List (String × Property)}
    (hslot : ∀ s ∈ slot, s ∈ outlineSlots) (hslot' : ∀ s ∈ slot', s ∈ outlineSlots)
    (hk : ∀ s, k ≠ .other s) (hk' : ∀ s, k' ≠ .other s)
    (h : slotText slot ++ (k.name.toList ++ propertiesText ps)
      = slotText slot' ++ (k'.name.toList ++ propertiesText ps')) :
    slot = slot' ∧ k = k' ∧ propertiesText ps = propertiesText ps' := by
  rcases slot with - | slot <;> rcases slot' with - | slot'
  · exact ⟨rfl, kind_inj hk hk' h⟩
  · exact absurd h.symm (slot_ne_kind (hslot' slot' rfl) hk)
  · exact absurd h (slot_ne_kind (hslot slot rfl) hk')
  · -- both slots are words of letters, which end at the colon behind them
    have hmem := hslot slot rfl
    have hmem' := hslot' slot' rfl
    rw [slotText, slotText, List.append_assoc, List.append_assoc] at h
    obtain ⟨hname, hrest⟩ := (lettered_slot_name slot hmem).append_inj
      (lettered_slot_name slot' hmem') (by rintro _ ⟨⟩; rfl) (by rintro _ ⟨⟩; rfl) h
    obtain rfl : slot = slot' := by
      rw [← Slot.ofName_name slot hmem, ← Slot.ofName_name slot' hmem', hname]
    exact ⟨rfl, kind_inj hk hk' (List.append_cancel_left hrest)⟩

/-- Behind the spaces stands a letter. -/
theorem not_space_of_mem_head {slot : Option Slot} {k : Kind} {cs : List Char}
    (hslot : ∀ s ∈ slot, s ∈ outlineSlots) (hk : ∀ s, k ≠ .other s) :
    ∀ c ∈ (slotText slot ++ (k.name.toList ++ cs)).head?, (c == ' ') = false := by
  -- the slot, or else the kind, begins with a letter
  have hletter : ∃ c ds, slotText slot ++ (k.name.toList ++ cs) = c :: ds ∧ c.isAlpha = true := by
    rcases slot with - | slot
    · obtain ⟨c, ds, hlist, hc⟩ := (Kind.lettered_name hk).exists_letter
      exact ⟨c, ds ++ cs, by rw [hlist]; rfl, hc⟩
    · obtain ⟨c, ds, hlist, hc⟩ := (lettered_slot_name slot (hslot slot rfl)).exists_letter
      exact ⟨c, _, by rw [slotText, hlist]; rfl, hc⟩
  obtain ⟨c, ds, hlist, hc⟩ := hletter
  rw [hlist]
  rintro _ ⟨⟩
  refine beq_false_of_ne ?_
  rintro rfl
  cases hc

/-- Equal lines show equal labels. -/
theorem label_inj {r r' : Row} (hr : r.Shown) (hr' : r'.Shown) (h : r.text = r'.text) :
    r.label = r'.label := by
  have h := String.toList_inj.mpr h
  have hspaces : ∀ n, (List.replicate n ' ').all (· == ' ') = true := by simp
  rw [toList_text, toList_text] at h
  -- the spaces before the first letter tell the depth
  obtain ⟨hdepth, hrest⟩ := run_append_inj (hspaces _) (hspaces _)
    (not_space_of_mem_head hr.slot hr.node.kind) (not_space_of_mem_head hr'.slot hr'.node.kind) h
  obtain ⟨hslot, hkind, hproperties⟩ :=
    slot_kind_inj hr.slot hr'.slot hr.node.kind hr'.node.kind hrest
  have hdepth : r.depth = r'.depth := by
    have hlength := congrArg List.length hdepth
    rw [List.length_replicate, List.length_replicate] at hlength
    omega
  have hproperties := propertiesText_inj hr.node.keys hr'.node.keys hproperties
  rw [label, label, hdepth, hslot, hkind, hproperties]

/-! ### Ends of lines -/

/-- The line of a row has no line break in it, since a line break in a text is quoted. -/
theorem no_newline_text {r : Row} (hr : r.Shown) : '\n' ∉ r.text.toList := by
  have hvalue : ∀ p, '\n' ∉ (valueText p).toList := by
    rintro (s | b | -)
    · exact no_newline_quoted s
    · exact (lettered_display fun _ => nofun : Lettered (Property.flag b).display).no_newline
    · exact (lettered_display fun _ => nofun : Lettered Property.null.display).no_newline
  have hproperty : ∀ p ∈ r.node.properties, '\n' ∉ (propertyText p).toList := by
    intro p hp
    have hkey := (lettered_propertyNames _ (hr.node.keys (List.mem_map_of_mem hp))).no_newline
    rw [toList_propertyText]
    simp [hkey, hvalue]
  -- brackets, commas and spaces are no line breaks either
  have hproperties : '\n' ∉ propertiesText r.node.properties := by
    rcases hps : r.node.properties with - | ⟨p, ps⟩
    · exact List.not_mem_nil
    · rw [hps, List.forall_mem_cons] at hproperty
      simp only [propertiesText, moreText, List.mem_cons, List.mem_append, List.mem_flatMap]
      rintro (h | h | ⟨q, hq, h | h | h⟩ | h | h)
      · cases h
      · exact hproperty.1 h
      · cases h
      · cases h
      · exact hproperty.2 q hq h
      · cases h
      · cases h
  have hslot : '\n' ∉ slotText r.slot := by
    rcases hs : r.slot with - | slot
    · exact List.not_mem_nil
    · simp [slotText, (lettered_slot_name slot (hr.slot slot hs)).no_newline]
  simp [toList_text, hslot, hproperties, (Kind.lettered_name hr.node.kind).no_newline]

end Row

/-! ### Trees -/

/-- All rows of a tree are shown if all its nodes are. -/
theorem shown_rowsAt {n : Node} (h : n.AllShown) {depth : Nat} {slot : Option Slot}
    (hslot : ∀ s ∈ slot, s ∈ outlineSlots) : ∀ r ∈ rowsAt depth slot n, r.Shown := by
  induction n using children_induction generalizing depth slot with
  | step n ih =>
    obtain ⟨hn, hparts⟩ := allShown_iff.mp h
    rw [hn.rowsAt_eq, List.forall_mem_cons]
    refine ⟨⟨hn, hslot⟩, fun r hr => ?_⟩
    obtain ⟨part, hpart, hr⟩ := List.mem_flatMap.mp hr
    refine ih part hpart (hparts part hpart) ?_ r hr
    rintro _ ⟨⟩
    exact hn.slots.subset (List.mem_map_of_mem hpart)

theorem shown_rows {n : Node} (h : n.AllShown) : ∀ r ∈ n.rows, r.Shown :=
  shown_rowsAt h nofun

/-- Rows that are shown in lines have one line each. -/
theorem lines_join {rs : List Row} (h : ∀ r ∈ rs, r.Shown) :
    lines (String.join (rs.map fun r => r.text ++ "\n")).toList
      = rs.map (fun r => r.text.toList) ++ [[]] := by
  induction rs with
  | nil => rfl
  | cons r rs ih =>
    obtain ⟨hr, hrs⟩ := List.forall_mem_cons.mp h
    have hsplit : (String.join ((r :: rs).map fun r => r.text ++ "\n")).toList
        = r.text.toList ++ '\n' :: (String.join (rs.map fun r => r.text ++ "\n")).toList := by
      simp
    rw [hsplit, lines_append_newline, lines_of_no_newline (Row.no_newline_text hr), ih hrs]
    rfl

/-- **The outline has one line for each row**, and nothing behind the last one. -/
theorem lines_outline {n : Node} (h : n.AllShown) :
    lines n.outline.toList = n.rows.map (fun r => r.text.toList) ++ [[]] :=
  lines_join (shown_rows h)

end Node

end Pseudocode
