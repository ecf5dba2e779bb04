import StreamedUi.Proofs.Markup.Form
import StreamedUi.Proofs.Markup.Quoted
import StreamedUi.Proofs.Text.Separated

/-! What attributes tell of property values. A form is found again at the front of a text
(`Form.Regular.chars_append_inj`): its first character tells its kind, a string ends at its quote,
and no item or member is taken for what closes a list or a record. So two lists of properties have
the same attributes exactly if the properties that are written have the same forms in the same order
(`attributes_eq_iff`). -/

namespace StreamedUi.Markup
open Json Numeric

namespace Form

/-! ## Telling forms from what follows -/

/-- The constructors of forms, as far as the first character tells them apart. -/
inductive Kind
  | null
  | bool
  | number
  | string
  | list
  | record
  deriving DecidableEq, Repr

def kind : Form → Kind
  | .null => .null
  | .bool _ => .bool
  | .number _ => .number
  | .string _ => .string
  | .list _ => .list
  | .record _ => .record

/-- The kind of the form whose text begins with a character. -/
def kindOf? (c : Char) : Option Kind :=
  if c = 'n' then some .null
  else if c = 't' ∨ c = 'f' then some .bool
  else if c = '"' ∨ c = '\'' then some .string
  else if c = '[' then some .list
  else if c = '\x7b' then some .record
  else if isNumeralChar c then some .number
  else none

variable {q : Quotes} {f g : Form} {rest rest' : List Char}

theorem kindOf?_of_isNumeralChar {c : Char} (h : isNumeralChar c = true) :
    kindOf? c = some .number := by
  unfold kindOf?
  have hne : ∀ d, isNumeralChar d = false → c ≠ d := by
    rintro d hd rfl
    exact Bool.false_ne_true (hd.symm.trans h)
  simp [h, hne 'n' rfl, hne 't' rfl, hne 'f' rfl, hne '"' rfl, hne '\'' rfl, hne '[' rfl,
    hne '\x7b' rfl]

/-- The first character tells the kind of a form. -/
theorem Regular.exists_first (h : f.Regular) (q : Quotes) :
    ∃ c cs, f.chars q = c :: cs ∧ kindOf? c = some f.kind := by
  cases h with
  | null => exact ⟨'n', _, rfl, rfl⟩
  | bool b =>
    cases b with
    | true => exact ⟨'t', _, rfl, rfl⟩
    | false => exact ⟨'f', _, rfl, rfl⟩
  | @number text htext =>
    obtain ⟨c, cs, rfl⟩ := List.exists_cons_of_ne_nil htext.ne_nil
    exact ⟨c, cs, rfl, kindOf?_of_isNumeralChar (htext.chars c List.mem_cons_self)⟩
  | string s => exact ⟨q.char, _, rfl, by cases q <;> rfl⟩
  | list _ => exact ⟨'[', _, rfl, rfl⟩
  | record _ _ => exact ⟨'\x7b', _, rfl, rfl⟩

theorem Regular.kind_eq (hf : f.Regular) (hg : g.Regular)
    (h : f.chars q ++ rest = g.chars q ++ rest') : f.kind = g.kind := by
  obtain ⟨c, cs, hc, hkind⟩ := hf.exists_first q
  obtain ⟨d, ds, hd, hkind'⟩ := hg.exists_first q
  rw [hc, hd, List.cons_append, List.cons_append] at h
  obtain ⟨rfl, -⟩ := List.cons.inj h
  exact Option.some.inj (hkind.symm.trans hkind')

/-- What may stand after a form: nothing that would continue a number. -/
def Stops (rest : List Char) : Prop := ∀ c ∈ rest.head?, isNumeralChar c = false

theorem itemChars_eq_map (q : Quotes) (fs : List Form) : itemChars q fs = fs.map (chars q) := by
  induction fs with
  | nil => rfl
  | cons f fs ih => rw [itemChars, ih, List.map_cons]

/-- A member as it is written. -/
def memberText (q : Quotes) (m : String × Form) : List Char :=
  m.1.toList ++ ':' :: ' ' :: m.2.chars q

theorem memberChars_eq_map (q : Quotes) (ms : List (String × Form)) :
    memberChars q ms = ms.map (memberText q) := by
  induction ms with
  | nil => rfl
  | cons m ms ih =>
    rw [memberChars, ih, List.map_cons]
    rfl

/-- Before a bracket, items have come to an end. -/
theorem closes_items {fs : List Form} (h : ∀ f ∈ fs, f.Regular) (rest : List Char) :
    Text.Closes Stops [',', ' '] (fs.map (chars q)) (']' :: rest) where
  stop := by
    rintro _ ⟨⟩
    rfl
  not_sep h := by
    obtain ⟨_, h⟩ := h
    cases h
  not_part := by
    refine List.forall_mem_map.2 fun f hf hpart => ?_
    obtain ⟨c, cs, hc, hkind⟩ := (h f hf).exists_first q
    obtain ⟨_, hpart⟩ := hpart
    rw [hc] at hpart
    obtain ⟨rfl, -⟩ := List.cons.inj hpart
    cases hkind

/-- Before a blank, members have come to an end. -/
theorem closes_members {ms : List (String × Form)} (h : ∀ m ∈ ms, IsIdentifier m.1)
    (rest : List Char) : Text.Closes Stops [',', ' '] (ms.map (memberText q)) (' ' :: rest) where
  stop := by
    rintro _ ⟨⟩
    rfl
  not_sep h := by
    obtain ⟨_, h⟩ := h
    cases h
  not_part := by
    refine List.forall_mem_map.2 fun m hm hpart => ?_
    obtain ⟨hne, hchars, -⟩ := h m hm
    obtain ⟨c, cs, hc⟩ := List.exists_cons_of_ne_nil hne
    obtain ⟨_, hpart⟩ := hpart
    rw [memberText, hc] at hpart
    obtain ⟨rfl, -⟩ := List.cons.inj hpart
    rw [hc] at hchars
    cases hchars _ List.mem_cons_self

theorem memberText_append_inj {m m' : String × Form} (hname : IsIdentifier m.1)
    (hname' : IsIdentifier m'.1)
    (hvalue : m.2.chars q ++ rest = m'.2.chars q ++ rest' → m.2 = m'.2 ∧ rest = rest')
    (h : memberText q m ++ rest = memberText q m' ++ rest') : m = m' ∧ rest = rest' := by
  have hcolon : ∀ (f : Form) (rest : List Char),
      ∀ c ∈ (':' :: ' ' :: f.chars q ++ rest).head?, isIdentifierChar c = false := by
    rintro f rest _ ⟨⟩
    rfl
  rw [memberText, memberText, List.append_assoc, List.append_assoc] at h
  obtain ⟨hnames, htail⟩ :=
    Text.word_append_inj hname.chars hname'.chars (hcolon _ _) (hcolon _ _) h
  simp only [List.cons_append, List.cons.injEq, true_and] at htail
  obtain ⟨hvalues, hrest⟩ := hvalue htail
  exact ⟨Prod.ext (String.toList_inj.1 hnames) hvalues, hrest⟩

/-- A form is found again at the front of a text, unless it is a number that goes on. -/
theorem Regular.chars_append_inj (hf : f.Regular) (hg : g.Regular) (hrest : Stops rest)
    (hrest' : Stops rest') (h : f.chars q ++ rest = g.chars q ++ rest') :
    f = g ∧ rest = rest' := by
  have hkind := hf.kind_eq hg h
  induction hf generalizing g rest rest' with
  | null =>
    cases hg with
    | null => exact ⟨rfl, List.append_cancel_left h⟩
    | _ => cases hkind
  | bool b =>
    cases hg with
    | bool b' =>
      cases b <;> cases b'
      · exact ⟨rfl, List.append_cancel_left h⟩
      · simp [chars] at h
      · simp [chars] at h
      · exact ⟨rfl, List.append_cancel_left h⟩
    | _ => cases hkind
  | number htext =>
    cases hg with
    | number htext' =>
      obtain ⟨rfl, hrests⟩ := Text.word_append_inj htext.chars htext'.chars hrest hrest' h
      exact ⟨rfl, hrests⟩
    | _ => cases hkind
  | string s =>
    cases hg with
    | string t =>
      obtain ⟨rfl, hrests⟩ := quoted_append_inj h
      exact ⟨rfl, hrests⟩
    | _ => cases hkind
  | @list fs hfs ih =>
    cases hg with
    | @list gs hgs =>
      simp only [chars, itemChars_eq_map, commaSeparated, List.cons_append, List.cons.injEq,
        true_and, List.append_assoc, List.nil_append] at h
      obtain ⟨rfl, hrests⟩ := Text.separated_append_inj
        (fun rest => by rintro _ ⟨⟩; rfl)
        (fun f hf g hg rest rest' hrest hrest' h =>
          ih f hf (hgs g hg) hrest hrest' h ((hfs f hf).kind_eq (hgs g hg) h))
        (closes_items hgs rest) (closes_items hfs rest') h
      exact ⟨rfl, (List.cons.inj hrests).2⟩
    | _ => cases hkind
  | @record ms hnames hms ih =>
    cases hg with
    | @record ns hnames' hns =>
      simp only [chars, memberChars_eq_map, commaSeparated, List.cons_append, List.cons.injEq,
        true_and, List.append_assoc, List.nil_append] at h
      obtain ⟨rfl, hrests⟩ := Text.separated_append_inj
        (fun rest => by rintro _ ⟨⟩; rfl)
        (fun m hm n hn rest rest' hrest hrest' =>
          memberText_append_inj (hnames m hm) (hnames' n hn) fun h =>
            ih m hm (hns n hn) hrest hrest' h ((hms m hm).kind_eq (hns n hn) h))
        (closes_members hnames' _) (closes_members hnames _) h
      simp only [List.cons.injEq, true_and] at hrests
      exact ⟨rfl, hrests⟩
    | _ => cases hkind

/-! ## Attributes -/

/-- What may stand after an attribute. -/
def Ends (rest : List Char) : Prop := ∀ c ∈ rest.head?, c = ' '

theorem setting_cases (q : Quotes) (f : Form) :
    (f = .bool true ∧ f.setting q = []) ∨ (∃ s, f = .string s ∧ f.setting q = '=' :: quoted q s) ∨
      f.setting q = '=' :: '\x7b' :: (f.chars q ++ ['}']) := by
  unfold setting
  split
  · exact .inl ⟨rfl, rfl⟩
  · exact .inr (.inl ⟨_, rfl, rfl⟩)
  · exact .inr (.inr rfl)

theorem Regular.setting_append_inj (hf : f.Regular) (hg : g.Regular) (hrest : Ends rest)
    (hrest' : Ends rest') (h : f.setting q ++ rest = g.setting q ++ rest') :
    f = g ∧ rest = rest' := by
  have hquote : q.char ≠ '\x7b' := by cases q <;> decide
  -- An attribute without a value is followed by no `=`.
  have hflag : ∀ {rest : List Char}, Ends rest → ∀ tail, rest ≠ '=' :: tail := by
    rintro rest hrest tail rfl
    cases hrest '=' rfl
  rcases setting_cases q f with ⟨rfl, hset⟩ | ⟨s, rfl, hset⟩ | hset <;>
    rcases setting_cases q g with ⟨rfl, hset'⟩ | ⟨t, rfl, hset'⟩ | hset' <;>
    simp only [hset, hset'] at h
  · exact ⟨rfl, h⟩
  · exact absurd h (hflag hrest _)
  · exact absurd h (hflag hrest _)
  · exact absurd h.symm (hflag hrest' _)
  · obtain ⟨rfl, hrests⟩ := quoted_append_inj (List.cons.inj h).2
    exact ⟨rfl, hrests⟩
  · exact absurd (List.cons.inj (List.cons.inj h).2).1 hquote
  · exact absurd h.symm (hflag hrest' _)
  · exact absurd (List.cons.inj (List.cons.inj h).2).1.symm hquote
  · simp only [List.cons_append, List.cons.injEq, true_and, List.append_assoc,
      List.nil_append] at h
    have hbrace : ∀ rest, Stops ('}' :: rest) := by
      rintro rest _ ⟨⟩
      rfl
    obtain ⟨rfl, hrests⟩ := hf.chars_append_inj hg (hbrace rest) (hbrace rest') h
    exact ⟨rfl, (List.cons.inj hrests).2⟩

theorem attributeText_append_inj {m m' : String × Form} (hname : IsIdentifier m.1)
    (hname' : IsIdentifier m'.1) (hm : m.2.Regular) (hm' : m'.2.Regular) (hrest : Ends rest)
    (hrest' : Ends rest') (h : attributeText q m ++ rest = attributeText q m' ++ rest') :
    m = m' ∧ rest = rest' := by
  have hend : ∀ (f : Form) {rest : List Char}, Ends rest →
      ∀ c ∈ (f.setting q ++ rest).head?, isIdentifierChar c = false := by
    intro f rest hrest c hc
    obtain ⟨-, hset⟩ | ⟨s, -, hset⟩ | hset := setting_cases q f
    all_goals rw [hset] at hc
    · rw [hrest c hc]
      rfl
    all_goals cases hc; rfl
  rw [attributeText, attributeText, List.append_assoc, List.append_assoc] at h
  obtain ⟨hnames, htail⟩ :=
    Text.word_append_inj hname.chars hname'.chars (hend _ hrest) (hend _ hrest') h
  obtain ⟨hvalues, hrests⟩ := hm.setting_append_inj hm' hrest hrest' htail
  exact ⟨Prod.ext (String.toList_inj.1 hnames) hvalues, hrests⟩

/-- Nothing is left behind the last attribute. -/
theorem closes_attributes {ms : List (String × Form)} (h : ∀ m ∈ ms, IsIdentifier m.1) :
    Text.Closes Ends [' '] (ms.map (attributeText q)) [] where
  stop := nofun
  not_sep h := List.cons_ne_nil _ _ (List.prefix_nil.1 h)
  not_part := by
    refine List.forall_mem_map.2 fun m hm hpart => (h m hm).ne_nil ?_
    exact (List.append_eq_nil_iff.1 (List.prefix_nil.1 hpart)).1

end Form

/-- Properties with identifiers for names have the same attributes exactly if those that are not
null have the same names and forms, in the same order. -/
theorem attributes_eq_iff (q : Quotes) {props props' : Members}
    (h : ∀ m ∈ props, IsIdentifier m.1 ∧ Named m.2)
    (h' : ∀ m ∈ props', IsIdentifier m.1 ∧ Named m.2) :
    attributes q props = attributes q props' ↔ forms props = forms props' := by
  have H := regular_forms h
  have H' := regular_forms h'
  rw [attributes_eq, attributes_eq]
  constructor
  · intro heq
    have hsep : ∀ rest, Form.Ends ([' '] ++ rest) := fun rest => by rintro _ ⟨⟩; rfl
    have hparts : forms props = forms props' ∧ ([] : List Char) = [] :=
      Text.separated_append_inj hsep
        (fun m hm m' hm' rest rest' hrest hrest' =>
          Form.attributeText_append_inj (H m hm).1 (H' m' hm').1 (H m hm).2 (H' m' hm').2
            hrest hrest')
        (Form.closes_attributes fun m hm => (H' m hm).1)
        (Form.closes_attributes fun m hm => (H m hm).1)
        (congrArg (· ++ []) heq)
    exact hparts.1
  · rintro heq
    rw [heq]

/-- Bound data with a hint beside its path, and a property that is null. -/
theorem attributes_eq_iff_bound :
    let value : Value := .object [("path", .string "a\" b=\"c")]
    let hinted : Value := .object [("path", .string "a\" b=\"c"), ("hint", .array [.null])]
    let props : Members := [("value", value), ("open", .bool true)]
    let props' : Members := [("value", hinted), ("tag", .null), ("open", .bool true)]
    attributes .double props = attributes .double props' ∧ forms props = forms props' := by
  have hpath : IsIdentifier "path" := by decide
  have hhint : IsIdentifier "hint" := by decide
  refine ⟨by decide, (attributes_eq_iff .double ?_ ?_).1 (by decide)⟩
  · refine List.forall_mem_cons.2 ⟨⟨by decide, .object ?_ ?_⟩, ?_⟩
    · exact List.forall_mem_singleton.2 hpath
    · exact List.forall_mem_singleton.2 (.string _)
    · exact List.forall_mem_singleton.2 ⟨by decide, .bool _⟩
  · refine List.forall_mem_cons.2 ⟨⟨by decide, .object ?_ ?_⟩, ?_⟩
    · exact List.forall_mem_cons.2 ⟨hpath, List.forall_mem_singleton.2 hhint⟩
    · exact List.forall_mem_cons.2 ⟨.string _, List.forall_mem_singleton.2
        (.array (List.forall_mem_singleton.2 .null))⟩
    · exact List.forall_mem_cons.2 ⟨⟨by decide, .null⟩,
        List.forall_mem_singleton.2 ⟨by decide, .bool _⟩⟩

end StreamedUi.Markup
