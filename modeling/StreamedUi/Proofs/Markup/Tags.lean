import StreamedUi.Proofs.Markup.Form
import StreamedUi.Proofs.Markup.Lines
import StreamedUi.Proofs.Markup.Quoted
import StreamedUi.Proofs.Text.Joined

/-! The tags in the text of the markup. `tagsOf` reads any text: outside of strings, what follows a
`<` is the name of a tag. In printed markup it passes over attributes (`quiet_attributes`), since
the strings in them are closed, and finds one tag for each line, named by the kind of the line's
element (`tagsOf_body`). This takes kinds that are names of tags, and properties with names that do
not look like markup themselves (`Plain`); both are printed as they are. -/

namespace StreamedUi.Markup
open Json Numeric

/-! ## The reader -/

/-- The character ends the name of a tag. -/
def endsName (c : Char) : Bool :=
  c.isWhitespace || ['<', '>', '/', '=', '\x7b', '\x7d', '"', '\''].contains c

/-- The name that stands after a `<`, or after the slash of a closing tag. -/
def tagName : List Char → String
  | '/' :: cs => String.ofList (cs.takeWhile (!endsName ·))
  | cs => String.ofList (cs.takeWhile (!endsName ·))

/-- Where a reader stands: outside of strings, or inside one and perhaps behind a backslash. -/
inductive Place
  | outside
  | inside (quote : Char)
  | escaped (quote : Char)

/-- The names of the tags that begin outside of strings. -/
def tagNames : Place → List Char → List String
  | _, [] => []
  | .outside, c :: cs =>
    if c = '<' then tagName cs :: tagNames .outside cs
    else if c = '"' ∨ c = '\'' then tagNames (.inside c) cs
    else tagNames .outside cs
  | .inside quote, c :: cs =>
    if c = '\\' then tagNames (.escaped quote) cs
    else if c = quote then tagNames .outside cs
    else tagNames (.inside quote) cs
  | .escaped quote, _ :: cs => tagNames (.inside quote) cs

/-- The names of the tags of a text, opening and closing ones, in order. -/
def tagsOf (text : String) : List String := tagNames .outside text.toList

example : tagsOf "<A b=\"<C> \\\" <D>\"><Br /></A>" = ["A", "Br", "A"] := by decide

/-! ## Text without tags -/

/-- The character begins neither a tag nor a string. -/
def IsPlainChar (c : Char) : Prop := c ≠ '<' ∧ c ≠ '"' ∧ c ≠ '\''

instance (c : Char) : Decidable (IsPlainChar c) := inferInstanceAs (Decidable (_ ∧ _))

/-- Nothing in the text begins a tag or a string. -/
def PlainText (cs : List Char) : Prop := ∀ c ∈ cs, IsPlainChar c

instance (cs : List Char) : Decidable (PlainText cs) := List.decidableBAll _ cs

/-- The reader finds no tag here and is outside of strings afterwards. -/
def Quiet (cs : List Char) : Prop :=
  ∀ rest, tagNames .outside (cs ++ rest) = tagNames .outside rest

variable {cs ds : List Char} {q : Quotes}

theorem Quiet.nil : Quiet [] := fun _ => rfl

theorem Quiet.append (h : Quiet cs) (h' : Quiet ds) : Quiet (cs ++ ds) := fun rest => by
  rw [List.append_assoc, h, h']

theorem Quiet.cons {c : Char} (hc : IsPlainChar c) (h : Quiet cs) : Quiet (c :: cs) := by
  intro rest
  obtain ⟨hlt, hdouble, hsingle⟩ := hc
  rw [List.cons_append, tagNames, if_neg hlt, if_neg (not_or.2 ⟨hdouble, hsingle⟩), h]

theorem Quiet.of_plain (h : PlainText cs) : Quiet cs := by
  induction cs with
  | nil => exact .nil
  | cons c cs ih =>
    obtain ⟨hc, hcs⟩ := List.forall_mem_cons.1 h
    exact .cons hc (ih hcs)

theorem Quiet.intercalate {sep : List Char} {parts : List (List Char)} (hsep : Quiet sep)
    (h : ∀ part ∈ parts, Quiet part) : Quiet (sep.intercalate parts) := by
  induction parts with
  | nil => exact .nil
  | cons part parts ih =>
    obtain ⟨hpart, hparts⟩ := List.forall_mem_cons.1 h
    cases parts with
    | nil => rwa [List.intercalate_singleton]
    | cons part' parts =>
      rw [List.intercalate_cons_cons]
      exact (hpart.append hsep).append (ih hparts)

/-- A string is left at its closing quote. -/
theorem tagNames_escape (q : Quotes) (s rest : List Char) :
    tagNames (.inside q.char) (escape q s ++ q.char :: rest) = tagNames .outside rest := by
  have hback : q.char ≠ '\\' := by cases q <;> decide
  induction s with
  | nil => rw [escape, List.flatMap_nil, List.nil_append, tagNames, if_neg hback, if_pos rfl]
  | cons c s ih =>
    rw [escape, List.flatMap_cons, ← escape, List.append_assoc]
    obtain ⟨letter, hescaped, -⟩ | ⟨hplain, hc, hquote⟩ := escapeChar_cases q c
    · rw [hescaped, List.cons_append, List.cons_append, List.nil_append, tagNames, if_pos rfl,
        tagNames, ih]
    · rw [hplain, List.cons_append, List.nil_append, tagNames, if_neg hc, if_neg hquote, ih]

theorem quiet_quoted (q : Quotes) (s : String) : Quiet (quoted q s) := fun rest => by
  have hlt : q.char ≠ '<' := by cases q <;> decide
  have hquote : q.char = '"' ∨ q.char = '\'' := by cases q <;> decide
  rw [quoted, List.cons_append, tagNames, if_neg hlt, if_pos hquote, List.append_assoc,
    List.singleton_append, tagNames_escape]

theorem isPlainChar_of_isNumeralChar {c : Char} (h : isNumeralChar c = true) : IsPlainChar c := by
  refine ⟨?_, ?_, ?_⟩ <;>
  · rintro rfl
    cases h

theorem quiet_numberChars (n : Number) : Quiet (numberChars n) :=
  .of_plain fun c hc => isPlainChar_of_isNumeralChar ((isNumeral_numberChars n).chars c hc)

/-! ## Attributes -/

mutual
/-- The names of the members of a value, at any depth. -/
def memberNames : Value → List String
  | .null | .bool _ | .number _ | .string _ => []
  | .array items => itemNames items
  | .object ms => allNames ms

def itemNames : List Value → List String
  | [] => []
  | v :: vs => memberNames v ++ itemNames vs

def allNames : List (String × Value) → List String
  | [] => []
  | (name, v) :: ms => name :: (memberNames v ++ allNames ms)
end

mutual
theorem quiet_expression (q : Quotes) :
    ∀ v : Value, (∀ name ∈ memberNames v, PlainText name.toList) → Quiet (expression q v)
  | .null, _ => .of_plain (by cases q <;> decide)
  | .bool true, _ => .of_plain (by cases q <;> decide)
  | .bool false, _ => .of_plain (by cases q <;> decide)
  | .number n, _ => quiet_numberChars n
  | .string s, _ => quiet_quoted q s
  | .array items, h => by
    have hitems : Quiet (commaSeparated (expressions q items)) :=
      .intercalate (.of_plain (by decide)) (quiet_expressions q items h)
    exact .cons (by decide) (hitems.append (.of_plain (by decide)))
  | .object ms, h => by
    have hmembers : Quiet (commaSeparated (memberExpressions q ms)) :=
      .intercalate (.of_plain (by decide)) (quiet_memberExpressions q ms h)
    rw [expression]
    split
    · next p _ =>
      exact ((Quiet.of_plain (by decide)).append (quiet_quoted q p)).append (.of_plain (by decide))
    · exact .cons (by decide) (.cons (by decide) (hmembers.append (.of_plain (by decide))))

theorem quiet_expressions (q : Quotes) :
    ∀ vs : List Value, (∀ name ∈ itemNames vs, PlainText name.toList) →
      ∀ part ∈ expressions q vs, Quiet part
  | [], _ => fun _ hpart => absurd hpart List.not_mem_nil
  | v :: vs, h => by
    obtain ⟨hv, hvs⟩ := List.forall_mem_append.1 h
    exact List.forall_mem_cons.2 ⟨quiet_expression q v hv, quiet_expressions q vs hvs⟩

theorem quiet_memberExpressions (q : Quotes) :
    ∀ ms : List (String × Value), (∀ name ∈ allNames ms, PlainText name.toList) →
      ∀ part ∈ memberExpressions q ms, Quiet part
  | [], _ => fun _ hpart => absurd hpart List.not_mem_nil
  | (name, v) :: ms, h => by
    obtain ⟨hname, hrest⟩ := List.forall_mem_cons.1 h
    obtain ⟨hv, hms⟩ := List.forall_mem_append.1 hrest
    have hpart : Quiet (name.toList ++ ':' :: ' ' :: expression q v) :=
      .append (.of_plain hname) (.cons (by decide) (.cons (by decide) (quiet_expression q v hv)))
    exact List.forall_mem_cons.2 ⟨hpart, quiet_memberExpressions q ms hms⟩
end

theorem quiet_attribute? {name : String} {v : Value} (hname : PlainText name.toList)
    (hv : ∀ name ∈ memberNames v, PlainText name.toList) :
    ∀ part ∈ attribute? q name v, Quiet part := by
  have hvalue := quiet_expression q v hv
  unfold attribute?
  split
  · exact fun _ hpart => nomatch hpart
  · rintro _ ⟨⟩
    exact .of_plain hname
  · rintro _ ⟨⟩
    refine .append (.of_plain hname) (.cons (by decide) ?_)
    split
    · exact .cons (by decide) (hvalue.append (.of_plain (by decide)))
    · exact hvalue

/-- The reader passes over attributes. -/
theorem quiet_attributes {props : Members} (h : ∀ name ∈ allNames props, PlainText name.toList) :
    Quiet (attributes q props) := by
  apply Quiet.intercalate (.of_plain (by decide))
  induction props with
  | nil => exact fun _ hpart => absurd hpart List.not_mem_nil
  | cons m props ih =>
    obtain ⟨name, v⟩ := m
    obtain ⟨hname, hrest⟩ := List.forall_mem_cons.1 h
    obtain ⟨hv, hprops⟩ := List.forall_mem_append.1 hrest
    intro part hpart
    rw [List.filterMap_cons] at hpart
    split at hpart
    · exact ih hprops part hpart
    · next hwritten =>
      rcases List.mem_cons.1 hpart with rfl | hpart
      · exact quiet_attribute? hname hv _ hwritten
      · exact ih hprops part hpart

/-! ## Lines -/

/-- The kind is the name of a tag. -/
def IsTagName (kind : String) : Prop := ∀ c ∈ kind.toList, endsName c = false

instance (kind : String) : Decidable (IsTagName kind) :=
  List.decidableBAll _ kind.toList

/-- The kind is the name of a tag, and the names of properties and of members inside of them do not
look like markup. -/
structure Plain (e : Element) : Prop where
  kind : IsTagName e.kind
  names : ∀ name ∈ allNames e.props, PlainText name.toList

theorem IsTagName.quiet {kind : String} (h : IsTagName kind) : Quiet kind.toList :=
  .of_plain fun c hc => by
    refine ⟨?_, ?_, ?_⟩ <;>
    · rintro rfl
      exact absurd (h _ hc) (by decide)

/-- A name ends where a blank or a bracket follows. -/
theorem tagName_append {kind : String} (h : IsTagName kind) {c : Char} (hc : endsName c = true)
    (hslash : c ≠ '/') (cs : List Char) : tagName (kind.toList ++ c :: cs) = kind := by
  have htake : (kind.toList ++ c :: cs).takeWhile (!endsName ·) = kind.toList := by
    rw [List.takeWhile_append_of_pos, List.takeWhile_cons_of_neg, List.append_nil]
    · simp [hc]
    · exact fun d hd => by simp [h d hd]
  have hname : tagName (kind.toList ++ c :: cs) =
      String.ofList ((kind.toList ++ c :: cs).takeWhile (!endsName ·)) := by
    apply tagName.eq_2
    intro cs' hcs'
    cases hkind : kind.toList with
    | nil =>
      rw [hkind] at hcs'
      exact hslash (List.cons.inj hcs').1
    | cons d ds =>
      rw [hkind] at hcs'
      have hd := h d (hkind ▸ List.mem_cons_self)
      rw [(List.cons.inj hcs').1] at hd
      cases hd
  rw [hname, htake, String.ofList_toList]

theorem tagName_slash {kind : String} (h : IsTagName kind) (cs : List Char) :
    tagName ('/' :: (kind.toList ++ '>' :: cs)) = kind := by
  rw [tagName, List.takeWhile_append_of_pos (fun d hd => by simp [h d hd]),
    List.takeWhile_cons_of_neg (by decide), List.append_nil, String.ofList_toList]

theorem quiet_padding (o : Options) (depth : Nat) : Quiet (padding o depth).toList := by
  rw [padding, String.toList_ofList]
  exact .of_plain fun c hc => by
    rw [List.eq_of_mem_replicate hc]
    decide

/-- After the name of an element's tag a blank follows, or the bracket that closes the tag. -/
theorem exists_attributeText_append {e : Element} (h : Plain e) (o : Options) {c : Char}
    (hc : c = ' ' ∨ c = '>') (cs : List Char) :
    ∃ d ds, (Line.attributeText o e).toList ++ c :: cs = d :: ds ∧ (d = ' ' ∨ d = '>') ∧
      Quiet (Line.attributeText o e).toList := by
  have hquiet := quiet_attributes (q := o.quotes) h.names
  rw [attributes_eq] at hquiet
  unfold Line.attributeText
  split
  · exact ⟨c, cs, rfl, hc, .nil⟩
  · next d ds hattributes =>
    rw [hattributes] at hquiet
    simp only [String.toList_append, String.toList_ofList]
    exact ⟨' ', _, rfl, .inl rfl, .append (.of_plain (by decide)) hquiet⟩

/-- The tag of an element that has its attributes and what closes it behind its name. -/
theorem tagNames_element {e : Element} (h : Plain e) (o : Options) {close : List Char} {c : Char}
    (hclose : close.head? = some c) (hc : c = ' ' ∨ c = '>') (hquiet : Quiet close)
    (rest : List Char) :
    tagNames .outside ('<' :: (e.kind.toList ++ (Line.attributeText o e).toList ++ close ++ rest)) =
      e.kind :: tagNames .outside rest := by
  obtain ⟨cs, rfl⟩ := List.head?_eq_some_iff.1 hclose
  obtain ⟨d, ds, hnext, hd, hattributes⟩ := exists_attributeText_append h o hc (cs ++ rest)
  have hends : endsName d = true ∧ d ≠ '/' := by rcases hd with rfl | rfl <;> decide
  rw [tagNames, if_pos rfl, List.append_assoc, List.append_assoc, List.cons_append, hnext,
    tagName_append h.kind hends.1 hends.2, ← hnext, h.kind.quiet, hattributes, ← List.cons_append,
    hquiet]

/-- The line of a plain element. -/
def Line.Plain : Line → Prop
  | .selfClosing _ e | .opening _ e => Markup.Plain e
  | .closing _ kind => IsTagName kind

/-- The reader finds one tag on each line. -/
theorem tagNames_printed {l : Line} (h : l.Plain) (o : Options) (rest : List Char) :
    tagNames .outside ((l.printed o).toList ++ rest) = l.kind :: tagNames .outside rest := by
  rw [Line.printed, String.toList_append, List.append_assoc, quiet_padding]
  cases l with
  | selfClosing depth e =>
    have htext : (Line.tagText o (.selfClosing depth e)).toList ++ rest =
        '<' :: (e.kind.toList ++ (Line.attributeText o e).toList ++ " />".toList ++ rest) := by
      simp [Line.tagText]
    rw [htext]
    exact tagNames_element h o rfl (.inl rfl) (.of_plain (by decide)) rest
  | opening depth e =>
    have htext : (Line.tagText o (.opening depth e)).toList ++ rest =
        '<' :: (e.kind.toList ++ (Line.attributeText o e).toList ++ ">".toList ++ rest) := by
      simp [Line.tagText]
    rw [htext]
    exact tagNames_element h o rfl (.inr rfl) (.of_plain (by decide)) rest
  | closing depth kind =>
    have htext : (Line.tagText o (.closing depth kind)).toList ++ rest =
        '<' :: '/' :: (kind.toList ++ '>' :: rest) := by
      simp [Line.tagText]
    have hclose : Quiet ['>'] := .of_plain (by decide)
    have hslash : Quiet ['/'] := .of_plain (by decide)
    have hkind : IsTagName kind := h
    rw [htext, tagNames, if_pos rfl, tagName_slash hkind]
    show _ :: tagNames .outside (['/'] ++ (kind.toList ++ (['>'] ++ rest))) = _
    rw [hslash, hkind.quiet, hclose]
    rfl

theorem tagsOf_intercalate {ls : List Line} (o : Options) (h : ∀ l ∈ ls, l.Plain) :
    tagsOf ("\n".intercalate (ls.map (Line.printed o))) = ls.map Line.kind := by
  have hbreak : Quiet "\n".toList := .of_plain (by decide)
  induction ls with
  | nil => rfl
  | cons l ls ih =>
    obtain ⟨hl, hls⟩ := List.forall_mem_cons.1 h
    by_cases hnil : ls = []
    · subst hnil
      have hline := tagNames_printed hl o []
      rwa [List.append_nil] at hline
    · rw [List.map_cons, Text.intercalate_cons_of_ne_nil _ (mt List.map_eq_nil_iff.1 hnil), tagsOf,
        String.append_assoc, String.toList_append, String.toList_append, tagNames_printed hl,
        hbreak, ← tagsOf, ih hls, List.map_cons]

/-- The tags of the markup are those of its lines. -/
theorem tagsOf_body (o : Options) {t : Tree} (h : ∀ v ∈ (t.walk none).visits, Plain v.element) :
    tagsOf (body o t) = (treeLines t).map Line.kind := by
  rw [body, bodyLines_eq]
  apply tagsOf_intercalate o
  refine forall_mem_treeLines ?_
  rintro v hv _ (_ | _ | _)
  · exact h v hv
  · exact h v hv
  · exact (h v hv).kind

/-- A name is that of a tag if an element of this kind is visited. -/
theorem mem_tagsOf_body_iff (o : Options) {t : Tree} {kind : String}
    (h : ∀ v ∈ (t.walk none).visits, Plain v.element) :
    kind ∈ tagsOf (body o t) ↔ ∃ v ∈ (t.walk none).visits, v.element.kind = kind := by
  rw [tagsOf_body o h, List.mem_map]
  exact exists_mem_treeLines_iff

end StreamedUi.Markup
