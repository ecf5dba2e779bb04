import StreamedUi.Markup.Attribute
import StreamedUi.Proofs.Numeric.Layout

/-! Values as markup shows them. In a `Form` an object with a string under `path` has that member
alone, and a number is known by its text. The attributes of properties are the text of their forms
(`attributes_eq`), which are regular if the properties have identifiers for names
(`regular_forms`). -/

namespace StreamedUi.Markup
open Json Numeric

/-- A value as it is written. -/
inductive Form
  | null
  | bool (b : Bool)
  | number (text : List Char)
  | string (s : String)
  | list (items : List Form)
  | record (members : List (String × Form))

namespace Form

mutual
/-- The form of a value. A bound value keeps its path alone. -/
def ofValue : Value → Form
  | .null => .null
  | .bool b => .bool b
  | .number n => .number (numberChars n)
  | .string s => .string s
  | .array items => .list (ofItems items)
  | .object ms =>
    match ms.lookup "path" with
    | some (.string p) => .record [("path", .string p)]
    | _ => .record (ofMembers ms)

def ofItems : List Value → List Form
  | [] => []
  | v :: vs => ofValue v :: ofItems vs

def ofMembers : List (String × Value) → List (String × Form)
  | [] => []
  | (name, v) :: ms => (name, ofValue v) :: ofMembers ms
end

mutual
/-- The text of a form. -/
def chars (q : Quotes) : Form → List Char
  | .null => "null".toList
  | .bool true => "true".toList
  | .bool false => "false".toList
  | .number text => text
  | .string s => quoted q s
  | .list items => '[' :: (commaSeparated (itemChars q items) ++ [']'])
  | .record ms => '{' :: ' ' :: (commaSeparated (memberChars q ms) ++ [' ', '}'])

def itemChars (q : Quotes) : List Form → List (List Char)
  | [] => []
  | f :: fs => f.chars q :: itemChars q fs

def memberChars (q : Quotes) : List (String × Form) → List (List Char)
  | [] => []
  | (name, f) :: ms => (name.toList ++ ':' :: ' ' :: f.chars q) :: memberChars q ms
end

/-- A form in an attribute, after the name. -/
def setting (q : Quotes) : Form → List Char
  | .bool true => []
  | .string s => '=' :: quoted q s
  | f => '=' :: '{' :: (f.chars q ++ ['}'])

end Form

/-- Whether a property is left out. -/
def isNull : Value → Bool
  | .null => true
  | _ => false

/-- The properties that are written, in order: all but those that are null. -/
def forms (props : Members) : List (String × Form) :=
  (props.filter fun m => !isNull m.2).map fun m => (m.1, .ofValue m.2)

/-! ## The text of a value is the text of its form -/

mutual
theorem expression_eq (q : Quotes) : ∀ v : Value, expression q v = (Form.ofValue v).chars q
  | .null | .bool true | .bool false | .number _ | .string _ => rfl
  | .array items => by
    rw [expression, expressions_eq q items]
    rfl
  | .object ms => by
    rw [expression, Form.ofValue, memberExpressions_eq q ms]
    cases ms.lookup "path" with
    | none => rfl
    | some v => cases v <;> simp [Form.chars, Form.memberChars, commaSeparated]

theorem expressions_eq (q : Quotes) :
    ∀ items : List Value, expressions q items = Form.itemChars q (Form.ofItems items)
  | [] => rfl
  | v :: vs => by
    rw [expressions, expression_eq q v, expressions_eq q vs]
    rfl

theorem memberExpressions_eq (q : Quotes) : ∀ ms : List (String × Value),
    memberExpressions q ms = Form.memberChars q (Form.ofMembers ms)
  | [] => rfl
  | (name, v) :: ms => by
    rw [memberExpressions, expression_eq q v, memberExpressions_eq q ms]
    rfl
end

theorem attribute?_eq (q : Quotes) (name : String) (v : Value) :
    attribute? q name v =
      if isNull v then none else some (name.toList ++ (Form.ofValue v).setting q) := by
  cases v with
  | null => rfl
  | bool b =>
    cases b with
    | false => rfl
    | true => exact congrArg some (List.append_nil _).symm
  | number n => rfl
  | string s => rfl
  | array items =>
    rw [attribute?, expression_eq, Form.ofValue]
    · rfl
    all_goals exact nofun
  | object ms =>
    rw [attribute?, expression_eq, Form.ofValue]
    · cases ms.lookup "path" with
      | none => rfl
      | some v => cases v <;> rfl
    all_goals exact nofun

/-- An attribute: the name, and the value if it has one. -/
def Form.attributeText (q : Quotes) (m : String × Form) : List Char :=
  m.1.toList ++ m.2.setting q

/-- The attributes are those of the forms. -/
theorem attributes_eq (q : Quotes) (props : Members) :
    attributes q props = [' '].intercalate ((forms props).map (Form.attributeText q)) := by
  unfold attributes forms
  congr 1
  induction props with
  | nil => rfl
  | cons m props ih =>
    obtain ⟨name, v⟩ := m
    have hattribute := attribute?_eq q name v
    cases hv : isNull v <;> simp [hattribute, hv, ih, Form.attributeText]

/-! ## Names -/

/-- The characters that identifiers are made of. -/
def isIdentifierChar (c : Char) : Bool := c.isAlphanum || c == '_' || c == '$'

/-- Letters, digits, `_` and `$`, with no digit first. -/
structure IsIdentifier (name : String) : Prop where
  ne_nil : name.toList ≠ []
  chars : ∀ c ∈ name.toList, isIdentifierChar c = true
  first : ∀ c ∈ name.toList.head?, c.isDigit = false

/-- All names of the objects inside the value are identifiers. -/
inductive Named : Value → Prop
  | null : Named .null
  | bool (b : Bool) : Named (.bool b)
  | number (n : Number) : Named (.number n)
  | string (s : String) : Named (.string s)
  | array {items : List Value} : (∀ v ∈ items, Named v) → Named (.array items)
  | object {ms : List (String × Value)} : (∀ m ∈ ms, IsIdentifier m.1) → (∀ m ∈ ms, Named m.2) →
    Named (.object ms)

instance (name : String) : Decidable (IsIdentifier name) :=
  decidable_of_iff (name.toList.isEmpty = false ∧ name.toList.all isIdentifierChar = true ∧
      name.toList.head?.all (fun c => !c.isDigit) = true)
    (by
      rw [List.isEmpty_eq_false_iff, List.all_eq_true, Option.all_eq_true]
      simp only [Bool.not_eq_true']
      exact ⟨fun h => ⟨h.1, h.2.1, h.2.2⟩, fun h => ⟨h.ne_nil, h.chars, h.first⟩⟩)

example : IsIdentifier "$col_2" ∧ ¬IsIdentifier "2nd" ∧ ¬IsIdentifier "aria-label" := by decide

theorem isNumeral_numberChars (n : Number) : IsNumeral (numberChars n) := by
  cases n with
  | integer n =>
    have hdigits := isNumeral_digitChars n.val.natAbs
    rw [numberChars]
    split
    · exact .cons rfl hdigits.chars
    · exact hdigits
  | float x => exact numberLayout.isNumeral_chars x

namespace Form

/-- A form whose numbers are numerals and whose names are identifiers. -/
inductive Regular : Form → Prop
  | null : Regular .null
  | bool (b : Bool) : Regular (.bool b)
  | number {text : List Char} : IsNumeral text → Regular (.number text)
  | string (s : String) : Regular (.string s)
  | list {fs : List Form} : (∀ f ∈ fs, Regular f) → Regular (.list fs)
  | record {ms : List (String × Form)} : (∀ m ∈ ms, IsIdentifier m.1) →
    (∀ m ∈ ms, Regular m.2) → Regular (.record ms)

theorem ofItems_eq_map (vs : List Value) : ofItems vs = vs.map ofValue := by
  induction vs with
  | nil => rfl
  | cons v vs ih => rw [ofItems, ih, List.map_cons]

theorem ofMembers_eq_map (ms : List (String × Value)) :
    ofMembers ms = ms.map fun m => (m.1, ofValue m.2) := by
  induction ms with
  | nil => rfl
  | cons m ms ih => rw [ofMembers, ih, List.map_cons]

theorem regular_ofValue {v : Value} (h : Named v) : (ofValue v).Regular := by
  induction h with
  | null => exact .null
  | bool b => exact .bool b
  | number n => exact .number (isNumeral_numberChars n)
  | string s => exact .string s
  | array _ ih =>
    rw [ofValue, ofItems_eq_map]
    exact .list (List.forall_mem_map.2 ih)
  | @object ms hnames _ ih =>
    rw [ofValue, ofMembers_eq_map]
    have hpath : IsIdentifier "path" := by decide
    split
    · exact .record (List.forall_mem_singleton.2 hpath) (List.forall_mem_singleton.2 (.string _))
    · exact .record (List.forall_mem_map.2 hnames) (List.forall_mem_map.2 ih)

end Form

theorem regular_forms {props : Members} (h : ∀ m ∈ props, IsIdentifier m.1 ∧ Named m.2) :
    ∀ m ∈ forms props, IsIdentifier m.1 ∧ m.2.Regular := by
  refine List.forall_mem_map.2 fun m hm => ?_
  obtain ⟨hname, hv⟩ := h m (List.mem_of_mem_filter hm)
  exact ⟨hname, Form.regular_ofValue hv⟩

end StreamedUi.Markup
