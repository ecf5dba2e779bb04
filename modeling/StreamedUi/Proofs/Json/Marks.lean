import Mathlib.Data.List.Infix
import StreamedUi.Proofs.Json.Written
import StreamedUi.Proofs.Numeric.Layout

/-! Marks in JSON text. A mark is made of characters that JSON writes only inside of strings, and
there as themselves, so it occurs in the text of a value exactly if it occurs in one of the strings
of the value (`IsMark.infix_chars_iff`). -/

namespace StreamedUi.Json
open Numeric

/-- A character that is written as itself inside of strings and is not used outside of them. -/
def isMarkChar (c : Char) : Bool := c.isUpper || c == '<' || c == '>' || c == '_'

/-- A text that can be told apart from JSON around it. -/
structure IsMark (m : List Char) : Prop where
  ne_nil : m ≠ []
  chars : ∀ c ∈ m, isMarkChar c = true

instance (m : List Char) : Decidable (IsMark m) :=
  decidable_of_iff (m ≠ [] ∧ m.all isMarkChar = true)
    (by
      rw [List.all_eq_true]
      exact ⟨fun h => ⟨h.1, h.2⟩, fun h => ⟨h.ne_nil, h.chars⟩⟩)

/-- No character of the text can be in a mark. -/
def Unmarked (cs : List Char) : Prop := ∀ c ∈ cs, isMarkChar c = false

instance (cs : List Char) : Decidable (Unmarked cs) := List.decidableBAll _ cs

/-! ## Characters -/

theorem le_toNat_of_isMarkChar {c : Char} (h : isMarkChar c = true) : 60 ≤ c.toNat := by
  simp only [isMarkChar, Bool.or_eq_true, beq_iff_eq] at h
  rcases h with ((h | rfl) | rfl) | rfl
  · have hle : 65 ≤ c.toNat := (of_decide_eq_true h).1
    omega
  all_goals decide

theorem isMarkChar_of_isNumeralChar {c : Char} (h : isNumeralChar c = true) :
    isMarkChar c = false := by
  simp only [isNumeralChar, Bool.or_eq_true, beq_iff_eq] at h
  rcases h with (((h | rfl) | rfl) | rfl) | rfl
  · simp only [Char.isDigit, Bool.and_eq_true, decide_eq_true_eq] at h
    have hle : c.toNat ≤ 57 := h.2
    refine Bool.eq_false_iff.2 fun hmark => ?_
    have := le_toNat_of_isMarkChar hmark
    omega
  all_goals rfl

theorem unmarked_of_isSpace {cs : List Char} (h : ∀ c ∈ cs, isSpace c = true) : Unmarked cs := by
  intro c hc
  rcases eq_of_isSpace (h c hc) with rfl | rfl | rfl | rfl <;> rfl

theorem unmarked_numberChars (n : Number) : Unmarked n.chars := by
  suffices h : ∀ c ∈ n.chars, isNumeralChar c = true from
    fun c hc => isMarkChar_of_isNumeralChar (h c hc)
  cases n with
  | integer n =>
    have hdigits := isNumeral_digitChars n.val.natAbs
    rw [Number.chars, intChars]
    split
    · exact List.forall_mem_cons.2 ⟨rfl, hdigits.chars⟩
    · exact hdigits.chars
  | float x => exact (floatLayout.isNumeral_chars x).chars

theorem escapeChar_of_isMarkChar {c : Char} (h : isMarkChar c = true) : escapeChar c = [c] := by
  unfold escapeChar
  split
  case h_8 =>
    refine if_neg fun hc => ?_
    have := toNat_lt_of_lt_space hc
    have := le_toNat_of_isMarkChar h
    omega
  all_goals cases h

theorem escapeChar_ne_nil (c : Char) : escapeChar c ≠ [] := by
  unfold escapeChar
  split
  case h_8 => split <;> exact List.cons_ne_nil _ _
  all_goals exact List.cons_ne_nil _ _

theorem isMarkChar_hexDigit : ∀ n < 16, isMarkChar (hexDigit n) = false := by decide

theorem unmarked_escapeChar {c : Char} (h : isMarkChar c = false) : Unmarked (escapeChar c) := by
  unfold escapeChar
  split
  case h_8 =>
    split
    · next hc =>
      have hlt := toNat_lt_of_lt_space hc
      have hhigh := isMarkChar_hexDigit (c.toNat / 16) (by omega)
      have hlow := isMarkChar_hexDigit (c.toNat % 16) (by omega)
      intro d hd
      simp only [List.mem_cons, List.not_mem_nil, or_false] at hd
      rcases hd with rfl | rfl | rfl | rfl | rfl | rfl
      · rfl
      · rfl
      · rfl
      · rfl
      · exact hhigh
      · exact hlow
    · exact List.forall_mem_singleton.2 h
  all_goals exact List.forall_mem_cons.2 ⟨rfl, List.forall_mem_singleton.2 rfl⟩

namespace IsMark

variable {m cs rest : List Char} {c : Char}

/-! ## Where a mark can be -/

theorem prefix_cut (h : ∀ c ∈ m, isMarkChar c = true) (hc : isMarkChar c = false) :
    m <+: cs ++ c :: rest ↔ m <+: cs := by
  induction cs generalizing m with
  | nil =>
    cases m with
    | nil => simp
    | cons d m =>
      have hd : d ≠ c := fun heq => by simp [heq, hc] at h
      simp [List.cons_prefix_cons, hd]
  | cons e cs ih =>
    cases m with
    | nil => simp
    | cons d m =>
      rw [List.cons_append, List.cons_prefix_cons, List.cons_prefix_cons,
        ih (List.forall_mem_cons.1 h).2]

theorem not_isPrefix (h : IsMark m) (hc : isMarkChar c = false) : ¬m <+: c :: rest := by
  rw [← List.nil_append (c :: rest), prefix_cut h.chars hc, List.prefix_nil]
  exact h.ne_nil

theorem not_infix_nil (h : IsMark m) : ¬m <:+: [] := fun hnil => h.ne_nil (List.infix_nil.1 hnil)

theorem infix_skip (h : IsMark m) (hcs : Unmarked cs) : m <:+: cs ++ rest ↔ m <:+: rest := by
  induction cs with
  | nil => rfl
  | cons c cs ih =>
    obtain ⟨hc, hcs⟩ := List.forall_mem_cons.1 hcs
    rw [List.cons_append, List.infix_cons_iff, ih hcs]
    exact or_iff_right (h.not_isPrefix hc)

theorem infix_cons (h : IsMark m) (hc : isMarkChar c = false) :
    m <:+: c :: rest ↔ m <:+: rest := h.infix_skip (List.forall_mem_singleton.2 hc)

theorem infix_cut (h : IsMark m) (hc : isMarkChar c = false) :
    m <:+: cs ++ c :: rest ↔ m <:+: cs ∨ m <:+: rest := by
  induction cs with
  | nil =>
    rw [List.nil_append, h.infix_cons hc, or_iff_right h.not_infix_nil]
  | cons d cs ih =>
    have hprefix : m <+: d :: (cs ++ c :: rest) ↔ m <+: d :: cs := by
      rw [← List.cons_append, prefix_cut h.chars hc]
    rw [List.cons_append, List.infix_cons_iff, List.infix_cons_iff, hprefix, ih, or_assoc]

/-! ## Strings -/

theorem infix_append_escaped (h : IsMark m) (before : List Char) :
    m <:+: before ++ cs.flatMap escapeChar ↔ m <:+: before ++ cs := by
  induction cs generalizing before with
  | nil => rfl
  | cons c cs ih =>
    rw [List.flatMap_cons]
    cases hc : isMarkChar c with
    | true =>
      rw [escapeChar_of_isMarkChar hc, ← List.append_assoc, ih, List.append_assoc]
      rfl
    | false =>
      have hescape := unmarked_escapeChar hc
      obtain ⟨d, ds, hds⟩ := List.exists_cons_of_ne_nil (escapeChar_ne_nil c)
      rw [hds] at hescape ⊢
      obtain ⟨hd, hds⟩ := List.forall_mem_cons.1 hescape
      rw [List.cons_append, h.infix_cut hd, h.infix_skip hds, h.infix_cut hc]
      exact or_congr_right (ih [])

theorem infix_stringChars (h : IsMark m) (s : String) :
    m <:+: stringChars s ++ rest ↔ m <:+: s.toList ∨ m <:+: rest := by
  have hescaped : m <:+: s.toList.flatMap escapeChar ↔ m <:+: s.toList := h.infix_append_escaped []
  rw [stringChars, List.cons_append, List.append_assoc, h.infix_cons rfl, List.singleton_append,
    h.infix_cut rfl, hescaped]

end IsMark

/-! ## Values -/

namespace Value

mutual
/-- All strings inside the value, names of members included. -/
def texts : Value → List String
  | .null | .bool _ | .number _ => []
  | .string s => [s]
  | .array items => itemTexts items
  | .object ms => memberTexts ms

def itemTexts : List Value → List String
  | [] => []
  | v :: vs => v.texts ++ itemTexts vs

def memberTexts : List (String × Value) → List String
  | [] => []
  | (name, v) :: ms => name :: (v.texts ++ memberTexts ms)
end

end Value

/-- The mark occurs in one of the texts. -/
def Occurs (m : List Char) (texts : List String) : Prop := ∃ s ∈ texts, m <:+: s.toList

section Occurs

variable {m : List Char} {s : String} {texts texts' : List String}

theorem occurs_append : Occurs m (texts ++ texts') ↔ Occurs m texts ∨ Occurs m texts' := by
  simp [Occurs, or_and_right, exists_or]

theorem occurs_cons : Occurs m (s :: texts) ↔ m <:+: s.toList ∨ Occurs m texts := by
  simp [Occurs]

theorem not_occurs_nil : ¬Occurs m [] := by simp [Occurs]

end Occurs

namespace IsMark

variable {m : List Char} {sp : Spacing}

/-- The name of a member, up to its value. -/
theorem infix_member (h : IsMark m) (hsp : sp.Blank) (depth : Nat) (name : String)
    (cs : List Char) :
    m <:+: sp.lineBreak depth ++ (stringChars name ++ ':' :: (sp.afterColon ++ cs)) ↔
      m <:+: name.toList ∨ m <:+: cs := by
  rw [h.infix_skip (unmarked_of_isSpace (hsp.lineBreak depth)), h.infix_stringChars,
    h.infix_cons rfl, h.infix_skip (unmarked_of_isSpace hsp.afterColon)]

-- By induction on the value. What stands after it comes along, so that each part of an array or
-- object can be taken off the front.
mutual
theorem infix_chars_append (h : IsMark m) (hsp : sp.Blank) (depth : Nat) (rest : List Char) :
    ∀ v : Value, m <:+: v.chars sp depth ++ rest ↔ Occurs m v.texts ∨ m <:+: rest
  | .null | .bool true | .bool false => by
    rw [Value.chars, h.infix_skip (by decide), Value.texts, or_iff_right not_occurs_nil]
  | .number n => by
    rw [Value.chars, h.infix_skip (unmarked_numberChars n), Value.texts,
      or_iff_right not_occurs_nil]
  | .string s => by
    rw [Value.chars, h.infix_stringChars, Value.texts, occurs_cons, or_iff_left not_occurs_nil]
  | .array [] => by
    rw [Value.chars, h.infix_skip (by decide), Value.texts, Value.itemTexts,
      or_iff_right not_occurs_nil]
  | .array (v :: vs) => by
    rw [Value.chars, List.cons_append, h.infix_cons rfl, List.append_assoc, List.append_assoc,
      h.infix_skip (unmarked_of_isSpace (hsp.lineBreak _)), infix_chars_append h hsp _ _ v,
      infix_itemChars_append h hsp depth rest vs, Value.texts, Value.itemTexts, occurs_append,
      or_assoc]
  | .object [] => by
    rw [Value.chars, h.infix_skip (by decide), Value.texts, Value.memberTexts,
      or_iff_right not_occurs_nil]
  | .object ((name, v) :: ms) => by
    simp only [Value.chars, List.cons_append, List.append_assoc]
    rw [h.infix_cons rfl, h.infix_member hsp, infix_chars_append h hsp _ _ v,
      infix_memberChars_append h hsp depth rest ms, Value.texts, Value.memberTexts, occurs_cons,
      occurs_append, or_assoc, or_assoc]

theorem infix_itemChars_append (h : IsMark m) (hsp : sp.Blank) (depth : Nat) (rest : List Char) :
    ∀ vs : List Value,
      m <:+: Value.itemChars sp depth vs ++ rest ↔ Occurs m (Value.itemTexts vs) ∨ m <:+: rest
  | [] => by
    rw [Value.itemChars, List.append_assoc, h.infix_skip (unmarked_of_isSpace (hsp.lineBreak _)),
      h.infix_skip (by decide), Value.itemTexts, or_iff_right not_occurs_nil]
  | v :: vs => by
    rw [Value.itemChars, List.cons_append, h.infix_cons rfl, List.append_assoc, List.append_assoc,
      h.infix_skip (unmarked_of_isSpace (hsp.lineBreak _)), infix_chars_append h hsp _ _ v,
      infix_itemChars_append h hsp depth rest vs, Value.itemTexts, occurs_append, or_assoc]

theorem infix_memberChars_append (h : IsMark m) (hsp : sp.Blank) (depth : Nat)
    (rest : List Char) :
    ∀ ms : List (String × Value),
      m <:+: Value.memberChars sp depth ms ++ rest ↔ Occurs m (Value.memberTexts ms) ∨ m <:+: rest
  | [] => by
    rw [Value.memberChars, List.append_assoc, h.infix_skip (unmarked_of_isSpace (hsp.lineBreak _)),
      h.infix_skip (by decide), Value.memberTexts, or_iff_right not_occurs_nil]
  | (name, v) :: ms => by
    simp only [Value.memberChars, List.cons_append, List.append_assoc]
    rw [h.infix_cons rfl, h.infix_member hsp, infix_chars_append h hsp _ _ v,
      infix_memberChars_append h hsp depth rest ms, Value.memberTexts, occurs_cons, occurs_append,
      or_assoc, or_assoc]
end

/-- However a value is spaced, its text has the mark exactly if one of its strings has it. -/
theorem infix_chars_iff (h : IsMark m) (hsp : sp.Blank) (depth : Nat) (v : Value) :
    m <:+: v.chars sp depth ↔ Occurs m v.texts := by
  rw [← List.append_nil (v.chars sp depth), h.infix_chars_append hsp,
    or_iff_left h.not_infix_nil]

end IsMark

end StreamedUi.Json
