import StreamedUi.Json.Writer
import StreamedUi.Proofs.Json.Reader

/-! Strings as JSON text. A character is written as itself, as a short escape, or as one code unit;
`pieces` is what the text of a string is read as (`run_stringChars`, `run_nameChars`), and it means
the string again (`text?_pieces`). -/

namespace StreamedUi.Json

/-- What a character is written as. Only controls without a short escape become code units. -/
def charPiece (c : Char) : Piece :=
  if c < ' ' ∧ c ∉ ['\x08', '\x0c', '\n', '\r', '\t'] then .unit c.toNat else .char c

/-- What the quoted text of a string is read as. -/
def pieces (s : String) : List Piece := s.toList.map charPiece

/-! ## The string of the pieces -/

theorem toNat_lt_of_lt_space {c : Char} (h : c < ' ') : c.toNat < 32 := h

/-- A code unit below the surrogates stands for itself. -/
theorem chars?_unit {n : Nat} (hn : n < 0xD800) (rest : List Piece) :
    Piece.chars? (.unit n :: rest) = (Piece.chars? rest).map (Char.ofNat n :: ·) := by
  have hhigh : Piece.isHigh n = false := by
    simp only [Piece.isHigh, Bool.and_eq_false_iff, decide_eq_false_iff_not]
    omega
  have hlow : Piece.isLow n = false := by
    simp only [Piece.isLow, Bool.and_eq_false_iff, decide_eq_false_iff_not]
    omega
  rcases rest with _ | ⟨_ | _, rest⟩ <;> simp [Piece.chars?, hhigh, hlow]

theorem chars?_charPiece (c : Char) (rest : List Piece) :
    Piece.chars? (charPiece c :: rest) = (Piece.chars? rest).map (c :: ·) := by
  unfold charPiece
  split
  next h =>
    have hlt := toNat_lt_of_lt_space h.1
    rw [chars?_unit (by omega), Char.ofNat_toNat]
  next => rfl

theorem text?_pieces (s : String) : Piece.text? (pieces s) = some s := by
  have hchars (cs : List Char) : Piece.chars? (cs.map charPiece) = some cs := by
    induction cs with
    | nil => rfl
    | cons c cs ih => rw [List.map_cons, chars?_charPiece, ih, Option.map_some]
  rw [Piece.text?, pieces, hchars, Option.map_some, String.ofList_toList]

/-! ## Reading the text of a string -/

namespace StringReader

/-- Characters that do not close the string. -/
def run (r : StringReader) : List Char → Option StringReader
  | [] => some r
  | c :: cs =>
    match r.step c with
    | some (.more r) => r.run cs
    | _ => none

theorem run_append (r : StringReader) (cs ds : List Char) :
    r.run (cs ++ ds) = (r.run cs).bind (run · ds) := by
  induction cs generalizing r with
  | nil => rfl
  | cons c cs ih =>
    rw [List.cons_append, run, run]
    split
    · exact ih _
    · rfl

theorem hexValue?_hexDigit : ∀ n < 16, hexValue? (hexDigit n) = some n := by decide

/-- Four digits after `\u`, the first two of them zeros. -/
theorem run_hex (ps : List Piece) {n : Nat} (hn : n < 256) :
    run ⟨ps, .none⟩ ['\\', 'u', '0', '0', hexDigit (n / 16), hexDigit (n % 16)] =
      some ⟨.unit n :: ps, .none⟩ := by
  have hhigh : step ⟨ps, .hex 2 0⟩ (hexDigit (n / 16)) = some (.more ⟨ps, .hex 3 (n / 16)⟩) := by
    simp [step, hexValue?_hexDigit (n / 16) (by omega)]
  have hlow : step ⟨ps, .hex 3 (n / 16)⟩ (hexDigit (n % 16)) =
      some (.more ⟨.unit n :: ps, .none⟩) := by
    simp [step, hexValue?_hexDigit (n % 16) (by omega), add, Nat.div_add_mod]
  show run ⟨ps, .hex 2 0⟩ [hexDigit (n / 16), hexDigit (n % 16)] = _
  rw [run, hhigh]
  show run ⟨ps, .hex 3 (n / 16)⟩ [hexDigit (n % 16)] = _
  rw [run, hlow]
  rfl

theorem run_escapeChar (ps : List Piece) (c : Char) :
    run ⟨ps, .none⟩ (escapeChar c) = some ⟨charPiece c :: ps, .none⟩ := by
  unfold escapeChar
  split
  case h_8 _ hquote hback hb hf hn hr ht =>
    have hshort : c ∉ ['\x08', '\x0c', '\n', '\r', '\t'] := by
      simp only [List.mem_cons, List.not_mem_nil, or_false, not_or]
      exact ⟨hb, hf, hn, hr, ht⟩
    by_cases hc : c < ' '
    · rw [if_pos hc, charPiece, if_pos ⟨hc, hshort⟩]
      have hlt := toNat_lt_of_lt_space hc
      exact run_hex ps (by omega)
    · have hstep : step ⟨ps, .none⟩ c = some (add ⟨ps, .none⟩ (.char c)) :=
        (if_neg hquote).trans ((if_neg hback).trans (if_neg hc))
      rw [if_neg hc, charPiece, if_neg fun h => hc h.1, run, hstep]
      rfl
  all_goals rfl

theorem run_escapeChars (ps : List Piece) (cs : List Char) :
    run ⟨ps, .none⟩ (cs.flatMap escapeChar) = some ⟨(cs.map charPiece).reverse ++ ps, .none⟩ := by
  induction cs generalizing ps with
  | nil => rfl
  | cons c cs ih =>
    rw [List.flatMap_cons, run_append, run_escapeChar, Option.bind_some, ih, List.map_cons,
      List.reverse_cons, List.append_assoc]
    rfl

end StringReader

namespace Reader

variable {r : Reader} {frames : List Frame} {mode : StringReader → Mode}
  {close : List Piece → Reader}

/-- Where a string stands: how the reader goes on inside of it and where it is after the closing
quotation mark. -/
structure Quotes (frames : List Frame) (mode : StringReader → Mode) (close : List Piece → Reader) :
    Prop where
  more {s s' : StringReader} {c : Char} : s.step c = some (.more s') →
    (⟨frames, mode s⟩ : Reader).step c = some ⟨frames, mode s'⟩
  closed {s : StringReader} {ps : List Piece} {c : Char} : s.step c = some (.closed ps) →
    (⟨frames, mode s⟩ : Reader).step c = some (close ps)

theorem quotes_inString (frames : List Frame) :
    Quotes frames .inString fun ps => settle frames (.string ps) where
  more h := by simp [step, stepOutside, h]
  closed h := by simp [step, stepOutside, h]

theorem quotes_inName (frames : List Frame) (ms : List (List Piece × Raw)) :
    Quotes frames (.inName ms) fun ps => ⟨frames, .colon ms ps⟩ where
  more h := by simp [step, stepOutside, h]
  closed h := by simp [step, stepOutside, h]

theorem Quotes.run (hquotes : Quotes frames mode close) {s s' : StringReader} {cs : List Char}
    (h : s.run cs = some s') :
    (⟨frames, mode s⟩ : Reader).run cs = some ⟨frames, mode s'⟩ := by
  induction cs generalizing s with
  | nil =>
    cases h
    rfl
  | cons c cs ih =>
    rw [StringReader.run] at h
    split at h
    next r hr => rw [run_cons, hquotes.more hr, Option.bind_some, ih h]
    next => cases h

theorem Quotes.run_stringChars (hquotes : Quotes frames mode close)
    (hopen : r.step '"' = some ⟨frames, mode {}⟩) (s : String) :
    r.run (stringChars s) = some (close (pieces s)) := by
  have hclose : StringReader.step ⟨(s.toList.map charPiece).reverse ++ [], .none⟩ '"' =
      some (.closed (pieces s)) := by
    rw [List.append_nil]
    show some (StringStep.closed (s.toList.map charPiece).reverse.reverse) = _
    rw [List.reverse_reverse, pieces]
  rw [stringChars, run_cons, hopen, Option.bind_some, run_append,
    hquotes.run (StringReader.run_escapeChars [] s.toList), Option.bind_some, run_cons,
    hquotes.closed hclose]
  rfl

/-- A string in the place of a value. -/
theorem run_stringChars (frames : List Frame) (s : String) :
    (⟨frames, .value⟩ : Reader).run (stringChars s) =
      some (settle frames (.string (pieces s))) :=
  (quotes_inString frames).run_stringChars rfl s

/-- A string in the place of a name, after other members or as the first of an object. -/
theorem run_nameChars {mode : Mode} {ms : List (List Piece × Raw)}
    (hmode : mode = .name ms ∨ mode = .firstName ∧ ms = []) (frames : List Frame) (s : String) :
    (⟨frames, mode⟩ : Reader).run (stringChars s) = some ⟨frames, .colon ms (pieces s)⟩ := by
  have hopen : (⟨frames, mode⟩ : Reader).step '"' = some ⟨frames, .inName ms {}⟩ := by
    rcases hmode with rfl | ⟨rfl, rfl⟩ <;> rfl
  exact (quotes_inName frames ms).run_stringChars hopen s

end Reader

end StreamedUi.Json
