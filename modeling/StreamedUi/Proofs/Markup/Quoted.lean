import StreamedUi.Markup.Quoted

/-! Quoted strings of markup, read back. The usual reader takes the character after a backslash and
stops at the quote in use; of a quoted string with anything behind it, it gives the string and what
is behind (`scan_quoted`), so no text can break out of its quotes. Nor can it break its line
(`scan_escapeText`). -/

namespace StreamedUi.Markup

/-- The character that a letter after a backslash stands for. -/
def unescape : Char → Char
  | 'n' => '\n'
  | 'r' => '\r'
  | 't' => '\t'
  | c => c

/-- A string from after its opening quote: its characters, and what stands after the closing one. -/
def scanInside (q : Quotes) : List Char → Option (List Char × List Char)
  | [] => none
  | '\\' :: c :: rest => (scanInside q rest).map fun (s, rest) => (unescape c :: s, rest)
  | c :: rest =>
    if c = q.char then some ([], rest)
    else (scanInside q rest).map fun (s, rest) => (c :: s, rest)

/-- A quoted string, and what stands after it. -/
def scan (q : Quotes) : List Char → Option (List Char × List Char)
  | [] => none
  | c :: rest => if c = q.char then scanInside q rest else none

variable {q : Quotes} {c : Char} {s t rest rest' : List Char}

theorem scanInside_plain (hback : c ≠ '\\') (hquote : c ≠ q.char) (rest : List Char) :
    scanInside q (c :: rest) = (scanInside q rest).map fun (s, rest) => (c :: s, rest) := by
  rw [scanInside, if_neg hquote]
  exact fun _ _ h _ => hback h

/-- A character is escaped, or written as it is. -/
theorem escapeChar_cases (q : Quotes) (c : Char) :
    (∃ letter, escapeChar q c = ['\\', letter] ∧ unescape letter = c) ∨
      escapeChar q c = [c] ∧ c ≠ '\\' ∧ c ≠ q.char := by
  unfold escapeChar
  split
  case h_5 hback hn hr ht =>
    split
    case isTrue hquote =>
      refine .inl ⟨c, rfl, ?_⟩
      rw [hquote]
      cases q <;> rfl
    case isFalse hquote => exact .inr ⟨rfl, hback, hquote⟩
  case h_1 => exact .inl ⟨'\\', rfl, rfl⟩
  case h_2 => exact .inl ⟨'n', rfl, rfl⟩
  case h_3 => exact .inl ⟨'r', rfl, rfl⟩
  case h_4 => exact .inl ⟨'t', rfl, rfl⟩

theorem scanInside_escape (q : Quotes) (s rest : List Char) :
    scanInside q (escape q s ++ q.char :: rest) = some (s, rest) := by
  induction s with
  | nil => cases q <;> simp [escape, scanInside, Quotes.char]
  | cons c s ih =>
    rw [escape, List.flatMap_cons, ← escape, List.append_assoc]
    obtain ⟨letter, hescaped, hletter⟩ | ⟨hplain, hback, hquote⟩ := escapeChar_cases q c
    · rw [hescaped, List.cons_append, List.cons_append, List.nil_append, scanInside, ih,
        Option.map_some, hletter]
    · rw [hplain, List.cons_append, List.nil_append, scanInside_plain hback hquote, ih,
        Option.map_some]

theorem scan_quoted (q : Quotes) (s : String) (rest : List Char) :
    scan q (quoted q s ++ rest) = some (s.toList, rest) := by
  rw [quoted, List.cons_append, scan, if_pos rfl, List.append_assoc, List.singleton_append,
    scanInside_escape]

theorem quoted_append_inj {s t : String} (h : quoted q s ++ rest = quoted q t ++ rest') :
    s = t ∧ rest = rest' := by
  have hscan := congrArg (scan q) h
  rw [scan_quoted, scan_quoted, Option.some.injEq, Prod.mk.injEq, String.toList_inj] at hscan
  exact hscan

/-! ## Breaks -/

/-- The characters that are written as letters. -/
def IsBreak (c : Char) : Prop := c = '\n' ∨ c = '\r' ∨ c = '\t'

instance (c : Char) : Decidable (IsBreak c) := inferInstanceAs (Decidable (_ ∨ _))

/-- Only the last rule writes a character as it is, and a break has a rule before that. -/
theorem not_isBreak_of_mem_escapeChar (q : Quotes) (c : Char) :
    ∀ d ∈ escapeChar q c, ¬IsBreak d := by
  have hescaped (letter : Char) (h : ¬IsBreak letter) : ∀ d ∈ ['\\', letter], ¬IsBreak d :=
    List.forall_mem_cons.2 ⟨by decide, List.forall_mem_singleton.2 h⟩
  unfold escapeChar
  split
  case h_5 _ hn hr ht =>
    have hc : ¬IsBreak c := not_or.2 ⟨hn, not_or.2 ⟨hr, ht⟩⟩
    split
    case isTrue => exact hescaped c hc
    case isFalse => exact List.forall_mem_singleton.2 hc
  all_goals exact hescaped _ (by decide)

theorem not_isBreak_of_mem_escape (h : c ∈ escape q s) : ¬IsBreak c := by
  obtain ⟨d, -, hc⟩ := List.mem_flatMap.1 h
  exact not_isBreak_of_mem_escapeChar q d c hc

/-- Whatever follows, the reader gives the string and leaves what follows, and what it reads stands
on one line without tabs. -/
theorem scan_escapeText (q : Quotes) (s rest : String) :
    scan q (String.singleton q.char ++ escapeText q s ++ String.singleton q.char ++ rest).toList =
        some (s.toList, rest.toList) ∧
      '\n' ∉ (escapeText q s).toList ∧ '\r' ∉ (escapeText q s).toList ∧
      '\t' ∉ (escapeText q s).toList := by
  have htext : (escapeText q s).toList = escape q s.toList := String.toList_ofList
  have hquoted : (String.singleton q.char ++ escapeText q s ++ String.singleton q.char ++
      rest).toList = quoted q s ++ rest.toList := by
    simp [htext, quoted]
  rw [hquoted, htext]
  exact ⟨scan_quoted q s rest.toList, fun h => not_isBreak_of_mem_escape h (.inl rfl),
    fun h => not_isBreak_of_mem_escape h (.inr (.inl rfl)),
    fun h => not_isBreak_of_mem_escape h (.inr (.inr rfl))⟩

end StreamedUi.Markup
