import StreamedUi.Patch.Stream
import StreamedUi.Proofs.Json.Reader
import StreamedUi.Proofs.Patch.Apply
import StreamedUi.Proofs.Text.Placed

/-! Patches that are cut off. No record has a record as its proper beginning
(`Operation.ofLine?_beginning`), so of a text of records that ends too early just those are
applied that have come in full, and one line at most is passed over (`Tree.applyText_take`). -/

namespace StreamedUi

open Json

namespace Operation

variable {line : String} {op : Operation} {front : List Char}

/-- Only what is left after trimming counts. -/
theorem ofLine?_congr {line' : String}
    (h : Text.trimChars line.toList = Text.trimChars line'.toList) :
    ofLine? line = ofLine? line' := by
  rw [ofLine?, ofLine?, parse, parse, Record.ofLine?, Record.ofLine?, h]

theorem ofLine?_ofList (cs : List Char) :
    ofLine? (String.ofList cs) = ofLine? (String.ofList (Text.trimChars cs)) := by
  apply ofLine?_congr
  rw [String.toList_ofList, String.toList_ofList, Text.trimChars_trimChars]

/-- What an operation is read from is no number. -/
theorem read?_of_ofLine? (h : ofLine? line = some op) :
    ∃ r, Raw.read? (Text.trimChars line.toList) = some r ∧ ∀ n, r ≠ .numeral n := by
  obtain ⟨r, record, hr, hrecord, -⟩ := exists_record h
  refine ⟨r, hr, ?_⟩
  rintro n rfl
  simp [Record.ofRaw?, Raw.fields?] at hrecord

theorem isBlank_of_isSpace {c : Char} (h : isSpace c = true) : Text.isBlank c = true := by
  rcases eq_of_isSpace h with rfl | rfl | rfl | rfl <;> decide

/-- Beginnings of a record are no records. -/
theorem ofLine?_beginning (h : (ofLine? line).isSome)
    (hfront : front <+: Text.trimChars line.toList) (hne : front ≠ Text.trimChars line.toList) :
    ofLine? (String.ofList front) = none := by
  rw [Option.eq_none_iff_forall_ne_some]
  intro op' h'
  obtain ⟨op, hop⟩ := Option.isSome_iff_exists.1 h
  obtain ⟨r, hr, -⟩ := read?_of_ofLine? hop
  obtain ⟨r', hr', hnumeral⟩ := read?_of_ofLine? h'
  rw [String.toList_ofList] at hr'
  have hprefix := Text.trimChars_isPrefix hfront
  obtain ⟨rest, hrest⟩ := hprefix.trans hfront
  rw [← hrest] at hr
  rcases Raw.read?_append hr hr' with ⟨n, rfl⟩ | hspace
  · exact hnumeral n rfl
  -- the record ends in a character that is no white space, so nothing is cut off
  rcases List.eq_nil_or_concat' rest with rfl | ⟨rest, c, rfl⟩
  · rw [List.append_nil] at hrest
    exact hne (hfront.eq_of_length_le (hrest ▸ hprefix.length_le))
  · rw [← List.append_assoc] at hrest
    have hc := Text.isBlank_of_trimChars_eq_concat hrest.symm
    rw [isBlank_of_isSpace (hspace c (List.mem_append_right rest List.mem_cons_self))] at hc
    cases hc

/-! ## A record that is cut off -/

/-- The beginning of a line is a record only if it reaches the end of the line's record, and then it
is the same one. -/
theorem ofLine?_cut (start : Nat) {cs ending : List Char} (hending : Text.Blank ending)
    (hline : Text.isBlankText (String.ofList cs) = false → (ofLine? (String.ofList cs)).isSome)
    (hfront : front <+: cs ++ ending) :
    (start + front.length < Text.PlacedLine.recordEnd ⟨start, cs⟩ ∧
        ofLine? (String.ofList front) = none) ∨
      (Text.PlacedLine.recordEnd ⟨start, cs⟩ ≤ start + front.length ∧
        ofLine? (String.ofList front) = ofLine? (String.ofList cs)) := by
  obtain ⟨tail, htail, hcs⟩ := Text.eq_append_trimChars cs
  have hindent := Text.blank_takeWhile cs
  simp only [Text.PlacedLine.recordEnd, Nat.add_le_add_iff_left, Nat.add_lt_add_iff_left]
  generalize cs.takeWhile Text.isBlank = indent at hcs hindent ⊢
  generalize hrecord : Text.trimChars cs = record at hcs ⊢
  rw [hcs, List.append_assoc, List.append_assoc] at hfront
  rcases Nat.lt_or_ge front.length (indent.length + record.length) with hlt | hge
  · refine .inl ⟨hlt, ?_⟩
    rcases Nat.lt_or_ge front.length indent.length with hlt' | hge'
    · -- only white space has come
      have hblank : front <+: indent :=
        List.prefix_of_prefix_length_le hfront (List.prefix_append _ _) hlt'.le
      exact ofLine?_eq_none_of_blank (by
        rw [String.toList_ofList]
        exact hindent.mono hblank)
    · obtain ⟨part, rfl⟩ : indent <+: front :=
        List.prefix_of_prefix_length_le (List.prefix_append _ _) hfront hge'
      have hpart : part <+: record := by
        refine List.prefix_of_prefix_length_le ((List.prefix_append_right_inj indent).1 hfront)
          (List.prefix_append _ _) ?_
        rw [List.length_append] at hlt
        omega
      have hne : part ≠ record := by
        rintro rfl
        simp at hlt
      have hsome : (ofLine? (String.ofList cs)).isSome := hline (by
        rw [← Bool.not_eq_true, Text.isBlankText_iff, String.toList_ofList]
        intro hblank
        rw [Text.trimChars_eq_nil hblank] at hrecord
        rw [← hrecord] at hpart hne
        exact hne (List.prefix_nil.1 hpart))
      have htrim : Text.trimChars (String.ofList cs).toList = record := by
        rw [String.toList_ofList, hrecord]
      rw [← ofLine?_beginning hsome (htrim ▸ hpart) (htrim ▸ hne)]
      apply ofLine?_congr
      rw [String.toList_ofList, String.toList_ofList, Text.trimChars_blank_append hindent]
  · refine .inr ⟨hge, ofLine?_congr ?_⟩
    rw [← List.append_assoc] at hfront
    obtain ⟨extra, rfl⟩ : indent ++ record <+: front :=
      List.prefix_of_prefix_length_le (List.prefix_append _ _) hfront (by
        rw [List.length_append]
        exact hge)
    have hover : Text.Blank extra :=
      (htail.append hending).mono ((List.prefix_append_right_inj _).1 hfront)
    rw [String.toList_ofList, String.toList_ofList, hrecord, List.append_assoc,
      Text.trimChars_blank_append hindent, Text.trimChars_append_blank hover, ← hrecord,
      Text.trimChars_trimChars]

end Operation

namespace Tree

theorem applyLines_of_accepted (t : Tree) (lines : List String)
    (h : ∀ line ∈ lines, Text.isBlankText line = false → (Operation.ofLine? line).isSome) :
    (t.applyLines lines).1 = t.applyAll (lines.filterMap Operation.ofLine?) ∧
      (t.applyLines lines).2.skipped = 0 := by
  rw [applyLines_eq]
  refine ⟨rfl, List.countP_eq_zero.2 fun line hline hrejected => ?_⟩
  rw [Bool.and_eq_true, Bool.not_eq_true', Option.isNone_iff_eq_none] at hrejected
  obtain ⟨hblank, hnone⟩ := hrejected
  have hsome := h line hline hblank
  rw [hnone] at hsome
  cases hsome

/-- A line that is still open, whatever it is. -/
theorem applyLines_open (t : Tree) {cs : List Char} (h : '\n' ∉ cs) :
    (t.applyLines ((Text.lineChars cs).map String.ofList)).1 =
        t.applyAll (Operation.ofLine? (String.ofList cs)).toList ∧
      (t.applyLines ((Text.lineChars cs).map String.ofList)).2.skipped ≤ 1 := by
  by_cases hne : cs = []
  · subst hne
    rw [Operation.ofLine?_eq_none_of_blank fun c hc => absurd hc List.not_mem_nil]
    exact ⟨rfl, Nat.zero_le 1⟩
  rw [Text.lineChars_of_newline_notMem h hne, List.map_singleton, applyLines_eq,
    List.filterMap_cons, List.filterMap_nil]
  refine ⟨?_, List.countP_le_length⟩
  cases Operation.ofLine? (String.ofList cs) <;> rfl

/-- The line in which a text is cut off is kept if it is still a record. -/
theorem filterMap_open {start : Nat} {cs : List Char} (hcs : '\n' ∉ cs) (ds : List Char)
    (h : ∀ l ∈ Text.placedLinesFrom start (cs ++ ds), Text.isBlankText l.text = false →
      (Operation.ofLine? l.text).isSome) :
    ((Text.placedLinesFrom start (cs ++ ds)).filter (·.recordEnd ≤ start + cs.length)).filterMap
        (Operation.ofLine? ·.text) =
      (Operation.ofLine? (String.ofList cs)).toList := by
  by_cases hne : cs = []
  · subst hne
    rw [Operation.ofLine?_eq_none_of_blank fun c hc => absurd hc List.not_mem_nil]
    refine List.filterMap_eq_nil_iff.2 fun l hl => ?_
    obtain ⟨hl, hend⟩ := List.mem_filter.1 hl
    obtain ⟨before, -, -, hstart⟩ := Text.exists_append_of_mem hl
    have hnil : Text.trimChars l.line = [] := by
      rw [← List.length_eq_zero_iff]
      have hend := of_decide_eq_true hend
      rw [Text.PlacedLine.recordEnd, List.length_nil] at hend
      omega
    rw [Text.PlacedLine.text, Operation.ofLine?_ofList, hnil]
    rfl
  obtain ⟨line, rest, heq, hline, hrest⟩ := Text.placedLinesFrom_open start hcs hne ds
  have hlater : rest.filter (·.recordEnd ≤ start + cs.length) = [] := by
    refine List.filter_eq_nil_iff.2 fun l hl => ?_
    intro hend
    have hstart := hrest l hl
    have hend := of_decide_eq_true hend
    rw [Text.PlacedLine.recordEnd] at hend
    omega
  have hending : ∃ ending, Text.Blank ending ∧ cs <+: line ++ ending := by
    rcases hline with hline | rfl
    · exact ⟨[], fun c hc => absurd hc List.not_mem_nil, by simpa using hline⟩
    · exact ⟨['\r'], by simp [Text.Blank, Text.isBlank], List.prefix_refl _⟩
  obtain ⟨ending, hblank, hfront⟩ := hending
  rw [heq] at h ⊢
  rcases Operation.ofLine?_cut start hblank (h _ List.mem_cons_self) hfront with
    ⟨hlt, hnone⟩ | ⟨hle, hsame⟩
  · rw [List.filter_cons_of_neg (by simpa using hlt), hlater, hnone]
    rfl
  · rw [List.filter_cons_of_pos (by simpa using hle), hlater, hsame, List.filterMap_cons,
      Text.PlacedLine.text]
    cases Operation.ofLine? (String.ofList line) <;> rfl

/-- Of a text that is cut off in the line after `done`, all records are applied that end before. -/
theorem applyText_cut (t : Tree) {done cs : List Char} (hdone : Text.EndsLine done)
    (hcs : '\n' ∉ cs) (ds : List Char)
    (h : ∀ l ∈ Text.placedLinesFrom 0 (done ++ (cs ++ ds)), Text.isBlankText l.text = false →
      (Operation.ofLine? l.text).isSome) :
    (t.applyText (String.ofList (done ++ cs))).1 =
        t.applyAll (((Text.placedLinesFrom 0 (done ++ (cs ++ ds))).filter
          (·.recordEnd ≤ (done ++ cs).length)).filterMap (Operation.ofLine? ·.text)) ∧
      (t.applyText (String.ofList (done ++ cs))).2.skipped ≤ 1 := by
  rw [Text.placedLinesFrom_append hdone, Nat.zero_add] at h ⊢
  have hall : (Text.placedLinesFrom 0 done).filter (·.recordEnd ≤ (done ++ cs).length) =
      Text.placedLinesFrom 0 done := by
    refine List.filter_eq_self.2 fun l hl => decide_eq_true ?_
    have := Text.recordEnd_le_of_mem hl
    rw [List.length_append]
    omega
  have hlines : (Text.placedLinesFrom 0 done).filterMap (Operation.ofLine? ·.text) =
      ((Text.lineChars done).map String.ofList).filterMap Operation.ofLine? := by
    rw [← Text.map_line_placedLinesFrom 0, List.filterMap_map, List.filterMap_map]
    rfl
  rw [List.filter_append, List.filterMap_append, hall, hlines, List.length_append,
    filterMap_open hcs ds fun l hl => h l (List.mem_append_right _ hl), applyAll,
    List.foldl_append, applyText, Text.lines, String.toList_ofList, Text.lineChars_append hdone,
    List.map_append, applyLines_append]
  have haccepted := t.applyLines_of_accepted ((Text.lineChars done).map String.ofList)
    fun line hline => by
      rw [← Text.map_line_placedLinesFrom 0, List.map_map] at hline
      obtain ⟨l, hl, rfl⟩ := List.mem_map.1 hline
      exact h l (List.mem_append_left _ hl)
  have hopen := (t.applyLines ((Text.lineChars done).map String.ofList)).1.applyLines_open hcs
  refine ⟨?_, ?_⟩
  · rw [hopen.1, haccepted.1]
    rfl
  · have hskipped := haccepted.2
    show _ + _ ≤ 1
    rw [hskipped, Nat.zero_add]
    exact hopen.2

/-- What is applied of a text that is cut off at position `n` are the records that end there or
before, and at most one line is passed over. -/
theorem applyText_take (t : Tree) (text : String) (n : Nat)
    (h : ∀ line ∈ Text.lines text, Text.isBlankText line = false →
      (Operation.ofLine? line).isSome) :
    (t.applyText (String.ofList (text.toList.take n))).1 =
        t.applyAll (((Text.placedLines text).filter (·.recordEnd ≤ n)).filterMap
          (Operation.ofLine? ·.text)) ∧
      (t.applyText (String.ofList (text.toList.take n))).2.skipped ≤ 1 := by
  have hfilter : (Text.placedLines text).filter (·.recordEnd ≤ n) =
      (Text.placedLines text).filter (·.recordEnd ≤ (text.toList.take n).length) := by
    refine List.filter_congr fun l hl => decide_eq_decide.2 ?_
    have := Text.recordEnd_le_of_mem hl
    rw [List.length_take]
    omega
  have haccepted : ∀ l ∈ Text.placedLines text, Text.isBlankText l.text = false →
      (Operation.ofLine? l.text).isSome := fun l hl => by
    refine h l.text ?_
    rw [Text.lines, ← Text.map_line_placedLinesFrom 0, List.map_map]
    exact List.mem_map.2 ⟨l, hl, rfl⟩
  have H := t.applyText_cut (Text.EndsLine.rdropWhile (text.toList.take n))
    (Text.newline_notMem_rtakeWhile (text.toList.take n)) (text.toList.drop n)
  rw [← List.append_assoc, List.rdropWhile_append_rtakeWhile, List.take_append_drop] at H
  rw [hfilter]
  exact H haccepted

/-- Cutting a text of records off neither makes a record nor changes one: a proper beginning of a
record is none, and the tree is what the records make that have come in full. -/
theorem truncation :
    (∀ (line : String) (front : List Char), (Operation.ofLine? line).isSome →
      front <+: Text.trimChars line.toList → front ≠ Text.trimChars line.toList →
      Operation.ofLine? (String.ofList front) = none) ∧
    ∀ (t : Tree) (text : String) (n : Nat),
      (∀ line ∈ Text.lines text, Text.isBlankText line = false →
        (Operation.ofLine? line).isSome) →
      (t.applyText (String.ofList (text.toList.take n))).1 =
          t.applyAll (((Text.placedLines text).filter (·.recordEnd ≤ n)).filterMap
            (Operation.ofLine? ·.text)) ∧
        (t.applyText (String.ofList (text.toList.take n))).2.skipped ≤ 1 :=
  ⟨fun _ _ h hfront hne => Operation.ofLine?_beginning h hfront hne, applyText_take⟩

/-- A record that names the root. -/
def rootRecord : String :=
  "\x7b\"op\":\"set\",\"path\":\"/root\",\"value\":\"a\"\x7d"

/-- Two records, of which the second is cut off before its value. -/
theorem truncation_rootRecord :
    Operation.ofLine? (String.ofList (rootRecord.toList.take 30)) = none ∧
      (empty.applyText (String.ofList ((rootRecord ++ "\n" ++ rootRecord).toList.take 70))).1 =
        empty.applyAll (((Text.placedLines (rootRecord ++ "\n" ++ rootRecord)).filter
          (·.recordEnd ≤ 70)).filterMap (Operation.ofLine? ·.text)) ∧
      (empty.applyText
        (String.ofList ((rootRecord ++ "\n" ++ rootRecord).toList.take 70))).2.skipped ≤ 1 :=
  ⟨truncation.1 rootRecord (rootRecord.toList.take 30) (by decide +kernel) (by decide +kernel)
      (by decide +kernel),
    truncation.2 empty (rootRecord ++ "\n" ++ rootRecord) 70 (by decide +kernel)⟩

end Tree

end StreamedUi
