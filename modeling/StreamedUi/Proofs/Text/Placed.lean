import StreamedUi.Proofs.Text.Blank
import StreamedUi.Proofs.Text.Lines

/-! Lines with their places in the text. `placedLines` gives each line the position of its first
character; the lines are those of the text (`map_line_placedLinesFrom`) and each stands where it
says (`exists_append_of_mem`). A cut inside a line leaves the lines before and after it in their
places (`placedLinesFrom_append`, `placedLinesFrom_open`). -/

namespace StreamedUi.Text

/-- A line of a text and where it starts. -/
structure PlacedLine where
  start : Nat
  line : List Char

namespace PlacedLine

/-- The line as a string. -/
def text (l : PlacedLine) : String := String.ofList l.line

/-- Where what is left of the line after trimming ends. -/
def recordEnd (l : PlacedLine) : Nat :=
  l.start + ((l.line.takeWhile isBlank).length + (trimChars l.line).length)

end PlacedLine

/-- The lines of a text that starts at position `start`. -/
def placedLinesFrom (start : Nat) : List Char → List PlacedLine
  | [] => []
  | '\r' :: '\n' :: cs => ⟨start, []⟩ :: placedLinesFrom (start + 2) cs
  | c :: cs =>
    if c = '\n' then ⟨start, []⟩ :: placedLinesFrom (start + 1) cs
    else match placedLinesFrom (start + 1) cs with
      | [] => [⟨start, [c]⟩]
      | l :: ls => ⟨start, c :: l.line⟩ :: ls

/-- The lines of a text, each with its place. -/
def placedLines (s : String) : List PlacedLine := placedLinesFrom 0 s.toList

theorem map_line_placedLinesFrom (start : Nat) (cs : List Char) :
    (placedLinesFrom start cs).map PlacedLine.line = lineChars cs := by
  fun_induction placedLinesFrom start cs with
  | case1 => rfl
  | case2 start cs ih => rw [List.map_cons, ih, lineChars]
  | case3 start cs hcr ih => rw [List.map_cons, ih, lineChars, if_pos rfl]; exact hcr
  | case4 start c cs hcr hc hnil ih =>
    rw [lineChars, if_neg hc, ← ih, hnil]
    · rfl
    · exact hcr
  | case5 start c cs hcr hc l ls hcons ih =>
    rw [lineChars, if_neg hc, ← ih, hcons]
    · rfl
    · exact hcr

/-! ## The first line -/

/-- How the first line of a text ends, and which lines come after it. -/
inductive FirstLine (start : Nat) (line : List Char) : List Char → List PlacedLine → Prop
  | last : FirstLine start line line []
  | ended {ending cs} : ending = ['\n'] ∨ ending = ['\r', '\n'] →
    FirstLine start line (line ++ (ending ++ cs))
      (placedLinesFrom (start + line.length + ending.length) cs)

theorem FirstLine.cons {start : Nat} {line cs : List Char} {rest : List PlacedLine} {c : Char}
    (h : FirstLine (start + 1) line cs rest) : FirstLine start (c :: line) (c :: cs) rest := by
  cases h with
  | last => exact .last
  | ended hending =>
    have hplace : start + 1 + line.length = start + (c :: line).length := by
      rw [List.length_cons]
      omega
    rw [hplace]
    exact .ended hending

theorem placedLinesFrom_eq_cons (start : Nat) {cs : List Char} (h : cs ≠ []) :
    ∃ line rest, placedLinesFrom start cs = ⟨start, line⟩ :: rest ∧ '\n' ∉ line ∧
      FirstLine start line cs rest := by
  fun_induction placedLinesFrom start cs with
  | case1 => exact absurd rfl h
  | case2 start cs _ =>
    have hending : ['\r', '\n'] = ['\n'] ∨ ['\r', '\n'] = ['\r', '\n'] := .inr rfl
    exact ⟨[], _, rfl, List.not_mem_nil, .ended hending⟩
  | case3 start cs _ _ =>
    have hending : ['\n'] = ['\n'] ∨ ['\n'] = ['\r', '\n'] := .inl rfl
    exact ⟨[], _, rfl, List.not_mem_nil, .ended hending⟩
  | case4 start c cs hcr hc hnil ih =>
    obtain rfl : cs = [] := Classical.not_not.1 fun hne => by
      obtain ⟨line, rest, heq, -⟩ := ih hne
      simp [heq] at hnil
    exact ⟨[c], [], rfl, by simpa using Ne.symm hc, .last⟩
  | case5 start c cs hcr hc l ls hcons ih =>
    have hne : cs ≠ [] := fun hnil => by simp [hnil, placedLinesFrom] at hcons
    obtain ⟨line, rest, heq, hfree, hfirst⟩ := ih hne
    rw [hcons] at heq
    cases heq
    refine ⟨c :: line, ls, rfl, ?_, hfirst.cons⟩
    rw [List.mem_cons, not_or]
    exact ⟨Ne.symm hc, hfree⟩

/-- The lines stand in the text where they say. -/
theorem exists_append_of_mem {start : Nat} {cs : List Char} {l : PlacedLine}
    (h : l ∈ placedLinesFrom start cs) :
    ∃ before after, cs = before ++ (l.line ++ after) ∧ l.start = start + before.length := by
  induction hn : cs.length using Nat.strongRecOn generalizing start cs with
  | ind n ih =>
    subst hn
    by_cases hne : cs = []
    · subst hne
      exact absurd h List.not_mem_nil
    obtain ⟨line, rest, heq, -, hfirst⟩ := placedLinesFrom_eq_cons start hne
    rw [heq, List.mem_cons] at h
    cases hfirst with
    | last =>
      obtain rfl : l = ⟨start, cs⟩ := by simpa using h
      exact ⟨[], [], by simp, rfl⟩
    | @ended ending ds hending =>
      rcases h with rfl | h
      · exact ⟨[], ending ++ ds, rfl, rfl⟩
      · have hds : ds.length < (line ++ (ending ++ ds)).length := by
          rcases hending with rfl | rfl <;> simp <;> omega
        obtain ⟨before, after, rfl, hstart⟩ := ih ds.length hds h rfl
        refine ⟨line ++ (ending ++ before), after, by simp, ?_⟩
        simp only [hstart, List.length_append]
        omega

/-! ## Cuts -/

theorem recordEnd_le_of_mem {start : Nat} {cs : List Char} {l : PlacedLine}
    (h : l ∈ placedLinesFrom start cs) : l.recordEnd ≤ start + cs.length := by
  obtain ⟨before, after, rfl, hstart⟩ := exists_append_of_mem h
  obtain ⟨tail, -, hline⟩ := eq_append_trimChars l.line
  have hlength := congrArg List.length hline
  simp only [List.length_append] at hlength
  simp only [PlacedLine.recordEnd, hstart, List.length_append]
  omega

/-- Complete lines keep their places. -/
theorem placedLinesFrom_append {start : Nat} {cs : List Char} (h : EndsLine cs) (ds : List Char) :
    placedLinesFrom start (cs ++ ds) =
      placedLinesFrom start cs ++ placedLinesFrom (start + cs.length) ds := by
  fun_induction placedLinesFrom start cs with
  | case1 => rfl
  | case2 start cs ih =>
    rw [List.cons_append, List.cons_append, placedLinesFrom, ih h.tail.tail, List.cons_append,
      List.length_cons, List.length_cons, Nat.add_assoc start, Nat.add_comm 2]
  | case3 start cs hcr ih =>
    rw [List.cons_append, placedLinesFrom, if_pos rfl, ih h.tail, List.cons_append,
      List.length_cons, Nat.add_assoc start, Nat.add_comm 1]
    simp
  | case4 start c cs hcr hc hnil ih =>
    obtain rfl : cs = [] := Classical.not_not.1 fun hne => by
      obtain ⟨line, rest, heq, -⟩ := placedLinesFrom_eq_cons (start + 1) hne
      simp [heq] at hnil
    exact absurd (h (List.cons_ne_nil c [])) hc
  | case5 start c cs hcr hc l ls hcons ih =>
    obtain ⟨d, cs, rfl⟩ : ∃ d cs', cs = d :: cs' := List.exists_cons_of_ne_nil fun hnil => by
      simp [hnil, placedLinesFrom] at hcons
    rw [List.cons_append, placedLinesFrom, if_neg hc, ih h.tail, hcons, List.cons_append,
      List.length_cons, Nat.add_assoc start, Nat.add_comm 1]
    · rfl
    · rintro es rfl heq
      cases heq
      exact hcr cs rfl rfl

/-- The first line of a text whose beginning `cs` is in one line has that beginning, unless only its
newline lies beyond. The other lines start later. -/
theorem placedLinesFrom_open (start : Nat) {cs : List Char} (h : '\n' ∉ cs) (hne : cs ≠ [])
    (ds : List Char) :
    ∃ line rest, placedLinesFrom start (cs ++ ds) = ⟨start, line⟩ :: rest ∧
      (cs <+: line ∨ cs = line ++ ['\r']) ∧ ∀ l ∈ rest, start + cs.length < l.start := by
  obtain ⟨line, rest, heq, -, hfirst⟩ :=
    placedLinesFrom_eq_cons start (List.append_ne_nil_of_left_ne_nil hne ds)
  refine ⟨line, rest, heq, ?_⟩
  generalize htext : cs ++ ds = text at hfirst
  cases hfirst with
  | last =>
    subst htext
    exact ⟨.inl (List.prefix_append cs ds), fun l hl => absurd hl List.not_mem_nil⟩
  | @ended ending es hending =>
    have hrest (hle : cs.length < line.length + ending.length) :
        ∀ l ∈ placedLinesFrom (start + line.length + ending.length) es,
          start + cs.length < l.start := by
      intro l hl
      obtain ⟨before, -, -, hstart⟩ := exists_append_of_mem hl
      omega
    have hpos : 0 < ending.length := by rcases hending with rfl | rfl <;> simp
    rcases List.append_eq_append_iff.1 htext with ⟨more, rfl, -⟩ | ⟨extra, rfl, hover⟩
    · refine ⟨.inl (List.prefix_append cs more), hrest ?_⟩
      rw [List.length_append]
      omega
    · have hfree : '\n' ∉ extra := fun hm => h (List.mem_append_right line hm)
      cases extra with
      | nil =>
        rw [List.append_nil]
        exact ⟨.inl (List.prefix_refl line), by simpa using hrest (by simpa using hpos)⟩
      | cons c extra =>
        rcases hending with rfl | rfl
        · cases hover
          exact absurd List.mem_cons_self hfree
        · cases extra with
          | nil =>
            cases hover
            exact ⟨.inr rfl, hrest (by simp)⟩
          | cons d extra =>
            cases hover
            exact absurd (List.mem_cons_of_mem _ List.mem_cons_self) hfree

end StreamedUi.Text
