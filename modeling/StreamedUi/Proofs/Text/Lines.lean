import Mathlib.Data.List.DropRight
import StreamedUi.Text.Lines

/-! Where a text may be cut without changing its lines. A cut after a newline splits the list of
lines (`lineChars_append`), and the last such place is the one `splitAtLastNewline` finds
(`splitAtLastNewline_eq`). Text that is added later leaves what was cut off alone
(`rdropWhile_append`, `rtakeWhile_append`). -/

namespace StreamedUi.Text

/-- The text is empty or its last character is a newline. -/
def EndsLine (cs : List Char) : Prop := ∀ h : cs ≠ [], cs.getLast h = '\n'

/-- The text up to and with its last newline. -/
def throughLastNewline (s : String) : String := String.ofList (s.toList.rdropWhile (· != '\n'))

/-- The text after its last newline. -/
def afterLastNewline (s : String) : String := String.ofList (s.toList.rtakeWhile (· != '\n'))

namespace EndsLine

theorem nil : EndsLine [] := fun h => absurd rfl h

theorem tail {c : Char} {cs : List Char} (h : EndsLine (c :: cs)) : EndsLine cs := by
  intro hne
  rw [← List.getLast_cons hne]
  exact h (List.cons_ne_nil c cs)

theorem rdropWhile (cs : List Char) : EndsLine (cs.rdropWhile (· != '\n')) := by
  intro hne
  simpa using List.rdropWhile_last_not (· != '\n') cs hne

theorem rtakeWhile_eq_nil {cs : List Char} (h : EndsLine cs) :
    cs.rtakeWhile (· != '\n') = [] := by
  rw [List.rtakeWhile_eq_nil_iff]
  intro hne
  simp [h hne]

end EndsLine

theorem newline_notMem_rtakeWhile (cs : List Char) : '\n' ∉ cs.rtakeWhile (· != '\n') := by
  intro h
  have := List.mem_rtakeWhile_imp h
  simp at this

/-! ## The last newline -/

/-- Text after a line ending does not see what is before it. -/
theorem rtakeWhile_append {cs : List Char} (h : EndsLine cs) (ds : List Char) :
    (cs ++ ds).rtakeWhile (· != '\n') = ds.rtakeWhile (· != '\n') := by
  have hnil : cs.reverse.takeWhile (· != '\n') = [] := by
    simpa [List.rtakeWhile] using h.rtakeWhile_eq_nil
  rw [List.rtakeWhile, List.rtakeWhile, List.reverse_append, List.takeWhile_append, hnil,
    List.append_nil]
  split
  · next hlen => rw [(List.takeWhile_prefix _).eq_of_length hlen]
  · rfl

theorem rdropWhile_append {cs : List Char} (h : EndsLine cs) (ds : List Char) :
    (cs ++ ds).rdropWhile (· != '\n') = cs ++ ds.rdropWhile (· != '\n') := by
  apply (List.append_left_inj (ds.rtakeWhile (· != '\n'))).1
  rw [List.append_assoc, List.rdropWhile_append_rtakeWhile, ← rtakeWhile_append h ds,
    List.rdropWhile_append_rtakeWhile]

/-- There is one way to cut a text into something that ends a line and something in one line. -/
theorem eq_of_endsLine {cs ds : List Char} (h : EndsLine cs) (hds : '\n' ∉ ds) :
    (cs ++ ds).rdropWhile (· != '\n') = cs ∧ (cs ++ ds).rtakeWhile (· != '\n') = ds := by
  have hall : ∀ c ∈ ds, (c != '\n') = true := fun c hc =>
    bne_iff_ne.2 fun he => hds (he ▸ hc)
  constructor
  · rw [rdropWhile_append h, List.rdropWhile_eq_nil_iff.2 hall, List.append_nil]
  · rw [rtakeWhile_append h, List.rtakeWhile_eq_self_iff.2 hall]

theorem splitAtLastNewline_cut (cs : List Char) :
    (splitAtLastNewline cs).1 ++ (splitAtLastNewline cs).2 = cs ∧
      EndsLine (splitAtLastNewline cs).1 ∧ '\n' ∉ (splitAtLastNewline cs).2 := by
  induction cs with
  | nil => exact ⟨rfl, .nil, List.not_mem_nil⟩
  | cons c cs ih =>
    obtain ⟨happ, hends, hfree⟩ := ih
    rw [splitAtLastNewline]
    cases hsplit : splitAtLastNewline cs with
    | mk done rest =>
      rw [hsplit] at happ hends hfree
      cases done with
      | nil =>
        by_cases hc : c = '\n'
        · simp_all [EndsLine]
        · simp_all [EndsLine, eq_comm]
      | cons d ds =>
        refine ⟨congrArg (c :: ·) happ, fun _ => ?_, hfree⟩
        rw [List.getLast_cons (List.cons_ne_nil d ds)]
        exact hends _

theorem splitAtLastNewline_eq (cs : List Char) :
    splitAtLastNewline cs = (cs.rdropWhile (· != '\n'), cs.rtakeWhile (· != '\n')) := by
  obtain ⟨happ, hends, hfree⟩ := splitAtLastNewline_cut cs
  obtain ⟨hdone, hrest⟩ := eq_of_endsLine hends hfree
  rw [happ] at hdone hrest
  exact Prod.ext hdone.symm hrest.symm

/-! ## Lines -/

theorem lineChars_ne_nil {cs : List Char} (h : cs ≠ []) : lineChars cs ≠ [] := by
  fun_cases lineChars cs <;> simp_all

/-- Text without a newline is one line. -/
theorem lineChars_of_newline_notMem {cs : List Char} (h : '\n' ∉ cs) (hne : cs ≠ []) :
    lineChars cs = [cs] := by
  fun_induction lineChars cs with
  | case1 => exact absurd rfl hne
  | case2 cs _ => exact absurd (List.mem_cons_of_mem _ List.mem_cons_self) h
  | case3 cs _ _ => exact absurd List.mem_cons_self h
  | case4 c cs _ _ hnil _ =>
    obtain rfl : cs = [] := Classical.not_not.1 fun hne => lineChars_ne_nil hne hnil
    rfl
  | case5 c cs _ _ l ls hcons ih =>
    have hcs : cs ≠ [] := fun hnil => by simp [hnil, lineChars] at hcons
    rw [ih (List.not_mem_of_not_mem_cons h) hcs] at hcons
    cases hcons
    rfl

/-- Lines of a text that starts a line are not touched by complete lines before it. -/
theorem lineChars_append {cs : List Char} (h : EndsLine cs) (ds : List Char) :
    lineChars (cs ++ ds) = lineChars cs ++ lineChars ds := by
  fun_induction lineChars cs with
  | case1 => rfl
  | case2 cs ih =>
    rw [List.cons_append, List.cons_append, lineChars, ih h.tail.tail, List.cons_append]
  | case3 cs hcr ih =>
    rw [List.cons_append, lineChars, if_pos rfl, ih h.tail, List.cons_append]
    simp
  | case4 c cs hcr hc hnil ih =>
    obtain rfl : cs = [] := Classical.not_not.1 fun hne => lineChars_ne_nil hne hnil
    exact absurd (h (List.cons_ne_nil c [])) hc
  | case5 c cs hcr hc l ls hcons ih =>
    obtain ⟨d, cs, rfl⟩ : ∃ d cs', cs = d :: cs' := List.exists_cons_of_ne_nil fun hnil => by
      simp [hnil, lineChars] at hcons
    rw [List.cons_append, lineChars, if_neg hc, ih h.tail, hcons, List.cons_append,
      List.cons_append]
    rintro es rfl heq
    cases heq
    exact hcr cs rfl rfl

end StreamedUi.Text
