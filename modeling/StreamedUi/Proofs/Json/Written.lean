import StreamedUi.Proofs.Json.Float
import StreamedUi.Proofs.Json.Quoted
import StreamedUi.Proofs.Json.Shape

/-! The text of a JSON value is read. `Value.raw` is what a reader makes of the text whatever blank
space stands between its parts (`Raw.read?_chars`). If the value nests no deeper than it may and its
objects have distinct names, this means the value again but for floats (`Value.value?_raw`), and the
very value if the text of each of its numbers is read as the number (`Value.reread_eq_self`). -/

namespace StreamedUi.Json

namespace Value

/-! ## What a text is read as -/

mutual
/-- What the text of a value is read as, before numbers are rounded. -/
def raw : Value → Raw
  | .null => .null
  | .bool b => .bool b
  | .number n => .numeral n.numeral
  | .string s => .string (pieces s)
  | .array items => .array (rawItems items)
  | .object ms => .object (rawMembers ms)

def rawItems : List Value → List Raw
  | [] => []
  | v :: vs => v.raw :: rawItems vs

def rawMembers : List (String × Value) → List (List Piece × Raw)
  | [] => []
  | (name, v) :: ms => (pieces name, v.raw) :: rawMembers ms
end

mutual
/-- The value with what the texts of its numbers are read as. -/
def reread : Value → Value
  | .null => .null
  | .bool b => .bool b
  | .number n => .number n.reread
  | .string s => .string s
  | .array items => .array (rereadItems items)
  | .object ms => .object (rereadMembers ms)

def rereadItems : List Value → List Value
  | [] => []
  | v :: vs => v.reread :: rereadItems vs

def rereadMembers : List (String × Value) → List (String × Value)
  | [] => []
  | (name, v) :: ms => (name, v.reread) :: rereadMembers ms
end

theorem rereadItems_eq (vs : List Value) : rereadItems vs = vs.map reread := by
  induction vs with
  | nil => rfl
  | cons v vs ih => rw [rereadItems, ih, List.map_cons]

theorem rereadMembers_eq (ms : List (String × Value)) :
    rereadMembers ms = ms.map fun m => (m.1, m.2.reread) := by
  induction ms with
  | nil => rfl
  | cons m ms ih => rw [rereadMembers, ih, List.map_cons]

theorem map_fst_rereadMembers (ms : List (String × Value)) :
    (rereadMembers ms).map Prod.fst = ms.map Prod.fst := by
  rw [rereadMembers_eq, List.map_map]
  rfl

theorem reread_ne_null {v : Value} (h : v ≠ .null) : v.reread ≠ .null := by
  cases v with
  | null => exact absurd rfl h
  | _ => simp [reread]

theorem lookup_rereadMembers (name : String) (ms : List (String × Value)) :
    (rereadMembers ms).lookup name = (ms.lookup name).map reread := by
  induction ms with
  | nil => rfl
  | cons m ms ih =>
    rw [rereadMembers, List.lookup_cons, List.lookup_cons, ih]
    split <;> rfl

mutual
theorem value?_raw {levels : Nat} :
    ∀ v : Value, v.depth ≤ levels → v.Distinct → v.raw.value? levels = some v.reread
  | .null, _, _ => rfl
  | .bool _, _, _ => rfl
  | .number n, _, _ => by rw [raw, Raw.value?, Number.number?_numeral, Option.map_some, reread]
  | .string s, _, _ => by rw [raw, Raw.value?, text?_pieces, Option.map_some, reread]
  | .array items, hdepth, hdistinct => by
    cases hdistinct with
    | array values =>
      obtain ⟨levels, rfl⟩ := Nat.exists_eq_add_one_of_ne_zero (Nat.ne_zero_of_lt hdepth)
      rw [raw, Raw.value?, values?_rawItems items (Nat.le_of_succ_le_succ hdepth) values,
        Option.map_some, reread]
  | .object ms, hdepth, hdistinct => by
    cases hdistinct with
    | object names values =>
      obtain ⟨levels, rfl⟩ := Nat.exists_eq_add_one_of_ne_zero (Nat.ne_zero_of_lt hdepth)
      have hnames : ((rereadMembers ms).map Prod.fst).Nodup := map_fst_rereadMembers ms ▸ names
      rw [raw, Raw.value?, members?_rawMembers ms (Nat.le_of_succ_le_succ hdepth) values,
        Option.map_some, Members.ofList_of_nodup hnames, reread]

theorem values?_rawItems {levels : Nat} :
    ∀ vs : List Value, itemsDepth vs ≤ levels → (∀ v ∈ vs, v.Distinct) →
      Raw.values? levels (rawItems vs) = some (rereadItems vs)
  | [], _, _ => rfl
  | v :: vs, hdepth, hdistinct => by
    obtain ⟨hv, hvs⟩ := Nat.max_le.1 hdepth
    obtain ⟨hv', hvs'⟩ := List.forall_mem_cons.1 hdistinct
    rw [rawItems, Raw.values?, value?_raw v hv hv', values?_rawItems vs hvs hvs']
    rfl

theorem members?_rawMembers {levels : Nat} :
    ∀ ms : List (String × Value), membersDepth ms ≤ levels → (∀ m ∈ ms, m.2.Distinct) →
      Raw.members? levels (rawMembers ms) = some (rereadMembers ms)
  | [], _, _ => rfl
  | (name, v) :: ms, hdepth, hdistinct => by
    obtain ⟨hv, hms⟩ := Nat.max_le.1 hdepth
    obtain ⟨hv', hms'⟩ := List.forall_mem_cons.1 hdistinct
    rw [rawMembers, Raw.members?, text?_pieces, value?_raw v hv hv',
      members?_rawMembers ms hms hms']
    rfl
end

end Value

/-! ## Blank space and the ends of values -/

/-- What may stand right after a value inside of an array or object. -/
def IsDelimiter (c : Char) : Prop := c = ',' ∨ c = ']' ∨ c = '}' ∨ isSpace c = true

theorem NumeralReader.step_delimiter (r : NumeralReader) {c : Char} (h : IsDelimiter c) :
    r.step c = none := by
  obtain ⟨n, part⟩ := r
  rcases h with rfl | rfl | rfl | h
  · cases part <;> rfl
  · cases part <;> rfl
  · cases part <;> rfl
  · rcases eq_of_isSpace h with rfl | rfl | rfl | rfl <;> cases part <;> rfl

/-- White space means nothing here. -/
def Mode.SkipsSpace : Mode → Prop
  | .inName _ _ | .inString _ | .inNumeral _ | .inKeyword _ _ => False
  | _ => True

namespace Reader

variable {r : Reader} {frames : List Frame} {mode : Mode} {v : Raw} {c : Char}
  {space cs : List Char}

theorem step_space (hmode : mode.SkipsSpace) (hc : isSpace c = true) :
    (⟨frames, mode⟩ : Reader).step c = some ⟨frames, mode⟩ := by
  rcases eq_of_isSpace hc with rfl | rfl | rfl | rfl <;> cases mode <;> first | rfl | cases hmode

theorem run_space (mode : Mode) (hmode : mode.SkipsSpace)
    (hspace : ∀ c ∈ space, isSpace c = true) (cs : List Char) :
    (⟨frames, mode⟩ : Reader).run (space ++ cs) = (⟨frames, mode⟩ : Reader).run cs := by
  induction space with
  | nil => rfl
  | cons c space ih =>
    obtain ⟨hc, hspace⟩ := List.forall_mem_cons.1 hspace
    rw [List.cons_append, run_cons, step_space hmode hc, Option.bind_some, ih hspace]

/-- The reader is at the end of a value. Only what follows a number tells that it has ended. -/
def Ended (r : Reader) (frames : List Frame) (v : Raw) : Prop :=
  r = settle frames v ∨
    ∃ n : NumeralReader, r = ⟨frames, .inNumeral n⟩ ∧ n.isComplete = true ∧ v = .numeral n.numeral

theorem settle_skipsSpace (frames : List Frame) (v : Raw) : (settle frames v).mode.SkipsSpace := by
  rcases frames with _ | ⟨_ | _, _⟩ <;> trivial

theorem Ended.step (h : r.Ended frames v) (hc : IsDelimiter c) :
    r.step c = (settle frames v).step c := by
  rcases h with rfl | ⟨n, rfl, hn, rfl⟩
  · rfl
  · have hsettle : (settle frames (.numeral n.numeral)).step c =
        (settle frames (.numeral n.numeral)).stepOutside c := by
      rcases frames with _ | ⟨_ | _, _⟩ <;> rfl
    rw [hsettle, Reader.step]
    simp only [n.step_delimiter hc, hn, if_true]

theorem Ended.run (h : r.Ended frames v) (hc : IsDelimiter c) (cs : List Char) :
    r.run (c :: cs) = (settle frames v).run (c :: cs) := by
  rw [run_cons, run_cons, h.step hc]

/-- White space after a value changes nothing. -/
theorem Ended.run_space (h : r.Ended frames v) (hspace : ∀ c ∈ space, isSpace c = true)
    (hc : IsDelimiter c) (cs : List Char) :
    r.run (space ++ c :: cs) = (settle frames v).run (c :: cs) := by
  cases space with
  | nil => exact h.run hc cs
  | cons d space =>
    rw [List.cons_append, h.run (.inr (.inr (.inr (hspace d List.mem_cons_self)))),
      ← List.cons_append]
    exact Reader.run_space _ (settle_skipsSpace frames v) hspace (c :: cs)

theorem Ended.result? (h : r.Ended [] v) : r.result? = some v := by
  rcases h with rfl | ⟨n, rfl, hn, rfl⟩
  · rfl
  · exact if_pos hn

/-- The first character of an item stands behind an opened array as behind a comma. -/
theorem run_firstItem {r : Reader}
    (h : (⟨.array [] :: frames, .value⟩ : Reader).run (c :: cs) = some r)
    (hc : isSpace c = false) :
    (⟨frames, .firstItem⟩ : Reader).run (c :: cs) = some r := by
  have hclose : c ≠ ']' := by
    rintro rfl
    cases h
  have hstep : (⟨frames, .firstItem⟩ : Reader).step c =
      (⟨.array [] :: frames, .value⟩ : Reader).step c := by
    simp [step, stepOutside, hc, hclose]
  rw [run_cons, hstep, ← run_cons, h]

/-! ## Numbers -/

theorem run_inNumeral {n n' : NumeralReader} (frames : List Frame) (h : n.run cs = some n') :
    (⟨frames, .inNumeral n⟩ : Reader).run cs = some ⟨frames, .inNumeral n'⟩ := by
  induction cs generalizing n with
  | nil =>
    cases h
    rfl
  | cons c cs ih =>
    obtain ⟨m, hm, h⟩ := Option.bind_eq_some_iff.1 h
    have hstep : (⟨frames, .inNumeral n⟩ : Reader).step c = some ⟨frames, .inNumeral m⟩ := by
      simp [step, hm]
    rw [run_cons, hstep, Option.bind_some, ih h]

theorem step_start? {n : NumeralReader} (frames : List Frame)
    (h : NumeralReader.start? c = some n) :
    isSpace c = false ∧ (⟨frames, .value⟩ : Reader).step c = some ⟨frames, .inNumeral n⟩ := by
  have hspace : isSpace c = false := by
    by_contra hc
    rcases eq_of_isSpace (Bool.not_eq_false _ ▸ hc) with rfl | rfl | rfl | rfl <;> cases h
  refine ⟨hspace, ?_⟩
  show stepValue frames c = _
  rw [stepValue, if_neg (by rw [hspace]; decide)]
  · rw [h, Option.map_some]
  -- No other value begins with this character.
  all_goals
    rintro rfl
    cases h

theorem run_numberChars (frames : List Frame) (n : Number) :
    ∃ r, (⟨frames, .value⟩ : Reader).run n.chars = some r ∧
      r.Ended frames (.numeral n.numeral) := by
  obtain ⟨m, hm, hnumeral, hcomplete⟩ := n.read?_chars
  cases hcs : n.chars with
  | nil =>
    rw [hcs] at hm
    cases hm
  | cons c cs =>
    rw [hcs] at hm
    obtain ⟨m', hstart, hrun⟩ := Option.bind_eq_some_iff.1 hm
    refine ⟨⟨frames, .inNumeral m⟩, ?_, .inr ⟨m, rfl, hcomplete, by rw [hnumeral]⟩⟩
    rw [run_cons, (step_start? frames hstart).2, Option.bind_some, run_inNumeral frames hrun]

end Reader

/-! ## Values -/

/-- Nothing but white space is put around the parts of a text. -/
structure Spacing.Blank (sp : Spacing) : Prop where
  lineBreak : ∀ depth, ∀ c ∈ sp.lineBreak depth, isSpace c = true
  afterColon : ∀ c ∈ sp.afterColon, isSpace c = true

theorem Spacing.compact_blank : Spacing.compact.Blank where
  lineBreak _ _ h := absurd h List.not_mem_nil
  afterColon _ h := absurd h List.not_mem_nil

theorem Spacing.pretty_blank : Spacing.pretty.Blank where
  lineBreak depth := List.forall_mem_cons.2 ⟨rfl, fun c hc => by
    rw [List.eq_of_mem_replicate hc]
    rfl⟩
  afterColon := List.forall_mem_singleton.2 rfl

theorem Value.chars_head (sp : Spacing) (depth : Nat) (v : Value) :
    ∃ c cs, v.chars sp depth = c :: cs ∧ isSpace c = false := by
  rcases v with _ | (_ | _) | n | s | (_ | ⟨_, _⟩) | (_ | ⟨⟨_, _⟩, _⟩)
  case number =>
    obtain ⟨m, hm, -⟩ := n.read?_chars
    rw [chars]
    cases hcs : n.chars with
    | nil =>
      rw [hcs] at hm
      cases hm
    | cons c cs =>
      rw [hcs] at hm
      obtain ⟨m', hstart, -⟩ := Option.bind_eq_some_iff.1 hm
      exact ⟨c, cs, rfl, (Reader.step_start? [] hstart).1⟩
  all_goals exact ⟨_, _, rfl, rfl⟩

namespace Reader

/-- The name of a member, up to its value. -/
theorem run_member {sp : Spacing} (hsp : sp.Blank) {mode : Mode} {ms : List (List Piece × Raw)}
    (hmode : mode = .name ms ∨ mode = .firstName ∧ ms = []) (frames : List Frame) (depth : Nat)
    (name : String) (cs : List Char) :
    (⟨frames, mode⟩ : Reader).run
        (sp.lineBreak depth ++ stringChars name ++ ':' :: (sp.afterColon ++ cs)) =
      (⟨.object ms (pieces name) :: frames, .value⟩ : Reader).run cs := by
  have hskip : mode.SkipsSpace := by rcases hmode with rfl | ⟨rfl, rfl⟩ <;> trivial
  have hcolon : (⟨frames, .colon ms (pieces name)⟩ : Reader).step ':' =
      some ⟨.object ms (pieces name) :: frames, .value⟩ := rfl
  rw [List.append_assoc, run_space mode hskip (hsp.lineBreak depth), run_append,
    run_nameChars hmode frames name, Option.bind_some, run_cons, hcolon, Option.bind_some,
    run_space .value trivial hsp.afterColon]

-- By induction on the value: items and members after the first are read from the end of the value
-- before them.
mutual
theorem run_chars {sp : Spacing} (hsp : sp.Blank) (depth : Nat) (frames : List Frame) :
    ∀ v : Value, ∃ r, (⟨frames, .value⟩ : Reader).run (v.chars sp depth) = some r ∧
      r.Ended frames v.raw
  | .null => ⟨_, rfl, .inl rfl⟩
  | .bool true => ⟨_, rfl, .inl rfl⟩
  | .bool false => ⟨_, rfl, .inl rfl⟩
  | .number n => run_numberChars frames n
  | .string s => ⟨_, run_stringChars frames s, .inl rfl⟩
  | .array [] => ⟨_, rfl, .inl rfl⟩
  | .array (v :: vs) => by
    obtain ⟨r, hr, hend⟩ := run_chars hsp (depth + 1) (.array [] :: frames) v
    obtain ⟨c, cs, hcs, hc⟩ := v.chars_head sp (depth + 1)
    have hfirst := run_firstItem (hcs ▸ hr) hc
    have hopen : (⟨frames, .value⟩ : Reader).step '[' = some ⟨frames, .firstItem⟩ := rfl
    refine ⟨settle frames (.array (v.raw :: Value.rawItems vs)), ?_, .inl rfl⟩
    rw [Value.chars, run_cons, hopen, Option.bind_some, List.append_assoc,
      run_space .firstItem trivial (hsp.lineBreak _), run_append, hcs, hfirst, Option.bind_some,
      run_itemChars hsp depth vs hend]
    rfl
  | .object [] => ⟨_, rfl, .inl rfl⟩
  | .object ((name, v) :: ms) => by
    obtain ⟨r, hr, hend⟩ := run_chars hsp (depth + 1) (.object [] (pieces name) :: frames) v
    have hopen : (⟨frames, .value⟩ : Reader).step '\x7b' = some ⟨frames, .firstName⟩ := rfl
    refine ⟨settle frames (.object ((pieces name, v.raw) :: Value.rawMembers ms)), ?_, .inl rfl⟩
    rw [Value.chars, run_cons, hopen, Option.bind_some, List.append_assoc sp.afterColon,
      run_member hsp (.inr ⟨rfl, rfl⟩), run_append, hr, Option.bind_some,
      run_memberChars hsp depth ms hend]
    rfl

theorem run_itemChars {sp : Spacing} (hsp : sp.Blank) (depth : Nat) {r : Reader}
    {frames : List Frame} {done : List Raw} {w : Raw} :
    ∀ vs : List Value, r.Ended (.array done :: frames) w →
      r.run (Value.itemChars sp depth vs) =
        some (settle frames (.array (done.reverse ++ w :: Value.rawItems vs)))
  | [], h => by
    rw [Value.itemChars, h.run_space (hsp.lineBreak depth) (.inr (.inl rfl))]
    show some (settle frames (.array (w :: done).reverse)) = _
    rw [List.reverse_cons]
    rfl
  | v :: vs, h => by
    obtain ⟨r', hr', hend⟩ := run_chars hsp (depth + 1) (.array (w :: done) :: frames) v
    have hcomma : (settle (.array done :: frames) w).step ',' =
        some ⟨.array (w :: done) :: frames, .value⟩ := rfl
    rw [Value.itemChars, h.run (.inl rfl), run_cons, hcomma, Option.bind_some, List.append_assoc,
      run_space .value trivial (hsp.lineBreak _), run_append, hr', Option.bind_some,
      run_itemChars hsp depth vs hend, List.reverse_cons, List.append_assoc]
    rfl

theorem run_memberChars {sp : Spacing} (hsp : sp.Blank) (depth : Nat) {r : Reader}
    {frames : List Frame} {done : List (List Piece × Raw)} {name : List Piece} {w : Raw} :
    ∀ ms : List (String × Value), r.Ended (.object done name :: frames) w →
      r.run (Value.memberChars sp depth ms) =
        some (settle frames (.object (done.reverse ++ (name, w) :: Value.rawMembers ms)))
  | [], h => by
    rw [Value.memberChars, h.run_space (hsp.lineBreak depth) (.inr (.inr (.inl rfl)))]
    show some (settle frames (.object ((name, w) :: done).reverse)) = _
    rw [List.reverse_cons]
    rfl
  | (name', v) :: ms, h => by
    obtain ⟨r', hr', hend⟩ :=
      run_chars hsp (depth + 1) (.object ((name, w) :: done) (pieces name') :: frames) v
    have hcomma : (settle (.object done name :: frames) w).step ',' =
        some ⟨frames, .name ((name, w) :: done)⟩ := rfl
    rw [Value.memberChars, h.run (.inl rfl), run_cons, hcomma, Option.bind_some,
      List.append_assoc sp.afterColon, run_member hsp (.inl rfl), run_append, hr',
      Option.bind_some, run_memberChars hsp depth ms hend, List.reverse_cons, List.append_assoc]
    rfl
end

end Reader

/-- The text of a value is read as the value, however it is spaced. -/
theorem Raw.read?_chars {sp : Spacing} (hsp : sp.Blank) (v : Value) :
    Raw.read? (v.chars sp 0) = some v.raw := by
  obtain ⟨r, hr, hend⟩ := Reader.run_chars hsp 0 [] v
  rw [Raw.read?, Reader.start]
  exact Option.bind_eq_some_iff.2 ⟨r, hr, hend.result?⟩

/-! ## Numbers that are read as they were -/

/-- The text of the number is read as the number itself. -/
def Number.ReadsBack (n : Number) : Prop := (Raw.read? n.chars).bind (·.value? 0) = some (.number n)

theorem Number.readsBack_iff (n : Number) : n.ReadsBack ↔ n.reread = n := by
  have hread : Raw.read? n.chars = some (.numeral n.numeral) :=
    Raw.read?_chars Spacing.compact_blank (.number n)
  rw [ReadsBack, hread, Option.bind_some, Raw.value?, number?_numeral, Option.map_some,
    Option.some.injEq, Value.number.injEq]

/-- So it is only about floats that anything has to be assumed. -/
theorem Number.readsBack_integer (n : WordInt) : (integer n).ReadsBack :=
  (readsBack_iff _).2 (reread_integer n)

namespace Value

mutual
/-- The numbers of a value. -/
def numbers : Value → List Number
  | .null | .bool _ | .string _ => []
  | .number n => [n]
  | .array items => itemsNumbers items
  | .object ms => membersNumbers ms

def itemsNumbers : List Value → List Number
  | [] => []
  | v :: vs => v.numbers ++ itemsNumbers vs

def membersNumbers : List (String × Value) → List Number
  | [] => []
  | (_, v) :: ms => v.numbers ++ membersNumbers ms
end

theorem membersNumbers_eq (ms : List (String × Value)) :
    membersNumbers ms = ms.flatMap fun m => m.2.numbers := by
  induction ms with
  | nil => rfl
  | cons m ms ih => rw [membersNumbers, ih, List.flatMap_cons]

mutual
theorem reread_eq_self : ∀ v : Value, (∀ n ∈ v.numbers, n.ReadsBack) → v.reread = v
  | .null, _ | .bool _, _ | .string _, _ => by rw [reread]
  | .number n, h => by
    rw [reread, (Number.readsBack_iff n).1 (h n (List.mem_singleton_self n))]
  | .array items, h => by rw [reread, rereadItems_eq_self items h]
  | .object ms, h => by rw [reread, rereadMembers_eq_self ms h]

theorem rereadItems_eq_self :
    ∀ vs : List Value, (∀ n ∈ itemsNumbers vs, n.ReadsBack) → rereadItems vs = vs
  | [], _ => rfl
  | v :: vs, h => by
    obtain ⟨hv, hvs⟩ := List.forall_mem_append.1 h
    rw [rereadItems, reread_eq_self v hv, rereadItems_eq_self vs hvs]

theorem rereadMembers_eq_self :
    ∀ ms : List (String × Value), (∀ n ∈ membersNumbers ms, n.ReadsBack) → rereadMembers ms = ms
  | [], _ => rfl
  | (name, v) :: ms, h => by
    obtain ⟨hv, hms⟩ := List.forall_mem_append.1 h
    rw [rereadMembers, reread_eq_self v hv, rereadMembers_eq_self ms hms]
end

end Value

/-! ## Records -/

theorem Raw.names?_rawMembers (ms : List (String × Value)) :
    Raw.names? (Value.rawMembers ms) = some (ms.map fun m => (m.1, m.2.raw)) := by
  induction ms with
  | nil => rfl
  | cons m ms ih =>
    rw [Value.rawMembers, Raw.names?, text?_pieces, ih]
    rfl

/-- A record that has only known fields, each of them once. -/
theorem Raw.fields?_raw {names : List String} {ms : Members} (hknown : ∀ m ∈ ms, m.1 ∈ names)
    (hnodup : (ms.map Prod.fst).Nodup) :
    Raw.fields? names (Value.object ms).raw = some (ms.map fun m => (m.1, m.2.raw)) := by
  have hfilter : (ms.map fun m => (m.1, m.2.raw)).filter (names.contains ·.1) =
      ms.map fun m => (m.1, m.2.raw) :=
    List.filter_eq_self.2 (List.forall_mem_map.2 fun m hm => by simpa using hknown m hm)
  rw [Value.raw, Raw.fields?, Raw.names?_rawMembers]
  simp only [Option.bind_eq_bind, Option.bind_some, hfilter, List.map_map]
  exact if_pos hnodup

theorem Raw.fieldValues?_raw {levels : Nat} {ms : Members}
    (h : ∀ m ∈ ms, m.2.depth ≤ levels ∧ m.2.Distinct) :
    Raw.fieldValues? levels (ms.map fun m => (m.1, m.2.raw)) = some (Value.rereadMembers ms) := by
  rw [Value.rereadMembers_eq]
  refine mapM_map_of_forall fun m hm => ?_
  obtain ⟨hdepth, hdistinct⟩ := h m hm
  show (m.2.raw.value? levels).map (m.1, ·) = some (m.1, m.2.reread)
  rw [Value.value?_raw m.2 hdepth hdistinct, Option.map_some]

end StreamedUi.Json
