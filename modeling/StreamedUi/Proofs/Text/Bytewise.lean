import StreamedUi.Proofs.Text.Encoding

/-! Reading UTF-8 one byte at a time. Such a reader decides at each byte what the bytes that it
holds become, so it does not matter to it how its input is cut into chunks. The reader that checks
all it has with every chunk gives the same text and holds the same bytes
(`Utf8Reader.Valid.push_eq`): where its check goes on, ends or fails is where the other one goes
on, ends or replaces (`Valid.pushBytes_of_ok`, `Valid.exists_of_checkFrom_eq_error`,
`settle_eq`). -/

namespace StreamedUi.Text

/-- Bytes that a reader may hold: a beginning that is not yet a character. -/
def Unfinished (held : List UInt8) : Prop := Chain held ∧ (continuation? held).isSome

namespace Utf8Reader

/-- A reader that holds what it may hold. -/
def Valid (r : Utf8Reader) : Prop := r.held = [] ∨ Unfinished r.held

theorem Valid.empty : Valid .empty := .inl rfl

/-! ## The reader -/

/-- One byte where a character may begin. -/
def start (b : UInt8) : Utf8Reader × List Char :=
  if b < 0x80 then (empty, [Char.ofNat b.toNat])
  else if (continuation? [b]).isSome then (⟨[b]⟩, [])
  else (empty, [replacement])

/-- One byte more, and the characters that it settles. -/
def step (r : Utf8Reader) (b : UInt8) : Utf8Reader × List Char :=
  match continuation? r.held with
  | none => start b
  | some (low, high) =>
    if low ≤ b && b ≤ high then
      let held := r.held ++ [b]
      if (continuation? held).isSome then (⟨held⟩, []) else (empty, [Char.ofNat (codePoint held)])
    else
      let (next, cs) := start b
      (next, replacement :: cs)

/-- Bytes one after the other, and the characters that they settle. -/
def pushBytes (r : Utf8Reader) : List UInt8 → Utf8Reader × List Char
  | [] => (r, [])
  | b :: bs =>
    let (r', cs) := r.step b
    let (r'', cs') := r'.pushBytes bs
    (r'', cs ++ cs')

theorem pushBytes_cons (r : Utf8Reader) (b : UInt8) (bs : List UInt8) :
    r.pushBytes (b :: bs) = (((r.step b).1.pushBytes bs).1,
      (r.step b).2 ++ ((r.step b).1.pushBytes bs).2) := rfl

theorem pushBytes_append (r : Utf8Reader) (bs bs' : List UInt8) :
    r.pushBytes (bs ++ bs') = (((r.pushBytes bs).1.pushBytes bs').1,
      (r.pushBytes bs).2 ++ ((r.pushBytes bs).1.pushBytes bs').2) := by
  induction bs generalizing r with
  | nil => rfl
  | cons b bs ih => rw [List.cons_append, pushBytes_cons, ih, pushBytes_cons, List.append_assoc]

end Utf8Reader

open Utf8Reader

variable {held : List UInt8} {b : UInt8}

/-! ## One byte of a check -/

theorem step_of_continuation?_eq_none (h : continuation? held = none) (b : UInt8) :
    step ⟨held⟩ b = start b := by
  rw [step, h]

theorem step_empty (b : UInt8) : Utf8Reader.empty.step b = start b :=
  step_of_continuation?_eq_none rfl b

theorem mayFollow_iff (hne : held ≠ []) : mayFollow held b = true ↔ Follows held b := by
  obtain ⟨a, held, rfl⟩ := List.exists_cons_of_ne_nil hne
  rw [mayFollow.eq_2 _ _ (List.cons_ne_nil a held), Option.any_eq_true, Follows, Prod.exists]
  simp only [Bool.and_eq_true, decide_eq_true_eq]

theorem mayFollow_nil_iff : mayFollow [] b = true ↔ b < 0x80 ∨ (continuation? [b]).isSome := by
  rw [mayFollow, Bool.or_eq_true, decide_eq_true_eq]

theorem not_isSome_of_lt (h : b < 0x80) : ¬(continuation? [b]).isSome := by
  have hlt : b.toNat < 0x80 := UInt8.lt_iff_toNat_lt.1 h
  rw [isSome_continuation?_singleton]
  omega

/-- A byte that may follow is held, unless it completes a character. -/
theorem Utf8Reader.Valid.step_of_mayFollow (hheld : Valid ⟨held⟩) (hb : mayFollow held b = true) :
    step ⟨held⟩ b = if (continuation? (held ++ [b])).isSome then (⟨held ++ [b]⟩, [])
      else (.empty, [Char.ofNat (codePoint (held ++ [b]))]) := by
  rcases hheld with hnil | hopen
  · obtain rfl : held = [] := hnil
    rw [step_of_continuation?_eq_none rfl, start, List.nil_append]
    by_cases hlt : b < 0x80
    · rw [if_pos hlt, if_neg (not_isSome_of_lt hlt)]
      rfl
    · rw [if_neg hlt, if_pos ((mayFollow_nil_iff.1 hb).resolve_left hlt),
        if_pos ((mayFollow_nil_iff.1 hb).resolve_left hlt)]
  · obtain ⟨low, high, hrange, hlow, hhigh⟩ := (mayFollow_iff hopen.1.ne_nil).1 hb
    have hin : (decide (low ≤ b) && decide (b ≤ high)) = true := by simp [hlow, hhigh]
    rw [step, hrange]
    exact if_pos hin

/-- Where no character may begin with a byte, or go on with it, one part is replaced: the bytes that
were held, or the byte itself. -/
theorem step_of_not_mayFollow_nil (hb : ¬mayFollow [] b = true) :
    step .empty b = (.empty, [replacement]) := by
  rw [mayFollow_nil_iff, not_or] at hb
  rw [step_empty, start, if_neg hb.1, if_neg hb.2]

theorem Unfinished.step_of_not_mayFollow (hheld : Unfinished held)
    (hb : ¬mayFollow held b = true) :
    step ⟨held⟩ b = ((step .empty b).1, replacement :: (step .empty b).2) := by
  obtain ⟨⟨low, high⟩, hrange⟩ := Option.isSome_iff_exists.1 hheld.2
  have hout : ¬(decide (low ≤ b) && decide (b ≤ high)) = true := by
    intro hin
    rw [Bool.and_eq_true, decide_eq_true_eq, decide_eq_true_eq] at hin
    exact hb ((mayFollow_iff hheld.1.ne_nil).2 ⟨low, high, hrange, hin⟩)
  rw [step, hrange, step_empty]
  exact if_neg hout

/-- What is held after a byte that may follow can still become a character. -/
theorem Utf8Reader.Valid.concat (hheld : Valid ⟨held⟩) (hb : mayFollow held b = true) :
    Chain (held ++ [b]) := by
  rcases hheld with hnil | hopen
  · obtain rfl : held = [] := hnil
    exact .one (mayFollow_nil_iff.1 hb)
  · exact .more hopen.1 ((mayFollow_iff hopen.1.ne_nil).1 hb)

/-! ## The result of a check -/

variable {index n bad : Nat} {bs bs' : List UInt8} {cs : List Char}

/-- Where a check begins matters only to what it reports as an error. -/
theorem checkFrom_index (h : checkFrom index held bs = .ok cs) (index' : Nat) :
    checkFrom index' held bs = .ok cs := by
  induction bs generalizing index index' held cs with
  | nil =>
    rw [checkFrom] at h ⊢
    split at h
    · next hnil => rwa [if_pos hnil]
    · cases h
  | cons b bs ih =>
    rw [checkFrom] at h ⊢
    split at h
    · next hb =>
      rw [if_pos hb]
      dsimp only at h ⊢
      split at h
      · next hopen =>
        rw [if_pos hopen]
        exact ih h index'
      · next hclosed =>
        rw [if_neg hclosed]
        cases hrest : checkFrom (index + (held ++ [b]).length) [] bs with
        | ok cs' => rw [ih hrest (index' + (held ++ [b]).length), ← h, hrest]
        | error e => rw [hrest] at h; cases h
    · cases h

/-- A check goes on after the bytes of an unfinished character as it does from their beginning. -/
theorem Unfinished.checkFrom_append (h : Unfinished held) (index : Nat) (bs : List UInt8) :
    checkFrom index [] (held ++ bs) = checkFrom index held bs := by
  obtain ⟨hchain, hopen⟩ := h
  induction hchain generalizing bs with
  | @one b hb =>
    rw [List.cons_append, checkFrom, if_pos (mayFollow_nil_iff.2 hb)]
    exact if_pos hopen
  | @more held b hchain hb ih =>
    rw [List.append_assoc, ih _ hb.isSome, List.singleton_append, checkFrom,
      if_pos ((mayFollow_iff hchain.ne_nil).2 hb)]
    exact if_pos hopen

/-- The bytes of a complete character are sound before sound ones. -/
theorem Utf8Reader.Valid.fromUtf8_append (hheld : Valid ⟨held⟩) (hb : mayFollow held b = true)
    (hclosed : ¬(continuation? (held ++ [b])).isSome) (h : fromUtf8 bs = .ok cs) :
    fromUtf8 (held ++ [b] ++ bs) = .ok (Char.ofNat (codePoint (held ++ [b])) :: cs) := by
  have hstart : fromUtf8 (held ++ [b] ++ bs) = checkFrom 0 held (b :: bs) := by
    rw [List.append_assoc, List.singleton_append]
    rcases hheld with hnil | hopen
    · obtain rfl : held = [] := hnil
      rfl
    · exact hopen.checkFrom_append 0 (b :: bs)
  rw [hstart, checkFrom, if_pos hb]
  dsimp only
  rw [if_neg hclosed, checkFrom_index h]
  rfl

/-- Bytes that pass a check are settled in full. -/
theorem Utf8Reader.Valid.pushBytes_of_ok (hheld : Valid ⟨held⟩)
    (h : checkFrom index held bs = .ok cs) :
    pushBytes ⟨held⟩ bs = (.empty, cs) := by
  induction bs generalizing index held cs with
  | nil =>
    rw [checkFrom] at h
    split at h
    · next hnil =>
      cases h
      rw [List.isEmpty_iff.1 hnil]
      rfl
    · cases h
  | cons b bs ih =>
    rw [checkFrom] at h
    split at h
    · next hb =>
      rw [pushBytes_cons, hheld.step_of_mayFollow hb]
      dsimp only at h
      split at h
      · next hopen =>
        rw [if_pos hopen, ih (.inr ⟨hheld.concat hb, hopen⟩) h]
        rfl
      · next hclosed =>
        cases hrest : checkFrom (index + (held ++ [b]).length) [] bs with
        | error e => rw [hrest] at h; cases h
        | ok cs' =>
          rw [hrest] at h
          cases h
          rw [if_neg hclosed]
          exact congrArg (fun reading : Utf8Reader × List Char => (reading.1, _ :: reading.2))
            (ih .empty hrest)
    · cases h

/-- What becomes of the bytes at which a check stopped: a character that breaks off is held, and
after a part that is replaced the reader begins anew. -/
def afterError (errorLength : Option Nat) (rest : List UInt8) : Utf8Reader × List Char :=
  match errorLength with
  | none => (⟨rest⟩, [])
  | some bad =>
    let (r, cs) := pushBytes .empty (rest.drop bad)
    (r, replacement :: cs)

theorem Unfinished.max_length (h : Unfinished held) : max 1 held.length = held.length :=
  Nat.max_eq_right (List.length_pos_iff.2 h.1.ne_nil)

/-- Bytes that fail a check are sound up to where it says, and are settled up to there. -/
theorem Utf8Reader.Valid.exists_of_checkFrom_eq_error {e : Utf8Error} (hheld : Valid ⟨held⟩)
    (h : checkFrom index held bs = .error e) :
    ∃ front rest cs, held ++ bs = front ++ rest ∧ e.validUpTo = index + front.length ∧
      fromUtf8 front = .ok cs ∧
      pushBytes ⟨held⟩ bs =
        ((afterError e.errorLength rest).1, cs ++ (afterError e.errorLength rest).2) := by
  induction bs generalizing index held with
  | nil =>
    rw [checkFrom] at h
    split at h
    · cases h
    · cases h
      exact ⟨[], held, [], List.append_nil held, rfl, rfl, rfl⟩
  | cons b bs ih =>
    rw [checkFrom] at h
    split at h
    · next hb =>
      rw [pushBytes_cons, hheld.step_of_mayFollow hb]
      dsimp only at h
      split at h
      · next hopen =>
        obtain ⟨front, rest, cs, hbytes, hupTo, hfront, hpush⟩ :=
          ih (.inr ⟨hheld.concat hb, hopen⟩) h
        rw [if_pos hopen, hpush]
        exact ⟨front, rest, cs, by rw [← hbytes, List.append_assoc]; rfl, hupTo, hfront, rfl⟩
      · next hclosed =>
        cases hrest : checkFrom (index + (held ++ [b]).length) [] bs with
        | ok cs => rw [hrest] at h; cases h
        | error e' =>
          rw [hrest] at h
          cases h
          obtain ⟨front, rest, cs, hbytes, hupTo, hfront, hpush⟩ := ih .empty hrest
          rw [if_neg hclosed, show Utf8Reader.empty = ⟨[]⟩ from rfl, hpush]
          refine ⟨held ++ [b] ++ front, rest, _, ?_, ?_, hheld.fromUtf8_append hb hclosed hfront,
            rfl⟩
          · rw [List.append_assoc _ front, ← hbytes]
            simp
          · have hlength : (held ++ [b] ++ front).length = (held ++ [b]).length + front.length :=
              List.length_append
            rw [hupTo, hlength, Nat.add_assoc]
    · next hb =>
      cases h
      refine ⟨[], held ++ b :: bs, [], rfl, rfl, rfl, ?_⟩
      rw [pushBytes_cons]
      rcases hheld with hnil | hopen
      · obtain rfl : held = [] := hnil
        rw [show (⟨[]⟩ : Utf8Reader) = .empty from rfl, step_of_not_mayFollow_nil hb]
        rfl
      · rw [hopen.step_of_not_mayFollow hb, hopen.max_length, afterError, List.drop_left,
          pushBytes_cons]
        rfl

/-! ## Whole chunks -/

theorem soundChars_of_ok (h : fromUtf8 bs = .ok cs) : soundChars bs = cs := by
  rw [soundChars, h]

theorem settle_of_ok (h : fromUtf8 bs = .ok cs) : settle bs = ([], cs) := by
  rw [settle]
  split <;> simp_all

theorem settle_of_cut (h : fromUtf8 bs = .error ⟨n, none⟩) :
    settle bs = (bs.drop n, soundChars (bs.take n)) := by
  rw [settle]
  split <;> simp_all

theorem settle_of_bad (h : fromUtf8 bs = .error ⟨n, some bad⟩) :
    settle bs = ((settle ((bs.drop n).drop bad)).1,
      soundChars (bs.take n) ++ replacement :: (settle ((bs.drop n).drop bad)).2) := by
  rw [settle]
  split <;> simp_all

/-- Checking what is left after each error settles the same as reading byte by byte. -/
theorem settle_eq (bs : List UInt8) :
    settle bs = ((pushBytes .empty bs).1.held, (pushBytes .empty bs).2) := by
  -- What is left after an error is shorter, since the bytes that are replaced are at least one.
  induction hlength : bs.length using Nat.strongRecOn generalizing bs with
  | ind length ih =>
    cases hcheck : fromUtf8 bs with
    | ok cs =>
      have hpush : pushBytes .empty bs = (.empty, cs) := Valid.empty.pushBytes_of_ok hcheck
      rw [settle_of_ok hcheck, hpush]
      rfl
    | error e =>
      obtain ⟨front, rest, cs, hbytes, hupTo, hfront, hpush⟩ :=
        Valid.empty.exists_of_checkFrom_eq_error hcheck
      obtain ⟨n, errorLength⟩ := e
      obtain rfl : bs = front ++ rest := hbytes
      obtain rfl : n = front.length := hupTo.trans (Nat.zero_add _)
      change pushBytes .empty (front ++ rest) = _ at hpush
      rw [hpush]
      cases errorLength with
      | none =>
        rw [settle_of_cut hcheck, List.drop_left, List.take_left, soundChars_of_ok hfront]
        simp [afterError]
      | some bad =>
        have hbounds := bounds_of_checkFrom_eq_error hcheck
        simp only [List.length_append, List.length_nil] at hlength hbounds
        have hshorter : (rest.drop bad).length < length := by
          rw [List.length_drop]
          omega
        rw [settle_of_bad hcheck, List.drop_left, List.take_left, soundChars_of_ok hfront,
          ih _ hshorter _ rfl]
        rfl

namespace Utf8Reader

/-- The bytes of an unfinished character are held until more come. -/
theorem pushBytes_of_unfinished (h : Unfinished held) : empty.pushBytes held = (⟨held⟩, []) := by
  obtain ⟨hchain, hopen⟩ := h
  induction hchain with
  | @one b hb =>
    have hstep := Valid.empty.step_of_mayFollow (mayFollow_nil_iff.2 hb)
    rw [List.nil_append, if_pos hopen] at hstep
    rw [pushBytes_cons, show empty = ⟨[]⟩ from rfl, hstep]
    rfl
  | @more held b hchain hb ih =>
    have hstep := Valid.step_of_mayFollow (.inr ⟨hchain, hb.isSome⟩)
      ((mayFollow_iff hchain.ne_nil).2 hb)
    rw [if_pos hopen] at hstep
    rw [pushBytes_append, ih hb.isSome, pushBytes_cons, hstep]
    rfl

/-- A chunk does to a reader what its bytes do one after the other. -/
theorem Valid.push_eq {r : Utf8Reader} (h : r.Valid) (bs : List UInt8) :
    r.push bs = ((r.pushBytes bs).1, String.ofList (r.pushBytes bs).2) := by
  obtain ⟨held⟩ := r
  have hstart : pushBytes .empty (held ++ bs) = pushBytes ⟨held⟩ bs := by
    rcases h with hnil | hopen
    · obtain rfl : held = [] := hnil
      rfl
    · rw [pushBytes_append, pushBytes_of_unfinished hopen]
      rfl
  rw [push, settle_eq, hstart]

end Utf8Reader

end StreamedUi.Text
