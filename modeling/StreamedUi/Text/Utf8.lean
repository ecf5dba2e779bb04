/-! Reading UTF-8 from bytes that arrive piecemeal. A check of bytes finds where they stop being
UTF-8, and whether what stands there can be no part of a character or only breaks off too early. The
reader checks what it has over and over: text that is sound is settled, what can be no part of a
character is read as U+FFFD, and a character that breaks off is held until more bytes come. -/

namespace StreamedUi.Text

/-- The bytes that may follow `held`, a possibly empty beginning of a character, as a range. Nothing
may follow a complete character or bytes that begin none. -/
def continuation? : List UInt8 → Option (UInt8 × UInt8)
  | [b] =>
    if 0xC2 ≤ b && b ≤ 0xDF then some (0x80, 0xBF)
    else if b == 0xE0 then some (0xA0, 0xBF)
    else if b == 0xED then some (0x80, 0x9F)
    else if 0xE1 ≤ b && b ≤ 0xEF then some (0x80, 0xBF)
    else if b == 0xF0 then some (0x90, 0xBF)
    else if 0xF1 ≤ b && b ≤ 0xF3 then some (0x80, 0xBF)
    else if b == 0xF4 then some (0x80, 0x8F)
    else none
  | [b, _] => if 0xE0 ≤ b then some (0x80, 0xBF) else none
  | [b, _, _] => if 0xF0 ≤ b then some (0x80, 0xBF) else none
  | _ => none

/-- The code point that a complete sequence of bytes stands for. -/
def codePoint : List UInt8 → Nat
  | [a] => a.toNat
  | [a, b] => (a.toNat - 0xC0) * 64 + (b.toNat - 0x80)
  | [a, b, c] => ((a.toNat - 0xE0) * 64 + (b.toNat - 0x80)) * 64 + (c.toNat - 0x80)
  | [a, b, c, d] =>
    (((a.toNat - 0xF0) * 64 + (b.toNat - 0x80)) * 64 + (c.toNat - 0x80)) * 64 + (d.toNat - 0x80)
  | _ => 0

/-- Stands for bytes that are no part of a character. -/
def replacement : Char := '\uFFFD'

/-- Whether the byte may come after the bytes `held` of a character, or begin one if there are
none. -/
def mayFollow (held : List UInt8) (b : UInt8) : Bool :=
  match held with
  | [] => b < 0x80 || (continuation? [b]).isSome
  | _ => (continuation? held).any fun (low, high) => low ≤ b && b ≤ high

/-- Where bytes stop being UTF-8. -/
structure Utf8Error where
  /-- How many bytes before are sound. -/
  validUpTo : Nat
  /-- How many bytes from there on can be no part of a character; none if the bytes end within
  one. -/
  errorLength : Option Nat
  deriving DecidableEq, Repr

/-- Checks bytes that come after the bytes `held` of a character, which begins at `index`. -/
def checkFrom (index : Nat) (held : List UInt8) : List UInt8 → Except Utf8Error (List Char)
  | [] => if held.isEmpty then .ok [] else .error ⟨index, none⟩
  | b :: bs =>
    if mayFollow held b then
      let held := held ++ [b]
      if (continuation? held).isSome then checkFrom index held bs
      else (checkFrom (index + held.length) [] bs).map (Char.ofNat (codePoint held) :: ·)
    else .error ⟨index, some (max 1 held.length)⟩

/-- The characters that bytes encode, or where they stop being UTF-8. -/
def fromUtf8 (bytes : List UInt8) : Except Utf8Error (List Char) := checkFrom 0 [] bytes

/-- The characters of sound bytes. -/
def soundChars (bytes : List UInt8) : List Char :=
  match fromUtf8 bytes with
  | .ok cs => cs
  | .error _ => []

/-- What can be no part of a character is at least one byte, and the bytes have it. -/
theorem bounds_of_checkFrom_eq_error {index n bad : Nat} {held bs : List UInt8}
    (h : checkFrom index held bs = .error ⟨n, some bad⟩) :
    0 < bad ∧ n < index + held.length + bs.length := by
  induction bs generalizing index held with
  | nil =>
    unfold checkFrom at h
    split at h <;> cases h
  | cons b bs ih =>
    unfold checkFrom at h
    rw [List.length_cons]
    split at h
    · dsimp only at h
      split at h
      · have := ih h
        rw [List.length_append, List.length_singleton] at this
        omega
      · cases hrest : checkFrom (index + (held ++ [b]).length) [] bs with
        | ok cs => rw [hrest] at h; cases h
        | error e =>
          rw [hrest] at h
          cases h
          have := ih hrest
          rw [List.length_append, List.length_singleton, List.length_nil] at this
          omega
    · cases h
      omega

/-- The bytes that are left over, if they end within a character, and the characters before them. -/
def settle (rest : List UInt8) : List UInt8 × List Char :=
  match _h : fromUtf8 rest with
  | .ok cs => ([], cs)
  | .error ⟨validUpTo, none⟩ => (rest.drop validUpTo, soundChars (rest.take validUpTo))
  | .error ⟨validUpTo, some bad⟩ =>
    let (tail, cs) := settle ((rest.drop validUpTo).drop bad)
    (tail, soundChars (rest.take validUpTo) ++ replacement :: cs)
  termination_by rest.length
  decreasing_by
    have := bounds_of_checkFrom_eq_error _h
    simp only [List.length_drop, List.length_nil] at this ⊢
    omega

/-- The text of bytes after which nothing comes. -/
def lossyText (bytes : List UInt8) : String :=
  let (tail, cs) := settle bytes
  String.ofList (if tail.isEmpty then cs else cs ++ [replacement])

/-- A reader of bytes, with the beginning of a character that it holds. -/
structure Utf8Reader where
  held : List UInt8 := []
  deriving DecidableEq, Repr

namespace Utf8Reader

/-- A reader at the start of its input. -/
def empty : Utf8Reader := {}

/-- Whether the beginning of a character is held. -/
def isPending (r : Utf8Reader) : Bool := !r.held.isEmpty

/-- A chunk of bytes, and the text that it settles. -/
def push (r : Utf8Reader) (bytes : List UInt8) : Utf8Reader × String :=
  let (tail, cs) := settle (r.held ++ bytes)
  (⟨tail⟩, String.ofList cs)

/-- The end of the input: what is still held never becomes a character. -/
def finish (r : Utf8Reader) : Utf8Reader × String := (empty, lossyText r.held)

end Utf8Reader

end StreamedUi.Text
