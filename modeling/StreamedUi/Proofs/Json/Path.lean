import StreamedUi.Json.Path
import StreamedUi.Proofs.Numeric.Shortest
import StreamedUi.Proofs.Text.Search

/-! Paths into a JSON value, taken apart and put together. A path with a slash in it finds what its
second part finds in what its first part finds, wherever the slash is, and what is reached by
members and items is found by the names on the way with slashes between them (`at?_compose`). -/

namespace StreamedUi.Json

open Numeric

/-- The name stands for itself in a path. -/
def IsSegment (name : String) : Prop := name ≠ "" ∧ '/' ∉ name.toList

instance (name : String) : Decidable (IsSegment name) := inferInstanceAs (Decidable (_ ∧ _))

variable {name : String} {names : List String}

theorem segments_slash (p q : String) : segments (p ++ "/" ++ q) = segments p ++ segments q := by
  have htext : (p ++ "/" ++ q).toList = p.toList ++ '/' :: q.toList := by simp
  rw [segments, htext, Text.splitOn_append_cons, List.filter_append, List.map_append]
  rfl

theorem IsSegment.segments_eq (h : IsSegment name) : segments name = [name] := by
  have hne : name.toList ≠ [] := mt String.toList_eq_nil_iff.1 h.1
  rw [segments, Text.splitOn_of_notMem h.2, List.filter_cons_of_pos (by simpa using hne),
    List.filter_nil, List.map_singleton, String.ofList_toList]

/-- Names with slashes between them are found again. -/
theorem segments_intercalate (h : ∀ name ∈ names, IsSegment name) :
    segments ("/".intercalate names) = names := by
  induction names with
  | nil => rfl
  | cons name names ih =>
    obtain ⟨hname, hnames⟩ := List.forall_mem_cons.1 h
    cases names with
    | nil => rw [String.intercalate_singleton, hname.segments_eq]
    | cons next names =>
      rw [String.intercalate_cons_cons, segments_slash, hname.segments_eq, ih hnames]
      rfl

/-! ## Indices -/

theorem toList_toString (i : Nat) : (toString i).toList = digitChars i := Nat.toList_repr

theorem isSegment_toString (i : Nat) : IsSegment (toString i) := by
  constructor
  · rw [Ne, ← String.toList_eq_nil_iff, toList_toString]
    exact Nat.toDigits_ne_nil
  · rw [toList_toString]
    exact fun h => absurd (isDigit_of_mem_digitChars h) (by decide)

/-- No digit is taken for a sign. -/
theorem index?_toString (i : Nat) : index? (toString i) = some i := by
  have hsign : ∀ cs, digitChars i ≠ '+' :: cs := fun cs hcs => by
    have hplus : '+' ∈ digitChars i := hcs ▸ List.mem_cons_self
    exact absurd (isDigit_of_mem_digitChars hplus) (by decide)
  have hdigits : (digitChars i).all Char.isDigit = true :=
    List.all_eq_true.2 fun _ => isDigit_of_mem_digitChars
  have hne : (digitChars i).isEmpty = false := List.isEmpty_eq_false_iff.2 Nat.toDigits_ne_nil
  rw [index?, toList_toString]
  split
  · next hcs => exact absurd hcs (hsign _)
  · rw [hne, hdigits, ofDigitChars_digitChars]
    rfl

namespace Value

/-- The names lead from value to value, each to a member of an object or to an item of an array. -/
inductive LeadsTo : Value → List String → Value → Prop
  | here {v : Value} : LeadsTo v [] v
  | member {members : List (String × Value)} {name : String} {v w : Value} {names : List String} :
    IsSegment name → members.lookup name = some v → LeadsTo v names w →
    LeadsTo (.object members) (name :: names) w
  | item {items : List Value} {i : Nat} {v w : Value} {names : List String} :
    items[i]? = some v → LeadsTo v names w → LeadsTo (.array items) (toString i :: names) w

namespace LeadsTo

variable {v w : Value}

theorem isSegment (h : LeadsTo v names w) : ∀ name ∈ names, IsSegment name := by
  induction h with
  | here => exact fun _ hname => absurd hname List.not_mem_nil
  | member hname _ _ ih => exact List.forall_mem_cons.2 ⟨hname, ih⟩
  | item _ _ ih => exact List.forall_mem_cons.2 ⟨isSegment_toString _, ih⟩

theorem foldlM_step? (h : LeadsTo v names w) : names.foldlM step? v = some w := by
  induction h with
  | here => rfl
  | member _ hlookup _ ih =>
    rw [List.foldlM_cons, step?, hlookup]
    exact ih
  | item hitem _ ih =>
    rw [List.foldlM_cons, step?, index?_toString, Option.bind_some, hitem]
    exact ih

end LeadsTo

theorem at?_empty (v : Value) : v.at? "" = some v := rfl

theorem at?_slash (v : Value) (p q : String) :
    v.at? (p ++ "/" ++ q) = (v.at? p).bind (·.at? q) := by
  rw [at?, segments_slash, List.foldlM_append]
  rfl

theorem at?_leadingSlash (v : Value) (p : String) : v.at? ("/" ++ p) = v.at? p := by
  rw [← String.empty_append (s := "/"), at?_slash, at?_empty, Option.bind_some]

theorem at?_trailingSlash (v : Value) (p : String) : v.at? (p ++ "/") = v.at? p := by
  rw [← String.append_empty (s := p ++ "/"), at?_slash]
  exact Option.bind_fun_some (v.at? p)

theorem at?_doubledSlash (v : Value) (p q : String) :
    v.at? (p ++ "//" ++ q) = v.at? (p ++ "/" ++ q) := by
  have hslashes : "//" = "/" ++ "/" := rfl
  rw [hslashes, ← String.append_assoc, at?_slash, at?_trailingSlash, at?_slash]

/-- Paths compose at each slash, slashes count only where they part names, and the names on a way
through members and items are a path of its end. -/
theorem at?_compose (v : Value) :
    (∀ p q, v.at? (p ++ "/" ++ q) = (v.at? p).bind (·.at? q)) ∧
      (∀ p, v.at? ("/" ++ p) = v.at? p ∧ v.at? (p ++ "/") = v.at? p) ∧
      (∀ p q, v.at? (p ++ "//" ++ q) = v.at? (p ++ "/" ++ q)) ∧
      ∀ names w, v.LeadsTo names w → v.at? ("/".intercalate names) = some w := by
  refine ⟨v.at?_slash, fun p => ⟨v.at?_leadingSlash p, v.at?_trailingSlash p⟩,
    v.at?_doubledSlash, fun names w h => ?_⟩
  rw [at?, segments_intercalate h.isSegment]
  exact h.foldlM_step?

/-- A member of it, an item of that and a member further down all have the same name. -/
def shelf : Value :=
  .object [("1", .array [.null, .object [("a b", .object [("1", .bool true)])]])]

theorem at?_compose_shelf :
    shelf.LeadsTo ["1", "1", "a b", "1"] (.bool true) ∧
      shelf.at? "1/1/a b/1" = some (.bool true) := by
  have hbottom : (object [("1", .bool true)]).LeadsTo ["1"] (.bool true) :=
    .member (by decide) rfl .here
  have hitem : (array [.null, .object [("a b", .object [("1", .bool true)])]]).LeadsTo
      [toString 1, "a b", "1"] (.bool true) :=
    .item rfl (.member (by decide) rfl hbottom)
  have h : shelf.LeadsTo ["1", "1", "a b", "1"] (.bool true) := .member (by decide) rfl hitem
  exact ⟨h, (at?_compose shelf).2.2.2 _ _ h⟩

end Value

end StreamedUi.Json
