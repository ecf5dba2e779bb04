import Std.Data.ExtHashMap

/-! Maps from strings that keep the order in which their keys first came. The entries determine the
map; an index of their positions makes a look-up fast. -/

namespace StreamedUi

universe u

local instance equivBEqString : EquivBEq String := instEquivBEqOfLawfulBEq

/-- The entries in their order, and an index of their positions that agrees with them. -/
structure OrderedMap (α : Type u) where
  entries : Array (String × α)
  index : Std.ExtHashMap String Nat
  /-- The index has exactly the positions of the keys, so no key comes twice. -/
  index_eq_some_iff : ∀ (k : String) (i : Nat),
    index[k]? = some i ↔ entries[i]?.map Prod.fst = some k

namespace OrderedMap

variable {α : Type u}

/-- No entries. -/
def empty : OrderedMap α := ⟨#[], ∅, by simp⟩

instance : EmptyCollection (OrderedMap α) := ⟨empty⟩

instance : Inhabited (OrderedMap α) := ⟨empty⟩

/-- How many keys the map has. -/
def size (m : OrderedMap α) : Nat := m.entries.size

/-- Whether the map has no keys. -/
def isEmpty (m : OrderedMap α) : Bool := m.entries.isEmpty

/-- The entries in the order in which their keys first came. -/
def toList (m : OrderedMap α) : List (String × α) := m.entries.toList

/-- The value of a key. -/
def get? (m : OrderedMap α) (k : String) : Option α :=
  (m.index[k]?).bind fun i => m.entries[i]?.map Prod.snd

/-- Sets the value of a key: in its place if it is there, else at the end. -/
def insert (m : OrderedMap α) (k : String) (v : α) : OrderedMap α :=
  match h : m.index[k]? with
  | some i =>
    ⟨m.entries.setIfInBounds i (k, v), m.index, by
      intro k' i'
      have hi := (m.index_eq_some_iff k i).1 h
      rw [m.index_eq_some_iff, Array.getElem?_setIfInBounds]
      by_cases hii : i = i'
      · subst hii
        cases he : m.entries[i]? with
        | none => simp [he] at hi
        | some e =>
          have hlt : i < m.entries.size := (Array.getElem?_eq_some_iff.1 he).1
          simp [he] at hi
          simp [hlt, hi]
      · simp [hii]⟩
  | none =>
    ⟨m.entries.push (k, v), m.index.insert k m.entries.size, by
      intro k' i'
      have hfresh : ∀ j : Nat, m.entries[j]?.map Prod.fst ≠ some k := fun j hj => by
        simp [(m.index_eq_some_iff k j).2 hj] at h
      rw [Std.ExtHashMap.getElem?_insert, Array.getElem?_push]
      by_cases hk : k = k'
      · subst hk
        by_cases hi : i' = m.entries.size
        · simp [hi]
        · have := hfresh i'
          simp_all [eq_comm]
      · by_cases hi : i' = m.entries.size
        · subst hi
          have hnone : m.index[k']? ≠ some m.entries.size := fun hc => by
            have := (m.index_eq_some_iff k' _).1 hc
            simp at this
          simp [hk, hnone]
        · simp [hk, hi, m.index_eq_some_iff]⟩

/-- What is found under a key stands among the entries. -/
theorem mem_toList_of_get? {m : OrderedMap α} {k : String} {v : α} (h : m.get? k = some v) :
    (k, v) ∈ m.toList := by
  obtain ⟨i, hi, hv⟩ := Option.bind_eq_some_iff.1 h
  have hk := (m.index_eq_some_iff k i).1 hi
  obtain ⟨⟨k', v'⟩, he, rfl⟩ := Option.map_eq_some_iff.1 hv
  obtain rfl : k' = k := by simpa [he] using hk
  exact Array.mem_toList_iff.2 (Array.mem_of_getElem? he)

/-- Of entries with one key the last value counts, at the place of the first. -/
def ofList (entries : List (String × α)) : OrderedMap α :=
  entries.foldl (fun m (k, v) => m.insert k v) ∅

end OrderedMap

end StreamedUi
