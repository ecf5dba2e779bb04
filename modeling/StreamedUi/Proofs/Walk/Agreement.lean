import StreamedUi.Proofs.Walk.Recursive

/-! What a walk depends on: the root, and what is found under the keys that child entries lead to
from there (`Tree.AgreesWith.walk_eq`). Elements that no entry leads to, the order of the elements
and the version are not seen. -/

namespace StreamedUi

namespace Tree

/-- The keys that child entries lead to from the root, whether or not they are there. -/
inductive Mentions (t : Tree) : String → Prop
  | root {key : String} : t.root = some key → t.Mentions key
  | child {key child : String} {e : Element} : t.Mentions key → t.get? key = some e →
    child ∈ e.childKeys → t.Mentions child

/-- The trees have the same root, and the same is found in both under each key that the first one
mentions. -/
structure AgreesWith (t t' : Tree) : Prop where
  root : t.root = t'.root
  get? : ∀ key, t.Mentions key → t.get? key = t'.get? key

end Tree

namespace Tree.AgreesWith

open Walk

variable {t t' : Tree}

theorem of_get? (hroot : t.root = t'.root) (hget : ∀ key, t.get? key = t'.get? key) :
    t.AgreesWith t' :=
  ⟨hroot, fun key _ => hget key⟩

theorem follow_eq (h : t.AgreesWith t') (above : List String) (key : String) (e : Element)
    (entries : List String) (hkey : t.Mentions key) (hget : t.get? key = some e)
    (hentries : entries ⊆ e.childKeys) :
    follow t above key e entries = follow t' above key e entries := by
  fun_induction follow t above key e entries with
  | case1 above key e => rw [follow_nil]
  | case2 above key e child rest hpath ih =>
    rw [follow_cut hpath, ih hkey hget (List.subset_of_cons_subset hentries)]
  | case3 above key e child rest hpath hnone ih =>
    have hchild := hkey.child hget (hentries List.mem_cons_self)
    rw [h.get? child hchild] at hnone
    rw [follow_skip hpath hnone, ih hkey hget (List.subset_of_cons_subset hentries)]
  | case4 above key e child rest hpath c hc ihc ih =>
    have hchild := hkey.child hget (hentries List.mem_cons_self)
    have hc' := (h.get? child hchild).symm.trans hc
    rw [follow_enter hpath hc', descend, ihc hchild hc (List.Subset.refl _),
      ih hkey hget (List.subset_of_cons_subset hentries)]
    rfl

/-- The walks from the root meet the same elements and the same cycles. -/
theorem walk_eq (h : t.AgreesWith t') : t.walk none = t'.walk none := by
  have hstart : t.walkStart? none = t'.walkStart? none := by
    unfold walkStart?
    rw [← h.root]
    cases hroot : t.root with
    | none => rfl
    | some root =>
      simp only [Option.getD_none, Option.bind_eq_bind, Option.bind_some]
      rw [h.get? root (.root hroot)]
  cases hkey : t.walkStart? none with
  | none => rw [walk_eq_none hkey, walk_eq_none (hstart ▸ hkey)]
  | some key =>
    obtain ⟨root, -, hroot, rfl, -⟩ := walkStart?_eq_some hkey
    obtain ⟨e, he, hwalk⟩ := walk_eq_descend hkey
    obtain ⟨e', he', hwalk'⟩ := walk_eq_descend (hstart ▸ hkey)
    have hmentions : t.Mentions (none.getD root) := .root hroot
    have hsame := h.get? _ hmentions
    rw [he, he', Option.some.injEq] at hsame
    subst hsame
    rw [hwalk, hwalk', descend, descend,
      h.follow_eq _ _ _ _ hmentions he (List.Subset.refl _)]

end Tree.AgreesWith

end StreamedUi
