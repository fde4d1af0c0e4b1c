import DirectoryStore.Proofs.Memory.Content

/-!
# Changes by name

A change that is carried out at the node of its name changes one entry and confines what it
does to the part of the tree that it belongs to: outside of it nodes keep their names and
all that they hold.  Parts are given by keys, so spellings play no role.
-/

namespace DirectoryStore
namespace MemoryTree

open DirectoryStore.Tree (entryAt?)

variable {t t' t'' : MemoryTree} {x : NodeId} {r : Rdn} {d up : Dn} {e f : Entry}
variable {attrs : AttributeMap} {base base' k k' : List (List (List String))}

/-- From `t` to `t'` only entries of names that `k` begins have changed, and only nodes whose
    names `base` begins, of which the topmost kept its name. -/
structure Confined (base k : List (List (List String))) (t t' : MemoryTree) : Prop where
  wellFormed : WellFormed t'
  rootDn : t'.rootDn = t.rootDn
  elsewhere : ∀ d : Dn, ¬ k <+: d.key → entryAt? t' d = entryAt? t d
  dn : ∀ x d, ¬ base <+: d.key ∨ d.key = base → (t'.dn x = .ok d ↔ t.dn x = .ok d)
  node : ∀ x d, ¬ base <+: d.key → t.dn x = .ok d → t'.node? x = t.node? x

namespace Confined

theorem refl (h : WellFormed t) : Confined base k t t where
  wellFormed := h
  rootDn := rfl
  elsewhere _ _ := rfl
  dn _ _ _ := Iff.rfl
  node _ _ _ _ := rfl

theorem trans (h : Confined base k t t') (h' : Confined base k t' t'') :
    Confined base k t t'' where
  wellFormed := h'.wellFormed
  rootDn := h'.rootDn.trans h.rootDn
  elsewhere d hd := (h'.elsewhere d hd).trans (h.elsewhere d hd)
  dn x d hd := (h'.dn x d hd).trans (h.dn x d hd)
  node x d hd hx := (h'.node x d hd ((h.dn x d (.inl hd)).mpr hx)).trans (h.node x d hd hx)

/-- What is confined to a part is confined to a larger one. -/
theorem mono (h : Confined base k t t') (hbase : base' <+: base) (hk : k' <+: k) :
    Confined base' k' t t' where
  wellFormed := h.wellFormed
  rootDn := h.rootDn
  elsewhere d hd := h.elsewhere d fun hpre => hd (hk.trans hpre)
  dn x d hd := by
    refine h.dn x d ?_
    rcases hd with hd | hd
    · exact .inl fun hpre => hd (hbase.trans hpre)
    · by_cases hpre : base <+: d.key
      · rw [hd] at hpre ⊢
        exact .inr (hbase.eq_of_length_le hpre.length_le)
      · exact .inl hpre
  node x d hd := h.node x d fun hpre => hd (hbase.trans hpre)

end Confined

theorem lookup_of_entryAt? (h : Linked t) (he : entryAt? t d = some e) :
    ∃ x, Tree.lookup t rootId d = .ok x ∧ t.dn x = .ok e.dn ∧ e.dn.same d = true ∧
      ∃ n, t.node? x = some n ∧ n.attributes = e.attributes := by
  obtain ⟨x, hx, hs⟩ := h.entryAt?_eq_some_iff.mp he
  obtain ⟨hdn, hn⟩ := h.entry_eq_ok_iff.mp hx
  exact ⟨x, h.lookup_eq_ok_iff.mpr ⟨_, hdn, hs⟩, hdn, hs, hn⟩

theorem patch_modify {edits : List Modification} (h : WellFormed t)
    (he : entryAt? t d = some e)
    (hedits : Modification.applyAll edits e.attributes = (attrs, none)) :
    ∃ t', (Tree.patch (.modify d edits)).run t = (.ok (), t') ∧ Confined d.key d.key t t' ∧
      ∀ d', entryAt? t' d' = if d.same d' then some ⟨e.dn, attrs⟩ else entryAt? t d' := by
  obtain ⟨x, hlook, hdn, hs, n, hn, ha⟩ := lookup_of_entryAt? h.linked he
  obtain ⟨t', hset, heff, hf⟩ := setAttributes_live h hn attrs
  have hlook : Tree.lookup t (TreeView.root t) d = .ok x := hlook
  have hkey := Dn.same_iff.mp hs
  have hentry : ∀ d', entryAt? t' d' = if d.same d' then some ⟨e.dn, attrs⟩ else entryAt? t d' :=
    fun d' => by
      rw [heff.entryAt?_eq h.linked hf.rootDn hdn, Dn.same, Dn.same, hkey]
  refine ⟨t', ?_, ⟨hf.wellFormed, hf.rootDn, fun d' hd' => ?_, fun y dy _ => ?_,
    fun y dy hy hdy => ?_⟩, hentry⟩
  · simp only [Tree.patch, Edit.run_bind, Edit.run_look, hlook]
    rw [modify_of_node h.linked hn, ha, hedits]
    simp only [run_setAttributes, Edit.run_change, hset]
  · rw [hentry, if_neg]
    intro hsame
    rw [Dn.same_iff.mp hsame] at hd'
    exact hd' (List.prefix_refl _)
  · exact heff.dn_eq h.linked hf.rootDn y
  · rw [heff y, if_neg]
    rintro rfl
    rw [hdn] at hdy
    cases hdy
    exact hy (hkey ▸ List.prefix_refl _)

theorem patch_add (attrs : AttributeMap) (h : WellFormed t) (hup : entryAt? t up = some f)
    (hnone : entryAt? t (up.child r) = none) :
    ∃ t', (Tree.patch (.add ⟨up.child r, attrs⟩)).run t = (.ok (), t') ∧
      Confined up.key (up.key ++ [r.key]) t t' ∧
      ∀ d, entryAt? t' d =
        if (up.child r).same d then some ⟨f.dn.child r, attrs⟩ else entryAt? t d := by
  obtain ⟨x, hlook, hdn, hs, -⟩ := lookup_of_entryAt? h.linked hup
  obtain ⟨ws, hw, hws⟩ := h.linked.dn_eq_ok_iff.mp hdn
  have hlook : Tree.lookup t (TreeView.root t) up = .ok x := hlook
  have hkey := Dn.same_iff.mp hs
  have hchild : (f.dn.child r).key = (up.child r).key := by simp [hkey]
  have hlong : ¬ (up.key ++ [r.key]) <+: up.key := fun hpre => by
    have := hpre.length_le
    rw [List.length_append, List.length_singleton] at this
    omega
  rcases addChild_cases h hw r attrs with ⟨⟨c, s, hp, hsame⟩, -⟩ | ⟨hfree, new, t', hadd, heff, hf⟩
  · have := h.linked.entryAt?_eq_none_iff.mp hnone c _ (h.linked.dn_of_placed hp hdn)
    rw [Bool.eq_false_iff, Ne, Dn.same_iff, Dn.key_child, Dn.key_child, hkey,
      Rdn.same_iff.mp hsame] at this
    exact absurd rfl this
  · have hentry : ∀ d, entryAt? t' d =
        if (up.child r).same d then some ⟨f.dn.child r, attrs⟩ else entryAt? t d := fun d => by
      rw [heff.entryAt?_eq h.linked hfree hf.rootDn hdn, Dn.same, Dn.same, hchild]
    refine ⟨t', ?_, ⟨hf.wellFormed, hf.rootDn, fun d hd => ?_, fun y dy hy => ?_,
      fun y dy hy hdy => ?_⟩, hentry⟩
    · have habove : Tree.above (up.child r) = .ok up := rfl
      have hleaf : Tree.leaf (up.child r) = .ok r := rfl
      simp [Tree.patch, habove, hleaf, hlook, run_addChild h, hadd]
    · rw [hentry, if_neg]
      intro hsame
      rw [← Dn.same_iff.mp hsame, Dn.key_child] at hd
      exact hd (List.prefix_refl _)
    · rw [heff.dn_eq_ok_iff h.linked hfree hf.rootDn hdn, or_iff_left]
      rintro ⟨-, rfl⟩
      rw [hchild, Dn.key_child] at hy
      rcases hy with hy | hy
      · exact hy (List.prefix_append _ _)
      · rw [hy] at hlong
        exact hlong (List.prefix_refl _)
    · obtain ⟨m, hm⟩ := h.linked.dn_live hdy
      have hne : y ≠ new := by
        rintro rfl
        rw [heff.fresh] at hm
        cases hm
      have hne' : y ≠ x := by
        rintro rfl
        rw [hdn] at hdy
        cases hdy
        exact hy (hkey ▸ List.prefix_refl _)
      rw [heff.node? y, if_neg hne, if_neg hne']

theorem patch_delete (h : WellFormed t) (he : entryAt? t (up.child r) = some e)
    (hroot : t.rootDn.same (up.child r) = false)
    (hleaf : ∀ s, entryAt? t ((up.child r).child s) = none) :
    ∃ t', (Tree.patch (.delete (up.child r))).run t = (.ok (), t') ∧
      Confined up.key (up.key ++ [r.key]) t t' ∧
      ∀ d, entryAt? t' d = if (up.child r).same d then none else entryAt? t d := by
  obtain ⟨x, hlook, hdn, hs, -⟩ := lookup_of_entryAt? h.linked he
  have hlook : Tree.lookup t (TreeView.root t) (up.child r) = .ok x := hlook
  have hkey := Dn.same_iff.mp hs
  rcases h.linked.dn_cases hdn with ⟨-, hd⟩ | ⟨upx, s, dup, hp, hdup, hd⟩
  · rw [hd] at hs
    rw [hs] at hroot
    cases hroot
  · obtain ⟨ws, hw, -⟩ := h.linked.dn_eq_ok_iff.mp hdup
    have hkeys : dup.key = up.key ∧ s.key = r.key := by
      rw [hd, Dn.key_child, Dn.key_child] at hkey
      have := List.append_inj' hkey rfl
      exact ⟨this.1, by simpa using this.2⟩
    rcases deleteChild_cases h hw s with ⟨hfree, -⟩ |
      ⟨c, s', hp', hsame, ⟨⟨y, u, hy⟩, -⟩ | ⟨-, t', hdel, heff, hf⟩⟩
    · have := hfree hp
      rw [Rdn.same_refl] at this
      cases this
    · cases h.linked.distinct hp' hp hsame
      have hdy := h.linked.dn_of_placed hy hdn
      have := h.linked.entryAt?_eq_none_iff.mp (hleaf u) y _ hdy
      rw [Bool.eq_false_iff, Ne, Dn.same_iff, Dn.key_child, Dn.key_child, hkey] at this
      exact absurd rfl this
    · cases h.linked.distinct hp' hp hsame
      have hentry : ∀ d, entryAt? t' d = if (up.child r).same d then none else entryAt? t d :=
        fun d => by rw [heff.entryAt?_eq h.linked hf.rootDn hdn, Dn.same, Dn.same, hkey]
      refine ⟨t', ?_, ⟨hf.wellFormed, hf.rootDn, fun d hd => ?_, fun y dy hy => ?_,
        fun y dy hy hdy => ?_⟩, hentry⟩
      · simp only [Tree.patch, Edit.run_bind, Edit.run_look, hlook]
        rw [delete_of_placed h.linked hp hw]
        simp only [run_deleteChild h, Edit.run_change, hdel]
      · rw [hentry, if_neg]
        intro hsame
        rw [← Dn.same_iff.mp hsame, Dn.key_child] at hd
        exact hd (List.prefix_refl _)
      · rw [heff.dn_eq_ok_iff h.linked hf.rootDn, and_iff_left_of_imp]
        rintro hyd rfl
        rw [hdn] at hyd
        cases hyd
        rw [hkey, Dn.key_child] at hy
        rcases hy with hy | hy
        · exact hy (List.prefix_append _ _)
        · have := congrArg List.length hy
          simp at this
      · have hne : y ≠ x := by
          rintro rfl
          rw [hdn] at hdy
          cases hdy
          rw [hkey, Dn.key_child] at hy
          exact hy (List.prefix_append _ _)
        have hne' : y ≠ upx := by
          rintro rfl
          rw [hdup] at hdy
          cases hdy
          exact hy (hkeys.1 ▸ List.prefix_refl _)
        rw [heff.node? y, if_neg hne, if_neg hne']

/-! ## Sequences of changes -/

/-- All changes of a list succeed. -/
def Patches (cs : List Change) (t t' : MemoryTree) : Prop :=
  (Tree.patchAll cs).run t = (.ok cs.length, t')

theorem Patches.nil : Patches [] t t := rfl

theorem Patches.single {c : Change} (h : (Tree.patch c).run t = (.ok (), t')) :
    Patches [c] t t' := by
  simp [Patches, Tree.patchAll, h]

theorem Patches.append {cs ds : List Change} (h : Patches cs t t') (h' : Patches ds t' t'') :
    Patches (cs ++ ds) t t'' := by
  induction cs generalizing t with
  | nil =>
      cases h
      exact h'
  | cons c cs ih =>
      unfold Patches at h ⊢
      simp only [List.cons_append, Tree.patchAll, Edit.run_bind] at h ⊢
      cases hc : (Tree.patch c).run t with
      | mk res t₁ =>
          rw [hc] at h
          cases res with
          | error err => cases h
          | ok _ =>
              dsimp only at h ⊢
              cases hcs : (Tree.patchAll cs).run t₁ with
              | mk res t₂ =>
                  rw [hcs] at h
                  cases res with
                  | error err => cases h
                  | ok n =>
                      simp only [Edit.run_pure, Prod.mk.injEq, Except.ok.injEq,
                        List.length_cons, Nat.add_right_cancel_iff] at h
                      obtain ⟨rfl, rfl⟩ := h
                      have := ih hcs
                      unfold Patches at this
                      simp [this]

end MemoryTree
end DirectoryStore
