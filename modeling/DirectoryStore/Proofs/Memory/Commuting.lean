import DirectoryStore.Proofs.Memory.Failure
import DirectoryStore.Proofs.Memory.Mapping
import DirectoryStore.Proofs.Memory.Patch

/-!
# Changes of unrelated entries

What a change by name comes to, the fault included, can be told from the entries that the tree
holds at its name, one level above and one level below, and it changes nothing but what the
tree holds at its name.  So two changes of which neither name contains the other do not see
each other: they may be carried out in either order.  The tables of the two trees that this
gives may differ: a slot freed by one change is there for the other only if it comes later.
-/

namespace DirectoryStore
namespace MemoryTree

open DirectoryStore.Tree (entryAt?)

variable {t : MemoryTree} {d top : Dn} {e : Entry} {c c' : Change} {edits : List Modification}
variable {m m' : Dn → Option Entry} {out out' : Except TreeError (Option Entry)}

/-- What a change comes to in a tree whose root has the name `top` and which holds the entries
    `m`: its fault, or what it leaves at its name. -/
inductive Outcome (top : Dn) (m : Dn → Option Entry) :
    Change → Except TreeError (Option Entry) → Prop where
  | modifyMissing {d : Dn} {edits : List Modification} : m d = none →
      Outcome top m (.modify d edits) (.error (.notFound d))
  | modifyRefused {d : Dn} {edits : List Modification} {e : Entry} {a : AttributeMap}
      {err : EntryError} : m d = some e →
      Modification.applyAll edits e.attributes = (a, some err) →
      Outcome top m (.modify d edits) (.error (.entry err))
  | modified {d : Dn} {edits : List Modification} {e : Entry} {a : AttributeMap} :
      m d = some e →
      Modification.applyAll edits e.attributes = (a, none) →
      Outcome top m (.modify d edits) (.ok (some ⟨e.dn, a⟩))
  | deleteMissing {d : Dn} : m d = none → Outcome top m (.delete d) (.error (.notFound d))
  | deleteRoot {d : Dn} {e : Entry} : m d = some e → top.same d = true →
      Outcome top m (.delete d) (.error (.rootStays top))
  | deleteInner {d : Dn} {e f : Entry} {r : Rdn} : m d = some e → top.same d = false →
      m (d.child r) = some f → Outcome top m (.delete d) (.error (.notLeaf e.dn))
  | deleted {d : Dn} {e : Entry} : m d = some e → top.same d = false →
      (∀ r, m (d.child r) = none) → Outcome top m (.delete d) (.ok none)
  | addUnnamed {a : AttributeMap} : Outcome top m (.add ⟨.empty, a⟩) (.error (.name .emptyDn))
  | addOrphan {r : Rdn} {rs : List Rdn} {a : AttributeMap} : m ⟨rs⟩ = none →
      Outcome top m (.add ⟨⟨r :: rs⟩, a⟩) (.error (.notFound ⟨rs⟩))
  | addTaken {r : Rdn} {rs : List Rdn} {a : AttributeMap} {f e : Entry} : m ⟨rs⟩ = some f →
      m ⟨r :: rs⟩ = some e →
      Outcome top m (.add ⟨⟨r :: rs⟩, a⟩) (.error (.alreadyExists (f.dn.child r)))
  | added {r : Rdn} {rs : List Rdn} {a : AttributeMap} {f : Entry} : m ⟨rs⟩ = some f →
      m ⟨r :: rs⟩ = none →
      Outcome top m (.add ⟨⟨r :: rs⟩, a⟩) (.ok (some ⟨f.dn.child r, a⟩))

/-- The entries that there are after a change came to what it came to. -/
def entriesAfter (c : Change) (m : Dn → Option Entry) :
    Except TreeError (Option Entry) → Dn → Option Entry
  | .error _, d => m d
  | .ok left, d => if c.dn.same d then left else m d

theorem entriesAfter_of_not_same (h : c.dn.same d = false) : entriesAfter c m out d = m d := by
  cases out with
  | error _ => rfl
  | ok left => simp [entriesAfter, h]

namespace Outcome

theorem unique (h : Outcome top m c out) (h' : Outcome top m c out') : out = out' := by
  cases h <;> cases h' <;> simp_all

/-- Entries elsewhere play no role. -/
theorem congr (h : Outcome top m c out)
    (hm : ∀ d, c.dn.contains d = true ∨ d.contains c.dn = true → m' d = m d) :
    Outcome top m' c out := by
  have hat := hm c.dn (.inl (Dn.contains_refl _))
  have hbelow : ∀ r, m' (c.dn.child r) = m (c.dn.child r) := fun r =>
    hm _ (.inl (Dn.contains_child c.dn r))
  have habove : ∀ r rs, c.dn = ⟨r :: rs⟩ → m' ⟨rs⟩ = m ⟨rs⟩ := fun r rs hd =>
    hm _ (.inr (hd ▸ Dn.contains_child ⟨rs⟩ r))
  cases h with
  | modifyMissing h => exact .modifyMissing (hat.trans h)
  | modifyRefused h ha => exact .modifyRefused (hat.trans h) ha
  | modified h ha => exact .modified (hat.trans h) ha
  | deleteMissing h => exact .deleteMissing (hat.trans h)
  | deleteRoot h hroot => exact .deleteRoot (hat.trans h) hroot
  | deleteInner h hroot hf => exact .deleteInner (hat.trans h) hroot ((hbelow _).trans hf)
  | deleted h hroot hleaf => exact .deleted (hat.trans h) hroot fun r => (hbelow r).trans (hleaf r)
  | addUnnamed => exact .addUnnamed
  | addOrphan h => exact .addOrphan ((habove _ _ rfl).trans h)
  | addTaken h htaken => exact .addTaken ((habove _ _ rfl).trans h) (hat.trans htaken)
  | added h hfree => exact .added ((habove _ _ rfl).trans h) (hat.trans hfree)

/-- What a change comes to is the same after a change of an unrelated entry. -/
theorem after (h : Outcome top m c out) (hc : c.dn.contains c'.dn = false)
    (hc' : c'.dn.contains c.dn = false) : Outcome top (entriesAfter c' m out') c out := by
  refine h.congr fun d hd => entriesAfter_of_not_same ?_
  rw [Bool.eq_false_iff]
  intro hs
  rcases hd with hd | hd
  · rw [Dn.contains_trans hd (Dn.contains_of_same (Dn.same_symm hs))] at hc
    cases hc
  · rw [Dn.contains_trans (Dn.contains_of_same hs) hd] at hc'
    cases hc'

end Outcome

/-! ## Changes by name -/

/-- A change comes to `out`, in its answer and in the entries afterwards. -/
def ComesTo (t : MemoryTree) (c : Change) (out : Except TreeError (Option Entry)) : Prop :=
  ((Tree.patch c).run t).1 = out.map (fun _ => ()) ∧
    ∀ d, entryAt? ((Tree.patch c).run t).2 d = entriesAfter c (entryAt? t) out d

theorem ComesTo.of_error {err : TreeError} (h : (Tree.patch c).run t = (.error err, t)) :
    ComesTo t c (.error err) := by
  rw [ComesTo, h]
  exact ⟨rfl, fun _ => rfl⟩

theorem ComesTo.of_ok {t' : MemoryTree} {left : Option Entry}
    (h : (Tree.patch c).run t = (.ok (), t'))
    (hleft : ∀ d, entryAt? t' d = if c.dn.same d then left else entryAt? t d) :
    ComesTo t c (.ok left) := by
  rw [ComesTo, h]
  exact ⟨rfl, hleft⟩

theorem lookup_of_entryAt?_eq_none (h : Linked t) (hd : entryAt? t d = none) :
    Tree.lookup t (TreeView.root t) d = .error (.notFound d) := by
  rcases h.lookup_root_cases d with ⟨x, rs, -, hw, hs⟩ | ⟨herr, -⟩
  · have := h.entryAt?_eq_none_iff.mp hd x _ (h.dn_of_way hw)
    rw [hs] at this
    cases this
  · exact herr

theorem patch_modify_outcome (h : WellFormed t) (d : Dn) (edits : List Modification) :
    ∃ out, Outcome t.rootDn (entryAt? t) (.modify d edits) out ∧
      ComesTo t (.modify d edits) out := by
  cases he : entryAt? t d with
  | none =>
      refine ⟨_, .modifyMissing he, .of_error ?_⟩
      simp only [Tree.patch, Edit.run_bind, Edit.run_look, lookup_of_entryAt?_eq_none h.linked he]
  | some e =>
      rcases happly : Modification.applyAll edits e.attributes with ⟨a, _ | err⟩
      · obtain ⟨t', hrun, -, hat⟩ := patch_modify h he happly
        exact ⟨_, .modified he happly, .of_ok hrun hat⟩
      · obtain ⟨x, hlook, -, -, n, hn, ha⟩ := lookup_of_entryAt? h.linked he
        have hlook : Tree.lookup t (TreeView.root t) d = .ok x := hlook
        refine ⟨_, .modifyRefused he happly, .of_error ?_⟩
        simp only [Tree.patch, Edit.run_bind, Edit.run_look, hlook]
        rw [modify_of_node h.linked hn, ha, happly]

theorem patch_delete_inner {r : Rdn} {f : Entry} (h : WellFormed t) (he : entryAt? t d = some e)
    (hroot : t.rootDn.same d = false) (hf : entryAt? t (d.child r) = some f) :
    (Tree.patch (.delete d)).run t = (.error (.notLeaf e.dn), t) := by
  have hl := h.linked
  obtain ⟨x, hlook, hdn, hs, -⟩ := lookup_of_entryAt? hl he
  have hlook : Tree.lookup t (TreeView.root t) d = .ok x := hlook
  simp only [Tree.patch, Edit.run_bind, Edit.run_look, hlook]
  rcases hl.dn_cases hdn with ⟨-, hd⟩ | ⟨up, s, dup, hp, hdup, hd⟩
  · rw [hd, hroot] at hs
    cases hs
  · obtain ⟨ws, hw, rfl⟩ := hl.dn_eq_ok_iff.mp hdup
    rw [delete_of_placed hl hp hw, run_deleteChild h, Edit.run_change]
    rcases deleteChild_cases h hw s with ⟨hfree, -⟩ | ⟨y, u, hp', hsame, hcases⟩
    · have := hfree hp
      rw [Rdn.same_refl] at this
      cases this
    · cases hl.distinct hp' hp hsame
      obtain ⟨-, rfl⟩ := hp'.unique hp
      rcases hcases with ⟨-, herr⟩ | ⟨hleaf, -⟩
      · rw [herr, hd]
        rfl
      · have hkey : (d.child r).key = e.dn.key ++ [r.key] := by
          rw [Dn.key_child, Dn.same_iff.mp hs]
        have hpre : e.dn.key ++ [r.key] <+: (d.child r).key := hkey ▸ List.prefix_refl _
        obtain ⟨z, v, hz, -⟩ := hl.exists_child hdn hf hpre
        exact absurd hz hleaf

theorem patch_delete_outcome (h : WellFormed t) (d : Dn) :
    ∃ out, Outcome t.rootDn (entryAt? t) (.delete d) out ∧ ComesTo t (.delete d) out := by
  have hl := h.linked
  cases he : entryAt? t d with
  | none =>
      refine ⟨_, .deleteMissing he, .of_error ?_⟩
      simp only [Tree.patch, Edit.run_bind, Edit.run_look, lookup_of_entryAt?_eq_none hl he]
  | some e =>
      obtain ⟨x, hlook, hdn, hs, -⟩ := lookup_of_entryAt? hl he
      have hlook : Tree.lookup t (TreeView.root t) d = .ok x := hlook
      cases hroot : t.rootDn.same d with
      | true =>
          cases hl.eq_of_same hdn hl.dn_root (Dn.same_trans hs (Dn.same_symm hroot))
          refine ⟨_, .deleteRoot he hroot, .of_error ?_⟩
          simp only [Tree.patch, Edit.run_bind, Edit.run_look, hlook]
          exact delete_root hl
      | false =>
          by_cases hinner : ∃ r f, entryAt? t (d.child r) = some f
          · obtain ⟨r, f, hf⟩ := hinner
            exact ⟨_, .deleteInner he hroot hf, .of_error (patch_delete_inner h he hroot hf)⟩
          · have hleaf : ∀ r, entryAt? t (d.child r) = none := fun r =>
              Option.eq_none_iff_forall_ne_some.mpr fun f hf => hinner ⟨r, f, hf⟩
            -- the empty name leads to no node but the root
            obtain ⟨rdns⟩ := d
            cases rdns with
            | nil =>
                obtain ⟨rs, -, hrs⟩ := hl.dn_eq_ok_iff.mp hdn
                have hkey := Dn.same_iff.mp hs
                rw [hrs, Dn.key_append] at hkey
                have := (List.append_eq_nil_iff.mp hkey).1
                rw [Dn.same_iff.mpr this] at hroot
                cases hroot
            | cons r rs =>
                have he : entryAt? t (Dn.child ⟨rs⟩ r) = some e := he
                obtain ⟨t', hrun, -, hat⟩ := patch_delete h he hroot hleaf
                exact ⟨_, .deleted he hroot hleaf, .of_ok hrun hat⟩

theorem patch_add_outcome (h : WellFormed t) (e : Entry) :
    ∃ out, Outcome t.rootDn (entryAt? t) (.add e) out ∧ ComesTo t (.add e) out := by
  obtain ⟨⟨rdns⟩, a⟩ := e
  cases rdns with
  | nil => exact ⟨_, .addUnnamed, .of_error rfl⟩
  | cons r rs =>
      have habove : Tree.above ⟨r :: rs⟩ = .ok ⟨rs⟩ := rfl
      have hleaf : Tree.leaf ⟨r :: rs⟩ = .ok r := rfl
      cases hup : entryAt? t ⟨rs⟩ with
      | none =>
          refine ⟨_, .addOrphan hup, .of_error ?_⟩
          simp only [Tree.patch, Edit.run_bind, Edit.run_ofExcept, Edit.run_look, habove,
            lookup_of_entryAt?_eq_none h.linked hup]
      | some f =>
          cases hat : entryAt? t (Dn.child ⟨rs⟩ r) with
          | none =>
              obtain ⟨t', hrun, -, hleft⟩ := patch_add a h hup hat
              exact ⟨_, .added hup hat, .of_ok hrun hleft⟩
          | some e =>
              obtain ⟨x, hlook, hdn, hs, -⟩ := lookup_of_entryAt? h.linked hup
              have hlook : Tree.lookup t (TreeView.root t) ⟨rs⟩ = .ok x := hlook
              have hkey : (f.dn.child r).key = (Dn.child ⟨rs⟩ r).key := by
                rw [Dn.key_child, Dn.key_child, Dn.same_iff.mp hs]
              have htaken : t.attributesAt? (f.dn.child r) ≠ none := by
                rw [Ne, attributesAt?_eq_none_iff, h.linked.entryAt?_congr hkey, hat]
                exact Option.some_ne_none e
              refine ⟨_, .addTaken hup hat, .of_error ?_⟩
              simp only [Tree.patch, Edit.run_bind, Edit.run_ofExcept, Edit.run_look, habove,
                hleaf, hlook, addChild_taken h hdn htaken]

/-- What a change by name comes to, by the entries that the tree holds. -/
theorem patch_outcome (h : WellFormed t) (c : Change) :
    ∃ out, Outcome t.rootDn (entryAt? t) c out ∧ ComesTo t c out := by
  cases c with
  | add e => exact patch_add_outcome h e
  | delete d => exact patch_delete_outcome h d
  | modify d edits => exact patch_modify_outcome h d edits

theorem rootDn_patch (h : WellFormed t) (c : Change) :
    ((Tree.patch c).run t).2.rootDn = t.rootDn := by
  rcases Tree.patch_cases c t with ⟨e, he⟩ | ⟨id, k, hk⟩
  · rw [he]
  · rw [hk]
    exact (call_follows h id k).rootDn

/-! ## Two changes -/

/-- A change comes to the same after one of an unrelated entry. -/
theorem ComesTo.after (h : WellFormed t) (hout : Outcome t.rootDn (entryAt? t) c out)
    (hc : c.dn.contains c'.dn = false) (hc' : c'.dn.contains c.dn = false) :
    ComesTo ((Tree.patch c').run t).2 c out := by
  obtain ⟨out', -, -, hat⟩ := patch_outcome h c'
  obtain ⟨left, hleft, hcomes⟩ := patch_outcome (wellFormed_patch h c') c
  rw [rootDn_patch h c', funext hat] at hleft
  obtain rfl : left = out := hleft.unique (hout.after hc hc')
  exact hcomes

theorem entriesAfter_congr (h : m d = m' d) : entriesAfter c m out d = entriesAfter c m' out d := by
  cases out with
  | error _ => exact h
  | ok left => simp only [entriesAfter, h]

theorem entriesAfter_comm (hc : c.dn.contains c'.dn = false) (d : Dn) :
    entriesAfter c' (entriesAfter c m out) out' d =
      entriesAfter c (entriesAfter c' m out') out d := by
  -- a name is at most one of the two
  cases hd : c.dn.same d with
  | false =>
      rw [entriesAfter_of_not_same hd]
      exact entriesAfter_congr (entriesAfter_of_not_same hd)
  | true =>
      have hd' : c'.dn.same d = false := by
        rw [Bool.eq_false_iff]
        intro hs
        rw [Dn.contains_of_same (Dn.same_trans hd (Dn.same_symm hs))] at hc
        cases hc
      rw [entriesAfter_of_not_same hd']
      exact entriesAfter_congr (entriesAfter_of_not_same hd').symm

theorem holdSame_of_entryAt? {a b : MemoryTree} (ha : Linked a) (hb : Linked b)
    (hroot : a.rootDn = b.rootDn) (h : ∀ d, entryAt? a d = entryAt? b d) : Tree.HoldSame a b where
  found := h
  met e := (ha.holds_iff ha.dn_root).trans (by rw [h, hroot]; exact (hb.holds_iff hb.dn_root).symm)

theorem patch_comm (h : WellFormed t) (hc : c.dn.contains c'.dn = false)
    (hc' : c'.dn.contains c.dn = false) :
    ((Tree.patch c).run ((Tree.patch c').run t).2).1 = ((Tree.patch c).run t).1 ∧
    ((Tree.patch c').run ((Tree.patch c).run t).2).1 = ((Tree.patch c').run t).1 ∧
    Tree.HoldSame ((Tree.patch c').run ((Tree.patch c).run t).2).2
      ((Tree.patch c).run ((Tree.patch c').run t).2).2 := by
  obtain ⟨out, hout, hanswer, hat⟩ := patch_outcome h c
  obtain ⟨out', hout', hanswer', hat'⟩ := patch_outcome h c'
  obtain ⟨hlate, hatlate⟩ := ComesTo.after h hout hc hc'
  obtain ⟨hlate', hatlate'⟩ := ComesTo.after h hout' hc' hc
  have hw := wellFormed_patch h c
  have hw' := wellFormed_patch h c'
  refine ⟨hlate.trans hanswer.symm, hlate'.trans hanswer'.symm, ?_⟩
  apply holdSame_of_entryAt? (wellFormed_patch hw c').linked (wellFormed_patch hw' c).linked
  · rw [rootDn_patch hw, rootDn_patch h, rootDn_patch hw', rootDn_patch h]
  · intro d
    rw [hatlate', hatlate, funext hat, funext hat']
    exact entriesAfter_comm hc d

/-- After any calls, two changes of which neither name contains the other commute: each is answered
    the same in both orders, and the trees that the two orders give hold equal entries. -/
theorem afterCalls_patch_comm (e : Entry) (calls : List (NodeId × Call))
    (hc : c.dn.contains c'.dn = false) (hc' : c'.dn.contains c.dn = false) :
    let t := Tree.afterCalls calls (ofRoot e)
    let first := (Tree.patch c).run t
    let second := (Tree.patch c').run first.2
    let first' := (Tree.patch c').run t
    let second' := (Tree.patch c).run first'.2
    first.1 = second'.1 ∧ second.1 = first'.1 ∧ Tree.HoldSame second.2 second'.2 := by
  obtain ⟨hanswer, hanswer', hsame⟩ :=
    patch_comm (wellFormed_afterCalls (wellFormed_ofRoot e) calls) hc hc'
  exact ⟨hanswer.symm, hanswer', hsame⟩

/-- An addition takes the slot that a deletion frees only if it comes second, and then it is
    another node of another generation. -/
theorem afterCalls_patch_comm_slots :
    let e : Entry := ⟨⟨[.single "dc" "x"]⟩, .empty⟩
    let calls : List (NodeId × Call) := [(rootId, .addChild (.single "ou" "a") .empty),
      (rootId, .addChild (.single "ou" "b") .empty)]
    let c : Change := .delete ⟨[.single "OU" "a", .single "DC" "x"]⟩
    let c' : Change := .add ⟨⟨[.single "cn" "c", .single "ou" "b", .single "dc" "x"]⟩, .empty⟩
    let t := Tree.afterCalls calls (ofRoot e)
    let first := (Tree.patch c).run t
    let second := (Tree.patch c').run first.2
    let first' := (Tree.patch c').run t
    let second' := (Tree.patch c).run first'.2
    c.dn.contains c'.dn = false ∧ c'.dn.contains c.dn = false ∧ second.2 ≠ second'.2 ∧
      first.1 = second'.1 ∧ second.1 = first'.1 ∧ Tree.HoldSame second.2 second'.2 := by
  intro e calls c c' t first second first' second'
  have hc : c.dn.contains c'.dn = false := by decide
  have hc' : c'.dn.contains c.dn = false := by decide
  exact ⟨hc, hc', by decide +kernel, afterCalls_patch_comm e calls hc hc'⟩

end MemoryTree
end DirectoryStore
