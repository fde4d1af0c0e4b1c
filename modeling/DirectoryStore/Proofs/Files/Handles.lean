import DirectoryStore.Proofs.Files.Moving
import DirectoryStore.Proofs.Tree.Requests

/-!
# Calls of the handles of a tree in files

The handles that a tree hands out are those that relative names lead to whose types can be read.
A handle stays what it is when its node goes.  A call of any handle leads to a tree that houses
contents again, unless a path is too long: what is not there makes the call fail, and nothing
changes.
-/

namespace DirectoryStore

open Ldif (SafeKey)

theorem Contents.Proper.has_of_opens {c : Contents} {rs : List Rdn} (h : c.Proper)
    (hrs : c.Opens rs) : c.Has rs := by
  rcases hrs with hnil | ⟨r, a, ha⟩
  · exact .inl hnil
  · exact h.closed ha

namespace FileTree

variable {α : Type} {t : FileTree} {top : AttributeMap → FileObject} {c : Contents}
variable {rs us : List Rdn} {r s : Rdn} {a : AttributeMap} {d target : Dn} {e : TreeError}
variable {node : FileNode}

/-- A handle that a tree may have handed out, whether or not its node is still there. -/
def Handle (t : FileTree) (node : FileNode) : Prop :=
  ∃ rs, (∀ r ∈ rs, r.Legible) ∧ node = t.root.down rs

theorem contains_down (root : FileNode) (h : us <:+ rs) :
    (root.down us).dn.contains (root.down rs).dn = true := by
  obtain ⟨ls, rfl⟩ := h
  rw [FileNode.down_dn, FileNode.down_dn, List.append_assoc, Dn.contains_iff, Dn.key_append ls]
  exact List.prefix_append _ _

theorem handle_root (t : FileTree) : t.Handle t.root :=
  ⟨[], fun _ hr => absurd hr List.not_mem_nil, rfl⟩

theorem handle_down (t : FileTree) (h : ∀ x ∈ rs, x.Legible) : t.Handle (t.root.down rs) :=
  ⟨rs, h, rfl⟩

/-! ## Handles that reading hands out -/

namespace Houses

theorem handle_of_mem_children (h : t.Houses top c) (hnode : t.Handle node) {child : FileNode}
    (hchild : child ∈ t.childNodes node) : t.Handle child := by
  obtain ⟨rs, hrs, rfl⟩ := hnode
  obtain ⟨r, a, ha, rfl⟩ := (h.mem_childNodes hrs).mp hchild
  exact t.handle_down (h.legible (.inr ⟨a, ha⟩))

theorem handle_of_parent (h : t.Houses top c) (hnode : t.Handle node) {up : FileNode}
    (hup : t.parent node = .ok (some up)) : t.Handle up := by
  obtain ⟨rs, hrs, rfl⟩ := hnode
  cases rs with
  | nil =>
      have hroot : t.parent (t.root.down []) = .ok none := parent_root t
      rw [hroot] at hup
      cases hup
  | cons r rs =>
      rw [parent_down h.rooted.top] at hup
      cases hup
      exact t.handle_down (List.forall_mem_cons.mp hrs).2

theorem handle_of_lookup (h : t.Houses top c) (hnode : t.Handle node) {found : FileNode}
    (hfound : Tree.lookup t node d = .ok found) : t.Handle found := by
  refine Tree.of_lookup (p := t.Handle) (fun hup hchild => ?_) hnode hfound
  exact h.handle_of_mem_children hup (List.mem_of_find?_eq_some (Except.ok.inj hchild))

end Houses

/-! ## Calls of handles -/

/-- An edit hands out what satisfies `p` and leads to a tree that houses contents below the same
    root, unless a path is too long. -/
def Settles (x : Edit FileTree α) (t : FileTree) (p : α → Prop) : Prop :=
  (x.run t).1 = .error (.io .nameTooLong) ∨
    (∀ v, (x.run t).1 = .ok v → p v) ∧ (x.run t).2.root = t.root ∧
      ∃ top c, (x.run t).2.Houses top c

namespace Settles

variable {x : Edit FileTree α} {p : α → Prop} {v : α}

theorem of_achieves (h : Achieves x t v fun t' => t'.root = t.root ∧ t'.Houses top c)
    (hv : p v) : Settles x t p := by
  rcases h with herr | ⟨t', hrun, hroot, hhouses⟩
  · exact .inl herr
  · refine .inr ?_
    rw [hrun]
    refine ⟨fun w hw => ?_, hroot, top, c, hhouses⟩
    cases hw
    exact hv

/-- A failure that changes nothing. -/
theorem of_error (h : t.Houses top c) (hx : x.run t = (.error e, t)) : Settles x t p := by
  refine .inr ?_
  rw [hx]
  exact ⟨nofun, rfl, top, c, h⟩

theorem congr {y : Edit FileTree α} (h : Settles x t p) (hrun : y.run t = x.run t) :
    Settles y t p := by
  rw [Settles, hrun]
  exact h

theorem discard (h : Settles x t p) :
    Settles (do let _ ← x : Edit FileTree Unit) t fun _ => True := by
  rw [Settles, Edit.run_bind]
  cases hx : x.run t with
  | mk res t' =>
      rw [Settles, hx] at h
      rcases h with herr | ⟨-, hafter⟩
      · obtain rfl : res = .error (.io .nameTooLong) := herr
        exact .inl rfl
      · cases res with
        | ok w => exact .inr ⟨fun _ _ => trivial, hafter⟩
        | error err => exact .inr ⟨fun _ _ => trivial, hafter⟩

end Settles

namespace Houses

theorem addChild_missing (h : t.Houses top c) (hrs : ∀ x ∈ s :: us, x.Legible)
    (hno : c (s :: us) = none) (r : Rdn) (a : AttributeMap) :
    (addChild (t.root.down (s :: us)) r a).run t =
      (.error (.missingDirectory (t.root.down (s :: us)).dir), t) := by
  have hhas : ¬ c.Has (s :: us) := by
    intro hhas
    obtain ⟨b, hb⟩ := hhas.resolve_left (List.cons_ne_nil _ _)
    rw [hno] at hb
    cases hb
  have hnone : ∀ q b, c (q :: s :: us) = some b → q.same r = false := by
    intro q b hb
    exact absurd (h.proper.closed hb) hhas
  have hchild := h.childNode?_eq_none hrs hnone
  have hclosed := h.keeps.isDirectory_eq_false hrs (mt h.proper.has_of_opens hhas)
  have hroot := isRoot_down_cons t s us
  have hfile := h.isFile_missing hrs hno
  simp [addChild, ensureDirectory, FileTree.glance, hchild, hclosed, hroot, hfile]

theorem addChild_settles (h : t.Houses top c) (hrs : ∀ x ∈ rs, x.Legible) (hr : r.Legible)
    (ha : a.Writable) : Settles (addChild (t.root.down rs) r a) t t.Handle := by
  have hnew := t.handle_down (List.forall_mem_cons.mpr ⟨hr, hrs⟩)
  rcases c.child_cases rs r with ⟨s, b, hs, hsame⟩ | hno
  · exact .of_error h (h.addChild_exists hs hsame a)
  · by_cases hhas : c.Has rs
    · exact .of_achieves (h.addChild_achieves hhas hno hr ha) hnew
    · cases rs with
      | nil => exact absurd (.inl rfl) hhas
      | cons s us =>
          have hnone : c (s :: us) = none := by
            rw [Option.eq_none_iff_forall_ne_some]
            exact fun b hb => hhas (.inr ⟨b, hb⟩)
          exact .of_error h (h.addChild_missing hrs hnone r a)

theorem deleteChild_settles (h : t.Houses top c) (hrs : ∀ x ∈ rs, x.Legible) (r : Rdn) :
    Settles (deleteChild (t.root.down rs) r) t fun _ => True := by
  rcases c.child_cases rs r with ⟨s, b, hs, hsame⟩ | hno
  · by_cases hchild : c.HasChild (s :: rs)
    · exact .of_error h (h.deleteChild_notLeaf hs hsame hchild)
    · exact .of_achieves (h.deleteChild_achieves hs hsame hchild) trivial
  · exact .of_error h (h.deleteChild_missing hrs hno)

theorem delete_settles (h : t.Houses top c) (hrs : ∀ x ∈ rs, x.Legible) :
    Settles (Tree.delete (t.root.down rs)) t fun _ => True := by
  cases rs with
  | nil => exact .of_error h (delete_root t)
  | cons s us =>
      have hdelete := h.deleteChild_settles (List.forall_mem_cons.mp hrs).2 s
      exact hdelete.congr (delete_down h.rooted.top s us)

theorem setAttributes_missing (h : t.Houses top c) (hrs : ∀ x ∈ r :: rs, x.Legible)
    (hno : c (r :: rs) = none) (a : AttributeMap) :
    (setAttributes (t.root.down (r :: rs)) a).run t =
      (.error (.notFound (t.root.down (r :: rs)).dn), t) := by
  have hroot := isRoot_down_cons t r rs
  have hfile := h.isFile_missing hrs hno
  simp [setAttributes, FileTree.glance, hroot, hfile]

/-- The root takes any attributes, also those that cannot be read back. -/
theorem setAttributes_root_settles (h : t.Houses top c) (a : AttributeMap) :
    Settles (setAttributes t.root a) t fun _ => True := by
  by_cases hdir : t.files.object? t.root.ldif = some .directory
  · obtain ⟨fault, hwrite⟩ := FileSystem.write_directory hdir (utf8 (Entry.ldif ⟨t.root.dn, a⟩))
    have hroot : t.isRoot t.root = true := (isRoot_down t []).mpr rfl
    have hrun : (setAttributes t.root a).run t = (.error (.io fault), t) := by
      simp [setAttributes, writeEntry, onFiles, FileTree.glance, hroot, hwrite]
    exact .of_error h hrun
  · exact .of_achieves (h.setAttributes_root hdir (fun _ => record t.root.dn a)
      AttributeMap.Writable.empty rfl) trivial

theorem setAttributes_settles (h : t.Houses top c) (hrs : ∀ x ∈ rs, x.Legible) (ha : a.Writable) :
    Settles (setAttributes (t.root.down rs) a) t fun _ => True := by
  cases rs with
  | nil => exact h.setAttributes_root_settles a
  | cons r rs =>
      cases hc : c (r :: rs) with
      | none => exact .of_error h (h.setAttributes_missing hrs hc a)
      | some b => exact .of_achieves (h.setAttributes_achieves hc ha) trivial

/-- Edits that cannot be made fail with nothing changed; others end in the replacement of the
    attributes. -/
theorem modify_settles (h : t.Houses top c) (hrs : ∀ x ∈ rs, x.Legible)
    {edits : List Modification} (hedits : ∀ m ∈ edits, SafeKey m.key) :
    Settles (Tree.modify (t.root.down rs) edits) t fun _ => True := by
  cases he : t.entry (t.root.down rs) with
  | error err =>
      have hentry : TreeView.entry t (t.root.down rs) = .error err := he
      refine .of_error h (e := err) ?_
      rw [Tree.modify, Edit.run_bind, Edit.run_look, hentry]
  | ok f =>
      have hrun := modify_of_entry he edits
      cases happly : Modification.applyAll edits f.attributes with
      | mk b failure =>
          simp only [happly] at hrun
          cases failure with
          | some err => exact .of_error h hrun
          | none =>
              refine Settles.congr ?_ hrun
              cases rs with
              | nil => exact h.setAttributes_root_settles b
              | cons r rs =>
                  cases hc : c (r :: rs) with
                  | none => exact .of_error h (h.setAttributes_missing hrs hc b)
                  | some a =>
                      have hf := (h.entry_eq hc).symm.trans he
                      cases hf
                      have hb := (h.proper.writable hc).applyAll hedits
                      rw [happly] at hb
                      exact .of_achieves (h.setAttributes_achieves hc hb) trivial

theorem destination_missing (h : t.Houses top c) (hrs : ∀ x ∈ s :: us, x.Legible)
    (hno : c (s :: us) = none) (hsame : (t.root.down (s :: us)).dn.same target = false)
    (hcontains : (t.root.down (s :: us)).dn.contains target = false) :
    t.destination (t.root.down (s :: us)) target =
      .error (.notFound (t.root.down (s :: us)).dn) := by
  rw [destination, isRoot_down_cons, hsame, hcontains, h.isFile_missing hrs hno]
  rfl

/-- A node may go below another one that is not below it and has no child of the new name. -/
theorem movable_of_free (h : t.Houses top c) (ha : c (s :: us) = some a) {vs : List Rdn}
    (hvs : c.Has vs) {up : Dn} (hup : (t.root.down vs).dn.same up = true)
    (hfree : t.childNode? (t.root.down vs) r = none)
    (hcontains : (t.root.down (s :: us)).dn.contains (up.child r) = false) (hr : r.Legible) :
    c.Movable s us r vs where
  source := ⟨a, ha⟩
  parent := hvs
  free := by
    intro u b hb
    rw [Bool.eq_false_iff]
    intro hu
    rw [h.childNode?_eq_some hb hu] at hfree
    cases hfree
  outside := by
    intro hsuffix
    have hover := Dn.contains_trans (contains_down t.root hsuffix) (Dn.contains_of_same hup)
    rw [Dn.contains_trans hover (Dn.contains_child up r)] at hcontains
    cases hcontains
  legible := hr

/-- Where a node may go: nowhere, or to a free place that is not below it. -/
theorem destination_cases (h : t.Houses top c) (hrs : ∀ x ∈ rs, x.Legible)
    (htarget : target.Legible) :
    (∃ e, t.destination (t.root.down rs) target = .error e) ∨
      ∃ s us r vs, rs = s :: us ∧ c.Movable s us r vs ∧
        t.destination (t.root.down rs) target = .ok (t.root.down vs, r) := by
  cases rs with
  | nil => exact .inl ⟨_, destination_root⟩
  | cons s us =>
      by_cases hsame : (t.root.down (s :: us)).dn.same target = true
      · exact .inl ⟨_, destination_same hsame⟩
      rw [Bool.not_eq_true] at hsame
      by_cases hcontains : (t.root.down (s :: us)).dn.contains target = true
      · exact .inl ⟨_, destination_contains hsame hcontains⟩
      rw [Bool.not_eq_true] at hcontains
      cases hc : c (s :: us) with
      | none => exact .inl ⟨_, h.destination_missing hrs hc hsame hcontains⟩
      | some a =>
          cases hrdns : target.rdns with
          | nil => exact .inl ⟨_, h.destination_emptyDn hc hcontains hrdns⟩
          | cons r ls =>
              have hdest := h.destination_of_top hc hcontains hrdns
              rcases h.lookup_cases ⟨ls⟩ with ⟨vs, hvs, hup, hlookup⟩ | hlookup
              · simp only [bind, Except.bind, hlookup] at hdest
                cases hchild : t.childNode? (t.root.down vs) r with
                | some node =>
                    rw [hchild] at hdest
                    exact .inl ⟨_, hdest⟩
                | none =>
                    rw [hchild] at hdest
                    have hr : r.Legible := htarget r (hrdns ▸ List.mem_cons_self)
                    have htop : target = (Dn.mk ls).child r := congrArg Dn.mk hrdns
                    have hm := h.movable_of_free hc hvs hup hchild (htop ▸ hcontains) hr
                    exact .inr ⟨s, us, r, vs, rfl, hm, hdest⟩
              · simp only [bind, Except.bind, hlookup] at hdest
                exact .inl ⟨_, hdest⟩

theorem moveTo_settles (h : t.Houses top c) (hrs : ∀ x ∈ rs, x.Legible) (htarget : target.Legible) :
    Settles (moveTo (t.root.down rs) target) t t.Handle := by
  rcases h.destination_cases hrs htarget with ⟨err, hdest⟩ | ⟨s, us, r, vs, rfl, hm, hdest⟩
  · exact .of_error h (moveTo_error hdest)
  · have hvs := List.forall_mem_cons.mpr ⟨hm.legible, h.legible hm.parent⟩
    exact .of_achieves (h.moveTo_achieves hm hdest) (t.handle_down hvs)

/-- A call of a handle that was handed out. -/
theorem call_settles (h : t.Houses top c) (hnode : t.Handle node) {k : Call} (hk : k.Storable) :
    Settles (Tree.call node k) t fun _ => True := by
  obtain ⟨rs, hrs, rfl⟩ := hnode
  cases k with
  | addChild r a => exact (h.addChild_settles hrs hk.1 hk.2).discard
  | deleteChild r => exact h.deleteChild_settles hrs r
  | delete => exact h.delete_settles hrs
  | setAttributes a => exact h.setAttributes_settles hrs hk
  | modify edits => exact h.modify_settles hrs hk
  | moveTo target => exact (h.moveTo_settles hrs hk).discard

/-- Calls of handles that were handed out, one after another. -/
theorem afterCalls (h : t.Houses top c) {calls : List (FileNode × Call)}
    (hcalls : ∀ x ∈ calls, t.Handle x.1 ∧ x.2.Storable)
    (hshort : Except.error (.io .nameTooLong) ∉ Tree.answers calls t) :
    (Tree.afterCalls calls t).root = t.root ∧ ∃ top c, (Tree.afterCalls calls t).Houses top c := by
  induction calls generalizing t top c with
  | nil => exact ⟨rfl, top, c, h⟩
  | cons x calls ih =>
      obtain ⟨node, k⟩ := x
      rw [List.forall_mem_cons] at hcalls
      rw [Tree.answers, List.mem_cons, not_or] at hshort
      obtain ⟨-, hroot, top', c', h'⟩ :=
        (h.call_settles hcalls.1.1 hcalls.1.2).resolve_left (Ne.symm hshort.1)
      have hcalls' : ∀ x ∈ calls, (((Tree.call node k).run t).2).Handle x.1 ∧ x.2.Storable := by
        intro x hx
        rw [Handle, hroot]
        exact hcalls.2 x hx
      rw [Tree.afterCalls, ← hroot]
      exact ih h' hcalls' hshort.2

end Houses
end FileTree
end DirectoryStore
