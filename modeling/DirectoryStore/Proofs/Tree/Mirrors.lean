import Mathlib.Data.List.Forall2
import DirectoryStore.Proofs.Files.Moving
import DirectoryStore.Proofs.Files.Opening
import DirectoryStore.Proofs.Files.Walk
import DirectoryStore.Proofs.Memory.Stores
import DirectoryStore.Proofs.Tree.Requests

/-!
# Trees in files and trees in memory

A tree in files mirrors a tree in memory if both store the same contents below the same name.
They answer every request in the same way and go on mirroring each other, as long as no path
becomes too long for the file system.
-/

namespace DirectoryStore

open FileTree (Achieves)

/-- Both trees have the same name at the root and store the same contents. -/
structure Mirrors (m : MemoryTree) (t : FileTree) (c : Contents) : Prop where
  rootDn : m.rootDn = t.root.dn
  memory : m.Stores c
  files : t.Stores c

/-- Edits of two trees give answers that agree and lead to trees that mirror each other, unless a
    path is too long. -/
def Parallel {α β : Type} (m : MemoryTree) (x : Edit MemoryTree α) (t : FileTree)
    (y : Edit FileTree β) : Prop :=
  (y.run t).1 = .error (.io .nameTooLong) ∨
    (Agree (x.run m).1 (y.run t).1 ∧ ∃ c, Mirrors (x.run m).2 (y.run t).2 c)

namespace Mirrors

variable {α β : Type} {m m' : MemoryTree} {t : FileTree} {c c' : Contents} {id : NodeId}
variable {rs us : List Rdn} {r s : Rdn} {d target : Dn} {a : AttributeMap} {e f : TreeError}
variable {x : Edit MemoryTree α} {y : Edit FileTree β}

theorem dn_eq (h : Mirrors m t c) (rs : List Rdn) :
    (t.root.down rs).dn = ⟨rs ++ m.rootDn.rdns⟩ := by
  rw [FileNode.down_dn, h.rootDn]

theorem of_errors (h : Mirrors m t c) (hx : x.run m = (.error e, m)) (hy : y.run t = (.error f, t))
    (hsame : e.same f = true) : Parallel m x t y := by
  refine .inr ?_
  rw [hx, hy]
  exact ⟨.error hsame, c, h⟩

theorem of_error (h : Mirrors m t c) (hx : x.run m = (.error e, m)) (hy : y.run t = (.error e, t)) :
    Parallel m x t y :=
  h.of_errors hx hy e.same_refl

theorem of_achieves {b : α} {b' : β} (h : Mirrors m t c) (hx : x.run m = (.ok b, m'))
    (hroot : m'.rootDn = m.rootDn) (hm : m'.Stores c')
    (hy : Achieves y t b' fun t' => t'.root = t.root ∧ t'.Houses (record t.root.dn) c') :
    Parallel m x t y := by
  rcases hy with herr | ⟨t', hrun, hroot', ht⟩
  · exact .inl herr
  · refine .inr ?_
    rw [hx, hrun]
    refine ⟨.ok b b', c', ?_, hm, h.files.after hroot' ht⟩
    rw [hroot, hroot', h.rootDn]

end Mirrors

namespace Parallel

variable {α β : Type} {m : MemoryTree} {t : FileTree}
variable {x : Edit MemoryTree α} {y : Edit FileTree β}

/-- The results of parallel edits do not matter. -/
theorem discard (h : Parallel m x t y) :
    Parallel m (do let _ ← x : Edit MemoryTree Unit) t (do let _ ← y : Edit FileTree Unit) := by
  rw [Parallel, Edit.run_bind, Edit.run_bind]
  cases hx : x.run m with
  | mk p m' =>
  cases hy : y.run t with
  | mk q t' =>
  rw [Parallel, hx, hy] at h
  rcases h with herr | ⟨hagree, hmirror⟩
  · obtain rfl : q = .error (.io .nameTooLong) := herr
    exact .inl rfl
  · cases hagree with
    | ok b b' => exact .inr ⟨.ok _ _, hmirror⟩
    | error hsame => exact .inr ⟨.error hsame, hmirror⟩

end Parallel

namespace Mirrors

variable {m : MemoryTree} {t : FileTree} {c : Contents} {id : NodeId}
variable {rs us : List Rdn} {r s : Rdn} {d target : Dn} {a : AttributeMap}

open MemoryTree (Way rootId run_addChild run_deleteChild run_setAttributes run_moveTo)

/-! ## Operations -/

theorem addChild (h : Mirrors m t c) (hw : Way m rootId id rs) (hr : r.Legible)
    (ha : a.Writable) :
    Parallel m (DirectoryTree.addChild id r a) t (DirectoryTree.addChild (t.root.down rs) r a) := by
  have hrs := (h.memory.attributes?_of_way hw).1
  rcases c.child_cases rs r with ⟨s, b, hs, hsame⟩ | hno
  · refine h.of_error (e := .alreadyExists ((t.root.down rs).dn.child r)) ?_ ?_
    · rw [run_addChild h.memory.wellFormed, Edit.run_change, h.memory.addChild_exists hw hs hsame,
        h.dn_eq]
      rfl
    · exact h.files.addChild_exists hs hsame a
  · obtain ⟨new, m', hok, hroot, hm⟩ := h.memory.addChild_ok hw hno a
    refine h.of_achieves (b := new) ?_ hroot hm (h.files.addChild_achieves hrs hno hr ha)
    rw [run_addChild h.memory.wellFormed, Edit.run_change, hok]

theorem deleteChild (h : Mirrors m t c) (hw : Way m rootId id rs) (r : Rdn) :
    Parallel m (DirectoryTree.deleteChild id r) t
      (DirectoryTree.deleteChild (t.root.down rs) r) := by
  have hrs := (h.memory.attributes?_of_way hw).1
  rcases c.child_cases rs r with ⟨s, b, hs, hsame⟩ | hno
  · rcases h.memory.deleteChild_found h.files.proper hw hs hsame with ⟨hchild, herr⟩ |
      ⟨hleaf, m', hok, hroot, hm⟩
    · refine h.of_error (e := .notLeaf (t.root.down (s :: rs)).dn) ?_ ?_
      · rw [run_deleteChild h.memory.wellFormed, Edit.run_change, herr, h.dn_eq]
      · exact h.files.deleteChild_notLeaf hs hsame hchild
    · refine h.of_achieves (b := ()) ?_ hroot hm (h.files.deleteChild_achieves hs hsame hleaf)
      rw [run_deleteChild h.memory.wellFormed, Edit.run_change, hok]
  · refine h.of_error (e := .notFound ((t.root.down rs).dn.child r)) ?_ ?_
    · rw [run_deleteChild h.memory.wellFormed, Edit.run_change,
        h.memory.deleteChild_missing hw hno, h.dn_eq]
      rfl
    · exact h.files.deleteChild_missing (h.files.legible hrs) hno

theorem setAttributes (h : Mirrors m t c) (hw : Way m rootId id rs) (ha : a.Writable) :
    Parallel m (DirectoryTree.setAttributes id a) t
      (DirectoryTree.setAttributes (t.root.down rs) a) := by
  have hrs := (h.memory.attributes?_of_way hw).1
  obtain ⟨m', hok, hroot, hm⟩ := h.memory.setAttributes_ok hw a
  refine h.of_achieves (b := ()) ?_ hroot hm (h.files.setAttributes_achieves hrs ha)
  rw [run_setAttributes, Edit.run_change, hok]

theorem delete (h : Mirrors m t c) (hw : Way m rootId id rs) :
    Parallel m (Tree.delete id) t (Tree.delete (t.root.down rs)) := by
  cases hw with
  | here _ =>
      refine h.of_error (e := .rootStays t.root.dn) ?_ (FileTree.Houses.delete_root t)
      rw [MemoryTree.delete_root h.memory.wellFormed.linked, h.rootDn]
  | step hp hup =>
      have hdelete := h.deleteChild hup
      rename_i up s us
      rw [Parallel, MemoryTree.delete_of_placed h.memory.wellFormed.linked hp hup,
        FileTree.Houses.delete_down h.files.rooted.top]
      exact hdelete s

theorem modify (h : Mirrors m t c) (hw : Way m rootId id rs) {edits : List Modification}
    (hedits : ∀ e ∈ edits, Ldif.SafeKey e.key) :
    Parallel m (Tree.modify id edits) t (Tree.modify (t.root.down rs) edits) := by
  obtain ⟨hrs, hattrs⟩ := h.memory.attributes?_of_way hw
  obtain ⟨n, hn⟩ := hw.live
  rw [MemoryTree.attributes?, hn, Option.map_some, Option.some.injEq] at hattrs
  have hx := MemoryTree.modify_of_node h.memory.wellFormed.linked hn edits
  have hy := FileTree.Houses.modify_of_entry (h.files.entry_eq hrs) edits
  have hwritable := (h.files.proper.getD_writable rs).applyAll hedits
  rw [hattrs] at hx
  generalize Modification.applyAll edits ((c rs).getD .empty) = outcome at hx hy hwritable
  obtain ⟨b, failure⟩ := outcome
  cases failure with
  | some e => exact h.of_error hx hy
  | none =>
      have hset := h.setAttributes hw hwritable
      rw [Parallel] at hset ⊢
      rw [hx, hy]
      exact hset

theorem lookup_cases (h : Mirrors m t c) (d : Dn) :
    (∃ rs id, Way m rootId id rs ∧ (t.root.down rs).dn.same d = true ∧
      Tree.lookup m rootId d = .ok id ∧ Tree.lookup t t.root d = .ok (t.root.down rs)) ∨
    (Tree.lookup m rootId d = .error (.notFound d) ∧
      Tree.lookup t t.root d = .error (.notFound d)) := by
  rcases h.memory.lookup_cases d with ⟨rs, id, hrs, hw, hsame, hok⟩ | ⟨herr, hno⟩
  · rw [← h.dn_eq] at hsame
    exact .inl ⟨rs, id, hw, hsame, hok, h.files.lookup_eq_ok hrs hsame⟩
  · refine .inr ⟨herr, h.files.lookup_eq_error fun rs hrs => ?_⟩
    rw [h.dn_eq]
    exact hno rs hrs

theorem moveTo_root (h : Mirrors m t c) (target : Dn) :
    Parallel m (DirectoryTree.moveTo rootId target) t (DirectoryTree.moveTo t.root target) := by
  refine h.of_error (e := .rootStays t.root.dn) ?_
    (FileTree.moveTo_error FileTree.Houses.destination_root)
  rw [run_moveTo h.memory.wellFormed, Edit.run_change,
    MemoryTree.moveTo_root h.memory.wellFormed.linked, h.rootDn]

theorem moveTo (h : Mirrors m t c) (hw : Way m rootId id (s :: us)) (htarget : target.Legible) :
    Parallel m (DirectoryTree.moveTo id target) t
      (DirectoryTree.moveTo (t.root.down (s :: us)) target) := by
  obtain ⟨up, hp, hup⟩ := hw.of_cons
  obtain ⟨a, ha⟩ := (h.memory.attributes?_of_way hw).1.resolve_left (List.cons_ne_nil _ _)
  have hdn := h.dn_eq (s :: us)
  have hrun : ∀ err, MemoryTree.moveTo m id target = .error err →
      (DirectoryTree.moveTo id target).run m = (.error err, m) := by
    intro err herr
    rw [run_moveTo h.memory.wellFormed, Edit.run_change, herr]
  rcases MemoryTree.moveTo_cases h.memory.wellFormed hp hup target with ⟨hsame, herr⟩ |
    ⟨hsame, hcontains, herr⟩ | ⟨hcontains, hnil, herr⟩ | ⟨hcontains, r, vs, htop, hcases⟩
  · rw [← hdn] at hsame herr
    refine h.of_errors (hrun _ herr)
      (FileTree.moveTo_error (FileTree.Houses.destination_same hsame)) hsame
  · rw [← hdn] at hsame hcontains herr
    exact h.of_error (hrun _ herr)
      (FileTree.moveTo_error (FileTree.Houses.destination_contains hsame hcontains))
  · rw [← hdn] at hcontains
    have hdest := h.files.destination_emptyDn ha hcontains hnil
    exact h.of_error (hrun _ herr) (FileTree.moveTo_error hdest)
  · rw [← hdn] at hcontains
    have hdest := h.files.destination_of_top ha hcontains htop
    have hr : r.Legible := htarget r (htop ▸ List.mem_cons_self)
    rcases h.lookup_cases ⟨vs⟩ with ⟨ws, newUp', hws', hsame, hfound, hlookup⟩ | ⟨hmissing, hlookup⟩
    · rcases hcases with ⟨hno, -⟩ | ⟨newUp, ws', hfound', hws, -, hcases⟩
      · rw [hno] at hfound
        cases hfound
      · obtain rfl : newUp' = newUp := by
          rw [hfound] at hfound'
          exact Except.ok.inj hfound'
        obtain rfl := h.memory.wellFormed.linked.way_unique hws hws'
        have hhas := (h.memory.attributes?_of_way hws).1
        rcases hcases with ⟨⟨y, u, hy, hu⟩, herr⟩ | ⟨hfree, m', hok, hrel, hf⟩
        · obtain ⟨b, hb⟩ := (h.memory.exists_child_iff hws).mp ⟨y, hy⟩
          have hchild := h.files.childNode?_eq_some hb hu
          have hdest' : t.destination (t.root.down (s :: us)) target =
              .error (.alreadyExists target) := by
            rw [hdest]
            simp only [bind, Except.bind, hlookup, hchild]
            rfl
          exact h.of_error (hrun _ herr) (FileTree.moveTo_error hdest')
        · obtain ⟨hm, hstores⟩ := h.memory.relinked h.files.proper hrel hf hw hws hfree hr
          have hchild := h.files.childNode?_eq_none (h.files.legible hhas) hm.free
          have hdest' : t.destination (t.root.down (s :: us)) target =
              .ok (t.root.down ws', r) := by
            rw [hdest]
            simp only [bind, Except.bind, hlookup, hchild]
            rfl
          refine h.of_achieves (b := id) ?_ hf.rootDn hstores (h.files.moveTo_achieves hm hdest')
          rw [run_moveTo h.memory.wellFormed, Edit.run_change, hok]
    · rcases hcases with ⟨-, herr⟩ | ⟨newUp, ws, hfound, -⟩
      · have hdest' : t.destination (t.root.down (s :: us)) target =
            .error (.notFound ⟨vs⟩) := by
          rw [hdest]
          simp only [bind, Except.bind, hlookup]
        exact h.of_error (hrun _ herr) (FileTree.moveTo_error hdest')
      · rw [hmissing] at hfound
        cases hfound

/-! ## Requests -/

/-- A call of nodes at the same place. -/
theorem call (h : Mirrors m t c) (hw : Way m rootId id rs) {k : Call} (hk : k.Storable) :
    Parallel m (Tree.call id k) t (Tree.call (t.root.down rs) k) := by
  cases k with
  | addChild r a => exact (h.addChild hw hk.1 hk.2).discard
  | deleteChild r => exact h.deleteChild hw r
  | delete => exact h.delete hw
  | setAttributes a => exact h.setAttributes hw hk
  | modify edits => exact h.modify hw hk
  | moveTo target =>
      cases rs with
      | nil =>
          obtain rfl := hw.eq_of_nil
          exact (h.moveTo_root target).discard
      | cons s us => exact (h.moveTo hw hk).discard

/-- A request gets answers that agree. -/
theorem answer (h : Mirrors m t c) {q : Request} (hq : q.call.Storable) :
    Parallel m (Tree.answer q) t (Tree.answer q) := by
  rcases h.lookup_cases q.name with ⟨rs, id, hw, -, hid, hnode⟩ | ⟨hm, ht⟩
  · have hx := Tree.answer_of_found hid
    have hy := Tree.answer_of_found hnode
    have hcall := h.call hw hq
    rw [Parallel] at hcall ⊢
    rw [hx, hy]
    exact hcall
  · exact h.of_error (Tree.answer_of_missing hm) (Tree.answer_of_missing ht)

theorem entryAt?_eq (h : Mirrors m t c) (d : Dn) : Tree.entryAt? m d = Tree.entryAt? t d := by
  have hroot : TreeView.root m = rootId := rfl
  rcases h.memory.lookup_cases d with ⟨rs, id, hrs, hw, hsame, hfound⟩ | ⟨hmissing, hno⟩
  · have hentry : TreeView.entry m id = .ok _ := h.memory.entry_eq hw
    have hdn := h.dn_eq rs
    rw [← hdn] at hsame hentry
    rw [h.files.entryAt?_eq_some hrs hsame]
    simp only [Tree.entryAt?, hroot, hfound, hentry, Except.toOption]
  · rw [h.files.entryAt?_eq_none fun rs hrs => (h.dn_eq rs) ▸ hno rs hrs]
    simp only [Tree.entryAt?, hroot, hmissing]

theorem holdSame (h : Mirrors m t c) : Tree.HoldSame m t where
  found := h.entryAt?_eq
  met := by
    intro e
    have hm : Tree.Holds m rootId e ↔ _ := h.memory.holds_iff
    have ht : Tree.Holds t t.root e ↔ _ := h.files.holds_iff
    simp only [← h.dn_eq] at hm
    exact hm.trans ht.symm

/-- All requests get answers that agree, and after each of them both trees hold equal entries. -/
theorem trace (h : Mirrors m t c) {qs : List Request} (hqs : ∀ q ∈ qs, q.call.Storable)
    (hshort : ∀ x ∈ Tree.trace qs t, x.1 ≠ .error (.io .nameTooLong)) :
    List.Forall₂ (fun x y => Agree x.1 y.1 ∧ Tree.HoldSame x.2 y.2)
      (Tree.trace qs m) (Tree.trace qs t) := by
  induction qs generalizing m t c with
  | nil => exact .nil
  | cons q qs ih =>
      rw [List.forall_mem_cons] at hqs
      rw [Tree.trace, List.forall_mem_cons] at hshort
      obtain ⟨hagree, c', h'⟩ := (h.answer hqs.1).resolve_left hshort.1
      exact .cons ⟨hagree, h'.holdSame⟩ (ih h' hqs.2 hshort.2)

end Mirrors

/-- A tree in files that was opened on an empty directory does what a new tree in memory with the
    same root does: it gives the same answers to requests, and holds equal entries after each of
    them.  Only a path that is too long can keep it from that. -/
theorem FileTree.openAt_refines_memory {files : FileSystem} {path : Path} {config : Config}
    {base : Dn}
    {t : FileTree} {requests : List Request} (hbase : config.rootDn = .ok base)
    (hopen : FileTree.openAt files path config = .ok t) (hfresh : t.Fresh)
    (hstorable : ∀ q ∈ requests, q.call.Storable)
    (hshort : ∀ x ∈ Tree.trace requests t, x.1 ≠ .error (.io .nameTooLong)) :
    List.Forall₂ (fun x y => Agree x.1 y.1 ∧ Tree.HoldSame x.2 y.2)
      (Tree.trace requests (MemoryTree.ofDn base)) (Tree.trace requests t) := by
  obtain ⟨hdn, htop⟩ := FileTree.root_of_openAt hopen
  obtain rfl : base = t.root.dn := by
    rw [hbase] at hdn
    exact Except.ok.inj hdn
  have hlegible : t.root.dn.Legible := Config.legible_rootDn hbase
  have hmirrors : Mirrors (MemoryTree.ofDn t.root.dn) t fun _ => none :=
    ⟨rfl, MemoryTree.Stores.ofDn t.root.dn, hfresh.stores htop hlegible⟩
  exact hmirrors.trace hstorable hshort

/-- Requests that build a branch of two entries, give its top another name, and take values and
    entries away again; one of them fails. -/
def renamingRequests : List Request :=
  let top := Rdn.single "dc" "example"
  let people := Rdn.single "ou" "people"
  let staff := Rdn.single "ou" "staff"
  let either := Rdn.single "cn" "either/or"
  [⟨⟨[top]⟩, .addChild people .empty⟩,
   ⟨⟨[people, top]⟩, .addChild either (.ofPairs [("mail", [utf8 "a@b", utf8 ""])])⟩,
   ⟨⟨[people, top]⟩, .delete⟩,
   ⟨⟨[people, top]⟩, .moveTo ⟨[staff, top]⟩⟩,
   ⟨⟨[either, staff, top]⟩, .modify [⟨.delete, ⟨"MAIL", .ofList [utf8 ""]⟩⟩]⟩,
   ⟨⟨[staff, top]⟩, .deleteChild (Rdn.single "CN" "either/or")⟩]

theorem FileTree.openAt_refines_memory_renamed :
    ∃ t, FileTree.openAt .empty [] ⟨"tree.dir", "dc=example"⟩ = .ok t ∧
      List.Forall₂ (fun x y => Agree x.1 y.1 ∧ Tree.HoldSame x.2 y.2)
        (Tree.trace renamingRequests (MemoryTree.ofDn ⟨[Rdn.single "dc" "example"]⟩))
        (Tree.trace renamingRequests t) := by
  have hopen : FileTree.openAt .empty [] ⟨"tree.dir", "dc=example"⟩ =
      .ok ⟨FileSystem.empty.put ["tree.dir"] .directory,
        ⟨⟨[Rdn.single "dc" "example"]⟩, ["tree.ldif"], ["tree.dir"]⟩⟩ := by decide +kernel
  exact ⟨_, hopen, FileTree.openAt_refines_memory (by decide +kernel) hopen (by decide +kernel)
    (by decide +kernel) (by decide +kernel)⟩

end DirectoryStore
