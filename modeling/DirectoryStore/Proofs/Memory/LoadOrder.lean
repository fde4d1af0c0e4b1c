import DirectoryStore.Proofs.Ldif.Untyped
import DirectoryStore.Proofs.Memory.Commuting
import DirectoryStore.Proofs.Memory.Replication

/-!
# The order of the records of a document

What a record does when it is loaded can be told from the entries that the tree holds at its name
and right above it, and it changes nothing but what the tree holds at its name.  So two records
next to each other may change places, unless one is the parent of the other or both have one
name.  Of two orders in which all parents come first, each is then reached from the other: the
record that one of them starts with depends on none of those that the other has in front of it.
-/

namespace DirectoryStore

/-- No record comes before that of its parent. -/
def Tree.ParentsFirst (es : List Entry) : Prop :=
  es.Pairwise fun e f => ∀ up ∈ e.dn.up?, f.dn.same up = false

instance (es : List Entry) : Decidable (Tree.ParentsFirst es) :=
  inferInstanceAs (Decidable (es.Pairwise fun e f => ∀ up ∈ e.dn.up?, f.dn.same up = false))

namespace MemoryTree

open DirectoryStore.Tree (entryAt? ParentsFirst)

variable {t t' : MemoryTree} {base : NodeId} {top dbase d d' up : Dn} {r : Rdn} {n : MemoryNode}
variable {a b e f g g' : Entry} {es es' pre post : List Entry} {m m' : Dn → Option Entry}

/-- The entries `m` with `g` for the one of the name `d`. -/
def put (m : Dn → Option Entry) (d : Dn) (g : Entry) : Dn → Option Entry :=
  fun d' => if d.same d' then some g else m d'

/-- In a tree that holds the entries `m`, the record `e` can be loaded at or below the name
    `dbase`, and then `g` is held at its name. -/
inductive Stored (dbase : Dn) (m : Dn → Option Entry) (e : Entry) : Entry → Prop where
  | base (h : e.dn.same dbase = true) : Stored dbase m e ⟨dbase, e.attributes⟩
  | below {up : Dn} {r : Rdn} {f : Entry} (hother : e.dn.same dbase = false)
      (hdn : e.dn = up.child r) (hin : dbase.contains up = true) (hup : m up = some f)
      (hfree : m e.dn = none) : Stored dbase m e ⟨f.dn.child r, e.attributes⟩

/-- Records that can be loaded one after another, and the entries afterwards. -/
inductive Loaded (dbase : Dn) :
    (Dn → Option Entry) → List Entry → (Dn → Option Entry) → Prop where
  | nil {m : Dn → Option Entry} : Loaded dbase m [] m
  | cons {m m' : Dn → Option Entry} {e g : Entry} {es : List Entry} (h : Stored dbase m e g)
      (hs : Loaded dbase (put m e.dn g) es m') : Loaded dbase m (e :: es) m'

/-- Neither name is the other one, or the one right above it. -/
structure Detached (d d' : Dn) : Prop where
  other : d.same d' = false
  left : ∀ up ∈ d.up?, d'.same up = false
  right : ∀ up ∈ d'.up?, d.same up = false

/-! ## Records that change places -/

theorem put_of_not_same (h : d.same d' = false) : put m d g d' = m d' := by
  simp [put, h]

theorem put_comm (h : d.same d' = false) :
    put (put m d g) d' g' = put (put m d' g') d g := by
  funext x
  cases hx : d.same x with
  | false => simp [put, hx]
  | true =>
      -- a name is at most one of the two
      have hx' : d'.same x = false := by
        rw [Bool.eq_false_iff]
        intro hx'
        rw [Dn.same_trans hx (Dn.same_symm hx')] at h
        cases h
      simp [put, hx, hx']

theorem Detached.symm (h : Detached d d') : Detached d' d :=
  ⟨Dn.same_comm d d' ▸ h.other, h.right, h.left⟩

/-- Entries elsewhere play no role. -/
theorem Stored.congr (h : Stored dbase m e g) (hat : m' e.dn = m e.dn)
    (hup : ∀ up ∈ e.dn.up?, m' up = m up) : Stored dbase m' e g := by
  cases h with
  | base h => exact .base h
  | below hother hdn hin hf hfree =>
      have habove : m' _ = m _ := hup _ (by rw [hdn]; rfl)
      exact .below hother hdn hin (habove.trans hf) (hat.trans hfree)

theorem Stored.put_iff (h : Detached d e.dn) :
    Stored dbase (put m d g') e g ↔ Stored dbase m e g := by
  have hat : put m d g' e.dn = m e.dn := put_of_not_same h.other
  have hup : ∀ up ∈ e.dn.up?, put m d g' up = m up := fun up hup =>
    put_of_not_same (h.right up hup)
  exact ⟨fun hs => hs.congr hat.symm fun up h => (hup up h).symm, fun hs => hs.congr hat hup⟩

theorem Loaded.swap (hd : Detached a.dn b.dn) (h : Loaded dbase m (a :: b :: es) m') :
    Loaded dbase m (b :: a :: es) m' := by
  cases h with
  | cons ha h =>
  cases h with
  | cons hb h =>
      rw [Stored.put_iff hd] at hb
      rw [put_comm hd.other] at h
      exact .cons hb (.cons ((Stored.put_iff hd.symm).mpr ha) h)

/-- A record may come later, behind others that it has nothing to do with. -/
theorem Loaded.later (hd : ∀ p ∈ pre, Detached e.dn p.dn)
    (h : Loaded dbase m (e :: (pre ++ post)) m') : Loaded dbase m (pre ++ e :: post) m' := by
  induction pre generalizing m with
  | nil => exact h
  | cons p pre ih =>
      rw [List.forall_mem_cons] at hd
      cases h.swap hd.1 with
      | cons hp h => exact .cons hp (ih hd.2 h)

/-- The order of records does not matter as long as parents come first. -/
theorem Loaded.perm (hperm : es.Perm es')
    (hdistinct : es.Pairwise fun e f => e.dn.same f.dn = false) (hfirst : ParentsFirst es)
    (hfirst' : ParentsFirst es') (h : Loaded dbase m es m') : Loaded dbase m es' m' := by
  induction h generalizing es' with
  | nil =>
      rw [List.nil_perm] at hperm
      subst hperm
      exact .nil
  | @cons m m' e g es he _ ih =>
      obtain ⟨pre, post, rfl⟩ := List.append_of_mem (hperm.mem_iff.mp List.mem_cons_self)
      have hrest : es.Perm (pre ++ post) := (hperm.trans List.perm_middle).cons_inv
      have hmem : ∀ p ∈ pre, p ∈ es := fun p hp => hrest.mem_iff.mpr (List.mem_append_left _ hp)
      rw [List.pairwise_cons] at hdistinct
      obtain ⟨hbefore, hfirst⟩ := List.pairwise_cons.mp hfirst
      have hshort : ParentsFirst (pre ++ post) :=
        hfirst'.sublist (List.Sublist.append_left (List.sublist_cons_self e post) pre)
      have hcross := (List.pairwise_append.mp hfirst').2.2
      refine Loaded.later (fun p hp => ⟨?_, ?_, ?_⟩) (.cons he (ih hrest hdistinct.2 hfirst hshort))
      · exact hdistinct.1 p (hmem p hp)
      · exact hbefore p (hmem p hp)
      · exact hcross p hp e List.mem_cons_self

/-! ## Loading -/

/-- A well-formed tree with the given names for the root and the node `base`, which holds the
    entries `m`. -/
structure Holding (top : Dn) (base : NodeId) (dbase : Dn) (m : Dn → Option Entry)
    (t : MemoryTree) : Prop where
  wellFormed : WellFormed t
  rootDn : t.rootDn = top
  dn : t.dn base = .ok dbase
  entries : entryAt? t = m

namespace Holding

/-- Below the base a name leads from there where it leads from the root. -/
theorem lookup_eq (h : Holding top base dbase m t) (hin : dbase.contains d = true) :
    Tree.lookup t base d = Tree.lookup t rootId d := by
  have hl := h.wellFormed.linked
  cases hroot : Tree.lookup t rootId d with
  | ok x =>
      obtain ⟨dx, hdx, hs⟩ := hl.lookup_eq_ok_iff.mp hroot
      refine (hl.lookup_iff h.dn).mpr ⟨dx, hdx, ?_, hs⟩
      exact Dn.contains_trans hin (Dn.contains_of_same (Dn.same_symm hs))
  | error err =>
      rcases hl.lookup_root_cases d with ⟨x, rs, hx, -⟩ | ⟨herr, hnone⟩
      · rw [hroot] at hx
        cases hx
      · rw [← hroot, herr]
        obtain ⟨ws, hw, -⟩ := hl.dn_eq_ok_iff.mp h.dn
        rcases hl.lookup_cases hw d with ⟨x, qs, -, hq, hs⟩ | ⟨hbase, -⟩
        · rw [hnone (hw.append hq)] at hs
          cases hs
        · exact hbase

/-- Loading below the base is adding by name. -/
theorem run_loadEntry (h : Holding top base dbase m t) (hother : e.dn.same dbase = false)
    (hdn : e.dn = up.child r) (hin : dbase.contains up = true) :
    (Tree.loadEntry base dbase e).run t = (Tree.patch (.add e)).run t := by
  have habove : Tree.above e.dn = .ok up := by rw [hdn]; rfl
  have hlook : Tree.lookup t base up = Tree.lookup t (TreeView.root t) up := h.lookup_eq hin
  simp only [Tree.loadEntry, hother, Bool.false_eq_true, if_false, Tree.patch, Edit.run_bind,
    Edit.run_ofExcept, Edit.run_look, habove, hlook]

/-- A record is loaded if nothing is in its way, and then its entry is held at its name. -/
theorem store (h : Holding top base dbase m t) (hs : Stored dbase m e g) :
    ∃ t', (Tree.loadEntry base dbase e).run t = (.ok (), t') ∧
      Holding top base dbase (put m e.dn g) t' := by
  have hw := h.wellFormed
  rw [← h.entries] at hs ⊢
  cases hs with
  | base hsame =>
      obtain ⟨n, hn⟩ := hw.linked.dn_live h.dn
      obtain ⟨t', hset, heff, hf⟩ := setAttributes_live hw hn e.attributes
      refine ⟨t', ?_, hf.wellFormed, hf.rootDn.trans h.rootDn, ?_, funext fun d => ?_⟩
      · rw [Tree.loadEntry, if_pos hsame, run_setAttributes, Edit.run_change, hset]
      · exact (heff.dn_eq hw.linked hf.rootDn base).mpr h.dn
      · rw [heff.entryAt?_eq hw.linked hf.rootDn h.dn, put, Dn.same, Dn.same, Dn.same_iff.mp hsame]
  | @below up r f hother hname hin hup hfree =>
      rw [hname] at hfree
      obtain ⟨t', hrun, hconfined, hat⟩ := patch_add e.attributes hw hup hfree
      rw [← hname] at hrun
      refine ⟨t', ?_, hconfined.wellFormed, hconfined.rootDn.trans h.rootDn, ?_, funext fun d => ?_⟩
      · rw [h.run_loadEntry hother hname hin]
        exact hrun
      · refine (hconfined.dn base dbase ?_).mpr h.dn
        -- only the base itself can lie above the new entry, and the base keeps its name
        by_cases hpre : up.key <+: dbase.key
        · exact .inr ((Dn.contains_iff.mp hin).eq_of_length_le hpre.length_le)
        · exact .inl hpre
      · rw [hat, put, hname]

/-- A record that was loaded had nothing in its way. -/
theorem stored_of_run (h : Holding top base dbase m t)
    (hrun : (Tree.loadEntry base dbase e).run t = (.ok (), t')) : ∃ g, Stored dbase m e g := by
  have hl := h.wellFormed.linked
  cases hother : e.dn.same dbase with
  | true => exact ⟨_, .base hother⟩
  | false =>
  cases hrdns : e.dn.rdns with
  | nil =>
      have habove : Tree.above e.dn = .error (.name .emptyDn) := by
        rw [Tree.above, Dn.up?, hrdns]
      rw [Tree.loadEntry, hother] at hrun
      simp only [Bool.false_eq_true, if_false, Edit.run_bind, Edit.run_ofExcept, habove] at hrun
      cases hrun
  | cons r rs =>
      have hdn : e.dn = Dn.child ⟨rs⟩ r := congrArg Dn.mk hrdns
      have habove : Tree.above e.dn = .ok ⟨rs⟩ := by rw [hdn]; rfl
      cases hlook : Tree.lookup t base ⟨rs⟩ with
      | error err =>
          rw [Tree.loadEntry, hother] at hrun
          simp only [Bool.false_eq_true, if_false, Edit.run_bind, Edit.run_ofExcept, Edit.run_look,
            habove, hlook] at hrun
          cases hrun
      | ok x =>
          obtain ⟨dx, hdx, hc, hs⟩ := (hl.lookup_iff h.dn).mp hlook
          have hin : dbase.contains ⟨rs⟩ = true := Dn.contains_trans hc (Dn.contains_of_same hs)
          rw [h.run_loadEntry hother hdn hin] at hrun
          obtain ⟨out, hout, hanswer, -⟩ := patch_add_outcome h.wellFormed e
          rw [hrun] at hanswer
          rw [h.entries] at hout
          obtain ⟨_, attrs⟩ := e
          cases hdn
          cases hout with
          | added hup hfree => exact ⟨_, .below hother rfl hin hup hfree⟩
          | addOrphan | addTaken => cases hanswer

theorem load (h : Holding top base dbase m t) (hs : Loaded dbase m es m') :
    ∃ t', (Tree.loadEntries base dbase es).run t = (.ok (), t') ∧
      Holding top base dbase m' t' := by
  induction hs generalizing t with
  | nil => exact ⟨t, rfl, h⟩
  | cons he _ ih =>
      obtain ⟨t₁, hrun, h₁⟩ := h.store he
      obtain ⟨t', hrest, h'⟩ := ih h₁
      exact ⟨t', by simp only [Tree.loadEntries, Edit.run_bind, hrun, hrest], h'⟩

theorem loaded_of_run (h : Holding top base dbase m t)
    (hrun : (Tree.loadEntries base dbase es).run t = (.ok (), t')) :
    ∃ m', Loaded dbase m es m' ∧ Holding top base dbase m' t' := by
  induction es generalizing m t with
  | nil =>
      cases hrun
      exact ⟨m, .nil, h⟩
  | cons e es ih =>
      rw [Tree.loadEntries, Edit.run_bind] at hrun
      cases he : (Tree.loadEntry base dbase e).run t with
      | mk res t₁ =>
      rw [he] at hrun
      cases res with
      | error err => cases hrun
      | ok _ =>
          obtain ⟨g, hg⟩ := h.stored_of_run he
          obtain ⟨t₂, hrun', h₂⟩ := h.store hg
          rw [he] at hrun'
          cases hrun'
          obtain ⟨m', hrest, h'⟩ := ih h₂ hrun
          exact ⟨m', .cons hg hrest, h'⟩

end Holding

/-- A document that is loaded has only names that can be read. -/
theorem legible_of_run_loadLdif {k : Nat} (hplain : ∀ e ∈ es, e.dn.PlainTypes)
    (hkeys : ∀ e ∈ es, e.attributes.Writable) (hdn : t.dn base = .ok dbase)
    (hrun : ((Tree.loadLdif base (Ldif.writeEntries es)).run t).1 = .ok k) :
    ∀ e ∈ es, e.dn.Legible := by
  by_contra hnot
  have huntyped : ∃ e ∈ es, ¬ e.dn.Legible := by simpa using hnot
  obtain ⟨err, hparse⟩ := Ldif.parseEntries_untyped hplain hkeys huntyped
  have hbase : TreeView.dn t base = .ok dbase := hdn
  simp only [Tree.loadLdif, Edit.run_bind, Edit.run_look, hbase, hparse] at hrun
  cases hrun

theorem run_loadLdif (hw : ∀ e ∈ es, e.dn.Legible ∧ e.attributes.Writable)
    (hdn : t.dn base = .ok dbase) :
    (Tree.loadLdif base (Ldif.writeEntries es)).run t =
      (((Tree.loadEntries base dbase es).run t).1.map fun _ => es.length,
        ((Tree.loadEntries base dbase es).run t).2) := by
  have hbase : TreeView.dn t base = .ok dbase := hdn
  simp only [Tree.loadLdif, Edit.run_bind, Edit.run_look, hbase, parseEntries_written hw]
  cases (Tree.loadEntries base dbase es).run t with
  | mk res t' => cases res <;> rfl

theorem loadLdif_perm {k : Nat} (h : Holding top base dbase m t) (hperm : es.Perm es')
    (hdistinct : es.Pairwise fun e f => e.dn.same f.dn = false) (hfirst : ParentsFirst es)
    (hfirst' : ParentsFirst es') (hplain : ∀ e ∈ es, e.dn.PlainTypes)
    (hkeys : ∀ e ∈ es, e.attributes.Writable)
    (hrun : ((Tree.loadLdif base (Ldif.writeEntries es)).run t).1 = .ok k) :
    ((Tree.loadLdif base (Ldif.writeEntries es')).run t).1 = .ok k ∧
      Tree.HoldSame ((Tree.loadLdif base (Ldif.writeEntries es)).run t).2
        ((Tree.loadLdif base (Ldif.writeEntries es')).run t).2 := by
  have hlegible := legible_of_run_loadLdif hplain hkeys h.dn hrun
  have hw : ∀ e ∈ es, e.dn.Legible ∧ e.attributes.Writable := fun e he =>
    ⟨hlegible e he, hkeys e he⟩
  have hw' : ∀ e ∈ es', e.dn.Legible ∧ e.attributes.Writable := fun e he =>
    hw e (hperm.mem_iff.mpr he)
  rw [run_loadLdif hw h.dn] at hrun ⊢
  rw [run_loadLdif hw' h.dn]
  cases hload : (Tree.loadEntries base dbase es).run t with
  | mk res t₁ =>
  rw [hload] at hrun
  cases res with
  | error err => cases hrun
  | ok _ =>
      obtain ⟨m₁, hloaded, h₁⟩ := h.loaded_of_run hload
      obtain ⟨t₂, hload', h₂⟩ := h.load (hloaded.perm hperm hdistinct hfirst hfirst')
      rw [hload']
      refine ⟨?_, ?_⟩
      · rw [← hperm.length_eq]
        exact hrun
      · apply holdSame_of_entryAt? h₁.wellFormed.linked h₂.wellFormed.linked
        · rw [h₁.rootDn, h₂.rootDn]
        · intro d
          rw [h₁.entries, h₂.entries]

/-- After any calls, two documents of the same entries, all of different names and in both of which
    parents come first: both can be loaded or neither, and then the trees hold equal entries. -/
theorem loadLdif_order (e : Entry) (calls : List (NodeId × Call))
    (hb : (Tree.afterCalls calls (ofRoot e)).node? base = some n) (hperm : es.Perm es')
    (hdistinct : es.Pairwise fun e f => e.dn.same f.dn = false) (hfirst : ParentsFirst es)
    (hfirst' : ParentsFirst es') (hplain : ∀ e ∈ es, e.dn.PlainTypes)
    (hkeys : ∀ e ∈ es, e.attributes.Writable) :
    let t := Tree.afterCalls calls (ofRoot e)
    let first := (Tree.loadLdif base (Ldif.writeEntries es)).run t
    let second := (Tree.loadLdif base (Ldif.writeEntries es')).run t
    ∀ k, (first.1 = .ok k ↔ second.1 = .ok k) ∧
      (first.1 = .ok k → Tree.HoldSame first.2 second.2) := by
  intro t first second k
  have hw : WellFormed t := wellFormed_afterCalls (wellFormed_ofRoot e) calls
  obtain ⟨ws, hway⟩ := hw.linked.grounded hb
  have h : Holding t.rootDn base ⟨ws ++ t.rootDn.rdns⟩ (entryAt? t) t :=
    ⟨hw, rfl, hw.linked.dn_of_way hway, rfl⟩
  have hforth := loadLdif_perm (k := k) h hperm hdistinct hfirst hfirst' hplain hkeys
  have hback := loadLdif_perm (k := k) h hperm.symm
    (hperm.pairwise hdistinct fun hs => (Dn.same_comm _ _).trans hs) hfirst' hfirst
    (fun e he => hplain e (hperm.mem_iff.mpr he)) (fun e he => hkeys e (hperm.mem_iff.mpr he))
  exact ⟨⟨fun hrun => (hforth hrun).1, fun hrun => (hback hrun).1⟩, fun hrun => (hforth hrun).2⟩

/-- The record of the base stands behind that of a node two levels below it, or first of all.  The
    tree has a free slot, which another record takes in either order. -/
theorem loadLdif_order_reusing :
    let e : Entry := ⟨⟨[.single "DC" "x"]⟩, .empty⟩
    let calls : List (NodeId × Call) := [(rootId, .addChild (.single "ou" "a") .empty),
      (⟨1, 0⟩, .addChild (.single "cn" "p") .empty), (rootId, .addChild (.single "ou" "b") .empty),
      (⟨3, 0⟩, .delete)]
    let q : Entry := ⟨⟨[.single "cn" "q", .single "CN" "p", .single "ou" "a", .single "dc" "x"]⟩,
      .empty⟩
    let a : Entry := ⟨⟨[.single "OU" "a", .single "dc" "x"]⟩, .ofPairs [("sn", [[0xFF]])]⟩
    let r : Entry := ⟨⟨[⟨⟨"cn", "r"⟩, [⟨"sn", "+"⟩]⟩, .single "ou" "a", .single "DC" "x"]⟩, .empty⟩
    let s : Entry := ⟨⟨[.single "cn" "s", ⟨⟨"CN", "r"⟩, [⟨"SN", "+"⟩]⟩, .single "ou" "a",
      .single "dc" "x"]⟩, .ofPairs [("Mail", [[], [0x0A]])]⟩
    let es := [q, a, r, s]
    let es' := [a, r, s, q]
    let t := Tree.afterCalls calls (ofRoot e)
    t.free = [3] ∧
      ((Tree.loadLdif ⟨1, 0⟩ (Ldif.writeEntries es)).run t).1 = .ok 4 ∧
      ((Tree.loadLdif ⟨1, 0⟩ (Ldif.writeEntries es)).run t).2 ≠
        ((Tree.loadLdif ⟨1, 0⟩ (Ldif.writeEntries es')).run t).2 ∧
      ∀ k, (((Tree.loadLdif ⟨1, 0⟩ (Ldif.writeEntries es)).run t).1 = .ok k ↔
          ((Tree.loadLdif ⟨1, 0⟩ (Ldif.writeEntries es')).run t).1 = .ok k) ∧
        (((Tree.loadLdif ⟨1, 0⟩ (Ldif.writeEntries es)).run t).1 = .ok k →
          Tree.HoldSame ((Tree.loadLdif ⟨1, 0⟩ (Ldif.writeEntries es)).run t).2
            ((Tree.loadLdif ⟨1, 0⟩ (Ldif.writeEntries es')).run t).2) := by
  intro e calls q a r s es es' t
  have hb : t.node? ⟨1, 0⟩ = some ⟨some (rootId, .single "ou" "a"), .empty, [⟨2, 0⟩]⟩ := by
    decide +kernel
  have hdn : t.dn ⟨1, 0⟩ = .ok ⟨[.single "ou" "a", .single "DC" "x"]⟩ := by decide +kernel
  have hperm : es.Perm es' := (List.perm_append_singleton q [a, r, s]).symm
  refine ⟨by decide +kernel, ?_, ?_, loadLdif_order e calls hb hperm (by decide +kernel)
    (by decide +kernel) (by decide +kernel) (by decide +kernel) (by decide +kernel)⟩
  · rw [run_loadLdif (by decide +kernel) hdn]
    decide +kernel
  · rw [run_loadLdif (by decide +kernel) hdn, run_loadLdif (by decide +kernel) hdn]
    decide +kernel

end MemoryTree
end DirectoryStore
