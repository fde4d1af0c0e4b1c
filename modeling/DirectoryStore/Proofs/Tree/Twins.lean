import DirectoryStore.Proofs.Entry.Spelling
import DirectoryStore.Proofs.Tree.Assembly
import DirectoryStore.Proofs.Tree.Orderly

/-!
# Differences of trees with the same contents

Trees have the same contents if walks from their roots meet the same entries.  In orderly trees the
nodes then pair up from the root down: twins have the same entry, and their children, in the order
of their relative names, are twins again.  A difference looks at nothing else, so two pairs of
trees with the same contents have the same difference, change by change.
-/

namespace DirectoryStore

open List (Forall₂)

/-- Rising lists with the same keys pair up by their keys. -/
theorem Rising.forall₂ {α β κ : Type} [LT κ] [Std.Asymm (α := κ) (· < ·)] {key : α → κ}
    {key' : β → κ} {l : List α} {m : List β} {R : α → β → Prop} (hl : Rising key l)
    (hm : Rising key' m) (hlm : ∀ x ∈ l, ∃ y ∈ m, key x = key' y)
    (hml : ∀ y ∈ m, ∃ x ∈ l, key x = key' y) (hR : ∀ x ∈ l, ∀ y ∈ m, key x = key' y → R x y) :
    Forall₂ (fun x y => key x = key' y ∧ R x y) l m := by
  have hkeys : l.map key = m.map key' := by
    have hl' : Rising id (l.map key) := List.pairwise_map.mpr hl
    have hm' : Rising id (m.map key') := List.pairwise_map.mpr hm
    refine hl'.ext hm' fun k => ?_
    rw [List.mem_map, List.mem_map]
    constructor
    · rintro ⟨x, hx, rfl⟩
      obtain ⟨y, hy, he⟩ := hlm x hx
      exact ⟨y, hy, he.symm⟩
    · rintro ⟨y, hy, rfl⟩
      exact hml y hy
  rw [← List.forall₂_eq_eq_eq, List.forall₂_map_left_iff, List.forall₂_map_right_iff] at hkeys
  refine List.forall₂_iff_zip.mpr ⟨hkeys.length_eq, fun {x y} hxy => ?_⟩
  have he := (List.forall₂_iff_zip.mp hkeys).2 hxy
  exact ⟨he, hR x (List.of_mem_zip hxy).1 y (List.of_mem_zip hxy).2 he⟩

namespace Tree

variable {α β ε ε' : Type}

/-- Changes that are found on both sides and are the same one by one. -/
def SameChanges (x : Except ε (List Change)) (y : Except ε' (List Change)) : Prop :=
  ∃ cs cs', x = .ok cs ∧ y = .ok cs' ∧ Forall₂ (fun c c' => c.same c' = true) cs cs'

namespace SameChanges

variable {R : α → β → Prop} {xs : List α} {ys : List β}

theorem gather {f : α → Except TreeError (List Change)} {g : β → Except TreeError (List Change)}
    (h : Forall₂ R xs ys) (hfg : ∀ x y, R x y → SameChanges (f x) (g y)) :
    SameChanges (gather f xs) (gather g ys) := by
  induction h with
  | nil => exact ⟨[], [], rfl, rfl, .nil⟩
  | @cons x y xs ys hxy _ ih =>
      obtain ⟨cs, cs', hcs, hcs', hsame⟩ := hfg x y hxy
      obtain ⟨ds, ds', hds, hds', hsame'⟩ := ih
      exact ⟨cs ++ ds, cs' ++ ds', by simp only [Tree.gather, hcs, hds],
        by simp only [Tree.gather, hcs', hds'], List.rel_append hsame hsame'⟩

theorem gatherChanges {f : α → Except DiffError (List Change)}
    {g : β → Except DiffError (List Change)} (h : Forall₂ R xs ys)
    (hfg : ∀ x y, R x y → SameChanges (f x) (g y)) :
    SameChanges (gatherChanges f xs) (gatherChanges g ys) := by
  induction h with
  | nil => exact ⟨[], [], rfl, rfl, .nil⟩
  | @cons x y xs ys hxy _ ih =>
      obtain ⟨cs, cs', hcs, hcs', hsame⟩ := hfg x y hxy
      obtain ⟨ds, ds', hds, hds', hsame'⟩ := ih
      exact ⟨cs ++ ds, cs' ++ ds', by simp only [Tree.gatherChanges, hcs, hds]; rfl,
        by simp only [Tree.gatherChanges, hcs', hds']; rfl, List.rel_append hsame hsame'⟩

end SameChanges

/-! ## What a difference sees of a node -/

section Single

variable {τ ν : Type} [TreeView τ ν] {t : τ} {x c : ν} {e : Entry} {below : List (Rdn × ν)}
variable {depth : Nat} {cs : List Change} {r : Rdn}

/-- The entry of a node, and its children in the order of their relative names. -/
structure Seen (t : τ) (x : ν) (e : Entry) (below : List (Rdn × ν)) : Prop where
  entry : TreeView.entry t x = .ok e
  dn : TreeView.dn t x = .ok e.dn
  children : childrenByRdn t x = .ok below
  names : ∀ z ∈ below, TreeView.dn t z.2 = .ok (e.dn.child z.1)

namespace Seen

/-- At the last level there are no children left. -/
theorem additions_eq (h : Seen t x e below) (hdepth : depth = 0 → below = [])
    (hrest : gather (fun z => additions t (depth - 1) z.2) below = .ok cs) :
    additions t depth x = .ok (.add e :: cs) := by
  cases depth with
  | zero =>
      rw [hdepth rfl] at hrest
      cases hrest
      rw [additions]
      simp only [h.entry]
  | succ depth =>
      rw [Nat.add_sub_cancel] at hrest
      rw [additions]
      simp only [h.entry, h.children, hrest]

theorem deletions_eq (h : Seen t x e below) (hdepth : depth = 0 → below = [])
    (hrest : gather (fun z => deletions t (depth - 1) z.2) below = .ok cs) :
    deletions t depth x = .ok (cs ++ [.delete e.dn]) := by
  cases depth with
  | zero =>
      rw [hdepth rfl] at hrest
      cases hrest
      simp only [deletions, h.dn, List.nil_append]
  | succ depth =>
      rw [Nat.add_sub_cancel] at hrest
      simp only [deletions, h.children, hrest, h.dn]

theorem dn_childNamed (h : Seen t x e below) (hc : childNamed r below = some c) :
    ∃ s, TreeView.dn t c = .ok (e.dn.child s) ∧ s.key = r.key := by
  rw [childNamed, Option.map_eq_some_iff] at hc
  obtain ⟨z, hz, rfl⟩ := hc
  have hkey : (z.1.key == r.key) = true :=
    List.find?_some (p := fun z : Rdn × ν => z.1.key == r.key) hz
  exact ⟨z.1, h.names z (List.mem_of_find?_eq_some hz), eq_of_beq hkey⟩

end Seen
end Single

section Pair

variable {σ μ τ ν : Type} [TreeView σ μ] [TreeView τ ν] {a : σ} {b : τ} {x : μ} {y : ν}

/-- The changes between two nodes, put together from those of their entries and children. -/
theorem diffNodes_eq {depth : Nat} {e f : Entry} {own : Option Change} {l : List (Rdn × μ)}
    {m : List (Rdn × ν)} {shared added deleted : List Change} (hx : Seen a x e l)
    (hy : Seen b y f m) (hown : e.diff f = .ok own) (hdepth : depth = 0 → l = [] ∧ m = [])
    (hshared : gatherChanges (pairChanges a b (depth - 1) m) l = .ok shared)
    (hadded : gather (fun z => additions b (depth - 1) z.2)
      (m.filter fun z => (childNamed z.1 l).isNone) = .ok added)
    (hdeleted : gather (fun z => deletions a (depth - 1) z.2)
      (l.filter fun z => (childNamed z.1 m).isNone) = .ok deleted) :
    diffNodes a b depth x y = .ok (own.toList ++ shared ++ added ++ deleted) := by
  cases depth with
  | zero =>
      obtain ⟨rfl, rfl⟩ := hdepth rfl
      cases hshared
      cases hadded
      cases hdeleted
      rw [diffNodes_zero hx.entry hy.entry hown, List.append_nil, List.append_nil, List.append_nil]
  | succ depth =>
      exact diffNodes_succ_eq_ok_iff.mpr ⟨e, f, own, l, m, shared, added, deleted, hx.entry,
        hy.entry, hown, hx.children, hy.children, hshared, hadded, hdeleted, rfl⟩

/-! ## Twins -/

/-- Nodes of the same entry whose children pair up, in the order of their relative names, into
    twins.  Below them are less than so many levels. -/
def Twins (a : σ) (b : τ) : Nat → μ → ν → Prop
  | 0, _, _ => False
  | n + 1, x, y => ∃ e f l m, Seen a x e l ∧ Seen b y f m ∧ e.same f = true ∧
      Forall₂ (fun z w => z.1.key = w.1.key ∧ Twins a b n z.2 w.2) l m

/-- Children that pair up. -/
def TwinChildren (a : σ) (b : τ) (n : Nat) : List (Rdn × μ) → List (Rdn × ν) → Prop :=
  Forall₂ fun z w => z.1.key = w.1.key ∧ Twins a b n z.2 w.2

namespace TwinChildren

variable {n : Nat} {l : List (Rdn × μ)} {m : List (Rdn × ν)} {r s : Rdn}

theorem eq_nil (h : TwinChildren a b 0 l m) : l = [] ∧ m = [] := by
  cases h with
  | nil => exact ⟨rfl, rfl⟩
  | cons hzw _ => exact hzw.2.elim

theorem childNamed_rel (h : TwinChildren a b n l m) (hkey : r.key = s.key) :
    Option.Rel (Twins a b n) (childNamed r l) (childNamed s m) := by
  induction h with
  | nil => exact .none
  | @cons z w l m hzw _ ih =>
      rw [childNamed, childNamed, Rising.find?, Rising.find?, List.find?_cons, List.find?_cons,
        ← hzw.1, ← hkey]
      cases hz : z.1.key == r.key with
      | true => exact .some hzw.2
      | false =>
          rw [childNamed, childNamed, ← hkey] at ih
          exact ih

theorem isNone_childNamed (h : TwinChildren a b n l m) (hkey : r.key = s.key) :
    (childNamed r l).isNone = (childNamed s m).isNone := by
  have hrel := h.childNamed_rel hkey
  generalize childNamed r l = found, childNamed s m = found' at hrel ⊢
  cases hrel <;> rfl

end TwinChildren

/-- What is added for one twin is added for the other. -/
theorem Twins.additions {n depth depth' : Nat} (h : Twins a b n x y) (hdepth : n ≤ depth + 1)
    (hdepth' : n ≤ depth' + 1) : SameChanges (additions a depth x) (additions b depth' y) := by
  induction n generalizing depth depth' x y with
  | zero => exact h.elim
  | succ n ih =>
      obtain ⟨e, f, l, m, hx, hy, hsame, hbelow⟩ := h
      have hnil : n = 0 → l = [] ∧ m = [] := fun hn => TwinChildren.eq_nil (hn ▸ hbelow)
      have hdepth₁ : n ≤ depth - 1 + 1 := by omega
      have hdepth₂ : n ≤ depth' - 1 + 1 := by omega
      obtain ⟨cs, cs', hcs, hcs', hrest⟩ := SameChanges.gather hbelow fun z w hzw =>
        ih hzw.2 hdepth₁ hdepth₂
      exact ⟨_, _, hx.additions_eq (fun h0 => (hnil (by omega)).1) hcs,
        hy.additions_eq (fun h0 => (hnil (by omega)).2) hcs', .cons hsame hrest⟩

/-- What is deleted for one twin is deleted for the other. -/
theorem Twins.deletions {n depth depth' : Nat} (h : Twins a b n x y) (hdepth : n ≤ depth + 1)
    (hdepth' : n ≤ depth' + 1) : SameChanges (deletions a depth x) (deletions b depth' y) := by
  induction n generalizing depth depth' x y with
  | zero => exact h.elim
  | succ n ih =>
      obtain ⟨e, f, l, m, hx, hy, hsame, hbelow⟩ := h
      have hnil : n = 0 → l = [] ∧ m = [] := fun hn => TwinChildren.eq_nil (hn ▸ hbelow)
      have hdepth₁ : n ≤ depth - 1 + 1 := by omega
      have hdepth₂ : n ≤ depth' - 1 + 1 := by omega
      obtain ⟨cs, cs', hcs, hcs', hrest⟩ := SameChanges.gather hbelow fun z w hzw =>
        ih hzw.2 hdepth₁ hdepth₂
      exact ⟨_, _, hx.deletions_eq (fun h0 => (hnil (by omega)).1) hcs,
        hy.deletions_eq (fun h0 => (hnil (by omega)).2) hcs',
        List.rel_append hrest (.cons (Entry.same_iff.mp hsame).1 .nil)⟩

end Pair

/-! ## Two pairs of twins -/

section Pairs

variable {σ μ σ' μ' τ ν τ' ν' : Type} [TreeView σ μ] [TreeView σ' μ'] [TreeView τ ν]
variable [TreeView τ' ν'] {a : σ} {a' : σ'} {b : τ} {b' : τ'} {n k depth depth' : Nat}

section Children

variable {l : List (Rdn × μ)} {l' : List (Rdn × μ')} {m : List (Rdn × ν)} {m' : List (Rdn × ν')}

/-- Of twins, the same children are missing on the other side. -/
theorem TwinChildren.filter (hl : TwinChildren a a' n l l') (hm : TwinChildren b b' k m m') :
    TwinChildren b b' k (m.filter fun z => (childNamed z.1 l).isNone)
      (m'.filter fun z => (childNamed z.1 l').isNone) := by
  refine List.rel_filter (fun z w hzw => ?_) hm
  exact iff_of_eq (congrArg (· = true) (hl.isNone_childNamed hzw.1))

theorem TwinChildren.added (h : TwinChildren b b' k m m') (hdepth : k ≤ depth + 1)
    (hdepth' : k ≤ depth' + 1) : SameChanges (gather (fun z => additions b depth z.2) m)
      (gather (fun z => additions b' depth' z.2) m') :=
  .gather h fun _ _ hzw => hzw.2.additions hdepth hdepth'

theorem TwinChildren.deleted (h : TwinChildren a a' n l l') (hdepth : n ≤ depth + 1)
    (hdepth' : n ≤ depth' + 1) : SameChanges (gather (fun z => deletions a depth z.2) l)
      (gather (fun z => deletions a' depth' z.2) l') :=
  .gather h fun _ _ hzw => hzw.2.deletions hdepth hdepth'

/-- What both sides have below twins differs in the same way, if that is so for all twins below
    them that have the same name. -/
theorem TwinChildren.shared {e f : Entry} {x : μ} {y : ν} (hx : Seen a x e l)
    (hy : Seen b y f m) (hsame : e.dn.same f.dn = true) (hl : TwinChildren a a' n l l')
    (hm : TwinChildren b b' k m m')
    (hbelow : ∀ {z z' w w' d d'}, Twins a a' n z z' → Twins b b' k w w' →
      TreeView.dn a z = .ok d → TreeView.dn b w = .ok d' → d.same d' = true →
      SameChanges (diffNodes a b depth z w) (diffNodes a' b' depth' z' w')) :
    SameChanges (gatherChanges (pairChanges a b depth m) l)
      (gatherChanges (pairChanges a' b' depth' m') l') := by
  refine .gatherChanges ((List.forall₂_and_left _ _).mpr ⟨hx.names, hl⟩) ?_
  rintro z z' ⟨hz, hkey, hzz⟩
  rw [pairChanges, pairChanges]
  have hrel := hm.childNamed_rel hkey
  cases hw : childNamed z.1 m with
  | none =>
      rw [hw] at hrel
      cases hw' : childNamed z'.1 m' with
      | none => exact ⟨[], [], rfl, rfl, .nil⟩
      | some w' =>
          rw [hw'] at hrel
          cases hrel
  | some w =>
      rw [hw] at hrel
      obtain ⟨s, hdn, hs⟩ := hy.dn_childNamed hw
      cases hw' : childNamed z'.1 m' with
      | none =>
          rw [hw'] at hrel
          cases hrel
      | some w' =>
          rw [hw'] at hrel
          cases hrel with
          | some hww =>
              exact hbelow hzz hww hz hdn (same_child_iff.mpr ⟨hsame, Rdn.same_iff.mpr hs.symm⟩)

end Children

/-- The changes between two nodes are those between their twins. -/
theorem Twins.diffNodes {x : μ} {x' : μ'} {y : ν} {y' : ν'} {d d' : Dn}
    (hx : Twins a a' n x x') (hy : Twins b b' k y y') (hd : TreeView.dn a x = .ok d)
    (hd' : TreeView.dn b y = .ok d') (hsame : d.same d' = true) (hn : n ≤ depth + 1)
    (hn' : n ≤ depth' + 1) (hk : k ≤ depth + 1) (hk' : k ≤ depth' + 1) :
    SameChanges (diffNodes a b depth x y) (diffNodes a' b' depth' x' y') := by
  induction n generalizing k depth depth' x x' y y' d d' with
  | zero => exact hx.elim
  | succ n ih =>
      cases k with
      | zero => exact hy.elim
      | succ k =>
          obtain ⟨e, e', l, l', hx, hx', he, hl⟩ := hx
          obtain ⟨f, f', m, m', hy, hy', hf, hm⟩ := hy
          have hl : TwinChildren a a' n l l' := hl
          have hm : TwinChildren b b' k m m' := hm
          cases hd.symm.trans hx.dn
          cases hd'.symm.trans hy.dn
          have hlast : ∀ {j}, n ≤ j → k ≤ j → j = 0 →
              (l = [] ∧ m = []) ∧ l' = [] ∧ m' = [] := by
            rintro _ hn hk rfl
            obtain rfl := Nat.le_zero.mp hn
            obtain rfl := Nat.le_zero.mp hk
            exact ⟨⟨hl.eq_nil.1, hm.eq_nil.1⟩, hl.eq_nil.2, hm.eq_nil.2⟩
          obtain ⟨own, own', hown, hown', howns⟩ := Entry.diff_rel he hf hsame
          have hn₁ : n ≤ depth - 1 + 1 := by omega
          have hn₂ : n ≤ depth' - 1 + 1 := by omega
          have hk₁ : k ≤ depth - 1 + 1 := by omega
          have hk₂ : k ≤ depth' - 1 + 1 := by omega
          obtain ⟨shared, shared', hshared, hshared', hshareds⟩ :=
            TwinChildren.shared hx hy hsame hl hm fun hzz hww hz hw hzw =>
              ih hzz hww hz hw hzw hn₁ hn₂ hk₁ hk₂
          obtain ⟨added, added', hadded, hadded', haddeds⟩ := (hl.filter hm).added hk₁ hk₂
          obtain ⟨deleted, deleted', hdeleted, hdeleted', hdeleteds⟩ :=
            (hm.filter hl).deleted hn₁ hn₂
          have hours := diffNodes_eq hx hy hown
            (fun h0 => (hlast (by omega) (by omega) h0).1) hshared hadded hdeleted
          have htheirs := diffNodes_eq hx' hy' hown'
            (fun h0 => (hlast (by omega) (by omega) h0).2) hshared' hadded' hdeleted'
          exact ⟨_, _, hours, htheirs, List.rel_append
            (List.rel_append (List.rel_append howns hshareds) haddeds) hdeleteds⟩

end Pairs

/-! ## Trees with the same contents -/

section Contents

variable {σ μ τ ν : Type} [TreeView σ μ] [TreeView τ ν] {a : σ} {b : τ} {x c : μ} {y : ν}
variable {n : Nat} {d d' : Dn} {r : Rdn} {below : List μ}

/-- Every node of both trees has an entry, and the entries are the same. -/
structure SameContents (a : σ) (b : τ) : Prop
    extends Alike a (TreeView.root a) b (TreeView.root b) where
  readable : Readable a
  readable_right : Readable b

namespace SameContents

theorem symm (h : SameContents a b) : SameContents b a :=
  ⟨h.toAlike.symm, h.readable_right, h.readable⟩

theorem exists_same (h : SameContents a b) (hx : Below a (TreeView.root a) x) :
    ∃ y e f, Below b (TreeView.root b) y ∧ TreeView.entry a x = .ok e ∧
      TreeView.entry b y = .ok f ∧ e.same f = true := by
  obtain ⟨e, he⟩ := h.readable x hx
  obtain ⟨f, ⟨y, hy, hf⟩, hef⟩ := h.left e ⟨x, hx, he⟩
  exact ⟨y, e, f, hy, he, hf, hef⟩

/-- A node of the other tree with the same name has the same entry. -/
theorem exists_entries (h : SameContents a b) (ha : Orderly a) (hb : Orderly b)
    (hx : Level a n x) (hy : Level b n y) (hd : TreeView.dn a x = .ok d)
    (hd' : TreeView.dn b y = .ok d') (hsame : d.same d' = true) :
    ∃ e f, TreeView.entry a x = .ok e ∧ TreeView.entry b y = .ok f ∧ e.same f = true := by
  obtain ⟨z, e, f, hz, he, hf, hef⟩ := h.exists_same (ha.below_iff.mpr ⟨n, hx⟩)
  obtain ⟨k, hz⟩ := hb.below_iff.mp hz
  cases hd.symm.trans (ha.entry_dn he)
  obtain ⟨-, rfl⟩ := hb.unique hz hy (hb.entry_dn hf) hd'
    (Dn.same_trans (Dn.same_symm (Entry.same_iff.mp hef).1) hsame)
  exact ⟨e, f, he, hf, hef⟩

/-- A child of a node has its like below a node of the same name. -/
theorem exists_child (h : SameContents a b) (ha : Orderly a) (hb : Orderly b)
    (hx : Level a n x) (hy : Level b n y) (hd' : TreeView.dn b y = .ok d')
    (hsame : d.same d' = true) (hbelow : TreeView.children a x = .ok below) (hc : c ∈ below)
    (hr : TreeView.dn a c = .ok (d.child r)) :
    ∃ below' c' s, TreeView.children b y = .ok below' ∧ c' ∈ below' ∧
      TreeView.dn b c' = .ok (d'.child s) ∧ r.same s = true := by
  obtain ⟨c', e, f, hc', he, hf, hef⟩ :=
    h.exists_same (ha.below_iff.mpr ⟨n + 1, hx.child hbelow hc⟩)
  obtain ⟨k, hc'⟩ := hb.below_iff.mp hc'
  have hef := (Entry.same_iff.mp hef).1
  rw [← Except.ok.inj (hr.symm.trans (ha.entry_dn he))] at hef
  have hdn := hb.entry_dn hf
  -- the names are one longer than those of the nodes, so the levels are one deeper
  obtain ⟨base, hbase⟩ := hb.exists_dn .root
  have hsize := hb.size_eq hbase hc' hdn
  have hsize' := hb.size_eq hbase hy hd'
  have hchild : (d.child r).size = d.size + 1 := rfl
  have hef' := Dn.size_eq_of_same hef
  have hsame' := Dn.size_eq_of_same hsame
  obtain rfl : k = n + 1 := by omega
  obtain ⟨z, up, below', s, hz, hup, hbelow', hmem, hs⟩ := hb.exists_up hc' hdn
  rw [hs] at hef hdn
  obtain ⟨hup', hrs⟩ := same_child_iff.mp hef
  obtain ⟨-, rfl⟩ := hb.unique hz hy hup hd' (Dn.same_trans (Dn.same_symm hup') hsame)
  cases hup.symm.trans hd'
  exact ⟨below', c', s, hbelow', hmem, hdn, hrs⟩

/-- Nodes of the same name are twins if all below them are. -/
theorem twins_succ {depth : Nat} (h : SameContents a b) (ha : Orderly a) (hb : Orderly b)
    (hx : Level a n x) (hy : Level b n y) (hd : TreeView.dn a x = .ok d)
    (hd' : TreeView.dn b y = .ok d') (hsame : d.same d' = true)
    (hchildren : ∀ {c c' d d'}, Level a (n + 1) c → Level b (n + 1) c' → TreeView.dn a c = .ok d →
      TreeView.dn b c' = .ok d' → d.same d' = true → Twins a b depth c c') :
    Twins a b (depth + 1) x y := by
  obtain ⟨e, f, he, hf, hef⟩ := h.exists_entries ha hb hx hy hd hd' hsame
  obtain ⟨_, below, l, hd₁, hbelow, hl, hrising, hmem⟩ := ha.childrenByRdn_eq_ok hx
  obtain ⟨_, below', m, hd₁', hbelow', hm, hrising', hmem'⟩ := hb.childrenByRdn_eq_ok hy
  cases hd.symm.trans (ha.entry_dn he)
  cases hd'.symm.trans (hb.entry_dn hf)
  cases hd₁.symm.trans hd
  cases hd₁'.symm.trans hd'
  refine ⟨e, f, l, m, ⟨he, hd, hl, fun z hz => ((hmem z.1 z.2).mp hz).2⟩,
    ⟨hf, hd', hm, fun z hz => ((hmem' z.1 z.2).mp hz).2⟩, hef,
    Rising.forall₂ hrising hrising' ?_ ?_ ?_⟩
  · rintro ⟨r, c⟩ hz
    obtain ⟨hc, hr⟩ := (hmem r c).mp hz
    obtain ⟨_, c', s, hchild, hc', hs, hrs⟩ :=
      h.exists_child ha hb hx hy hd' hsame hbelow hc hr
    cases hchild.symm.trans hbelow'
    exact ⟨(s, c'), (hmem' s c').mpr ⟨hc', hs⟩, Rdn.same_iff.mp hrs⟩
  · rintro ⟨s, c'⟩ hw
    obtain ⟨hc', hs⟩ := (hmem' s c').mp hw
    obtain ⟨_, c, r, hchild, hc, hr, hsr⟩ :=
      h.symm.exists_child hb ha hy hx hd (Dn.same_symm hsame) hbelow' hc' hs
    cases hchild.symm.trans hbelow
    exact ⟨(r, c), (hmem r c).mpr ⟨hc, hr⟩, (Rdn.same_iff.mp hsr).symm⟩
  · rintro ⟨r, c⟩ hz ⟨s, c'⟩ hw hkey
    obtain ⟨hc, hr⟩ := (hmem r c).mp hz
    obtain ⟨hc', hs⟩ := (hmem' s c').mp hw
    exact hchildren (hx.child hbelow hc) (hy.child hbelow' hc') hr hs
      (same_child_iff.mpr ⟨hsame, Rdn.same_iff.mpr hkey⟩)

/-- Nodes of the same name are twins. -/
theorem twins {depth : Nat} (h : SameContents a b) (ha : Orderly a) (hb : Orderly b)
    (hx : Level a n x) (hy : Level b n y) (hd : TreeView.dn a x = .ok d)
    (hd' : TreeView.dn b y = .ok d') (hsame : d.same d' = true)
    (hdepth : min (TreeView.height a) (TreeView.height b) ≤ depth + n) :
    Twins a b (depth + 1) x y := by
  induction depth generalizing n x y d d' with
  | zero =>
      refine h.twins_succ ha hb hx hy hd hd' hsame fun hc hc' _ _ _ => ?_
      have hlevel := ha.level_le hc
      have hlevel' := hb.level_le hc'
      omega
  | succ depth ih =>
      exact h.twins_succ ha hb hx hy hd hd' hsame fun hc hc' hd hd' hsame =>
        ih hc hc' hd hd' hsame (by omega)

end SameContents
end Contents

section Differences

variable {σ μ σ' μ' τ ν τ' ν' : Type} [TreeView σ μ] [TreeView σ' μ'] [TreeView τ ν]
variable [TreeView τ' ν'] {a : σ} {a' : σ'} {b : τ} {b' : τ'} {d : Dn}

/-- Between nodes that have twins, the difference of all that is below them is found, and it is
    that between the twins. -/
theorem Twins.diffSubtrees {n k : Nat} {x : μ} {x' : μ'} {y : ν} {y' : ν'} {d d' : Dn}
    (hx : Twins a a' n x x') (hy : Twins b b' k y y') (hd : TreeView.dn a x = .ok d)
    (hd' : TreeView.dn b y = .ok d') (hsame : d.same d' = true)
    (hn : n ≤ min (TreeView.height a) (TreeView.height a') + 1)
    (hk : k ≤ min (TreeView.height b) (TreeView.height b') + 1) :
    SameChanges (diffSubtrees a x b y) (diffSubtrees a' x' b' y') := by
  have hn₁ : n ≤ TreeView.height a + TreeView.height b + 1 := by omega
  have hn₂ : n ≤ TreeView.height a' + TreeView.height b' + 1 := by omega
  have hk₁ : k ≤ TreeView.height a + TreeView.height b + 1 := by omega
  have hk₂ : k ≤ TreeView.height a' + TreeView.height b' + 1 := by omega
  have hnodes := hx.diffNodes hy hd hd' hsame hn₁ hn₂ hk₁ hk₂
  cases n with
  | zero => exact hx.elim
  | succ n =>
  cases k with
  | zero => exact hy.elim
  | succ k =>
      obtain ⟨e, e', _, _, hse, hse', he, -⟩ := hx
      obtain ⟨f, f', _, _, hsf, hsf', hf, -⟩ := hy
      cases hd.symm.trans hse.dn
      cases hd'.symm.trans hsf.dn
      have hsame' : e'.dn.same f'.dn = true :=
        Dn.same_trans (Dn.same_symm (Entry.same_iff.mp he).1)
          (Dn.same_trans hsame (Entry.same_iff.mp hf).1)
      rwa [diffSubtrees_eq hse.entry hsf.entry hsame, diffSubtrees_eq hse'.entry hsf'.entry hsame']

/-- The difference of two orderly trees of one name is found, and it is that of any two orderly
    trees of this name with the same contents. -/
theorem SameContents.diffTrees (h : SameContents a a') (h' : SameContents b b') (ha : Orderly a)
    (ha' : Orderly a') (hb : Orderly b) (hb' : Orderly b') (hda : Named a d) (hda' : Named a' d)
    (hdb : Named b d) (hdb' : Named b' d) : SameChanges (diffTrees a b) (diffTrees a' b') := by
  obtain ⟨da, hda, hsa⟩ := hda
  obtain ⟨da', hda', hsa'⟩ := hda'
  obtain ⟨db, hdb, hsb⟩ := hdb
  obtain ⟨db', hdb', hsb'⟩ := hdb'
  have hta := h.twins ha ha' .root .root hda hda' (Dn.same_trans hsa (Dn.same_symm hsa'))
    (Nat.le_refl _)
  have htb := h'.twins hb hb' .root .root hdb hdb' (Dn.same_trans hsb (Dn.same_symm hsb'))
    (Nat.le_refl _)
  exact hta.diffSubtrees htb hda hdb (Dn.same_trans hsa (Dn.same_symm hsb)) (Nat.le_refl _)
    (Nat.le_refl _)

end Differences
end Tree
end DirectoryStore
