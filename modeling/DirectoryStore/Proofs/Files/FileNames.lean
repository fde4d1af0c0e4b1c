import DirectoryStore.Proofs.Files.Interruption
import DirectoryStore.Proofs.Files.Moving

/-!
# File names and names

A relative name is called by its stem on disk, and the stem reads back as the relative name.  No
slash is left in a stem and no NUL, so a stem with a suffix is one name in a written path, and the
path of an entry below a node leads to the names that it was made of.
-/

namespace DirectoryStore

variable {c mark : Char} {cs rest : List Char} {css : List (List Char)} {stem : String}
variable {names : List String} {p : Path} {r : Rdn} {rs : List Rdn}

/-! ## Characters of stems -/

/-- What is joined has no other characters than its parts and the mark. -/
theorem not_mem_intercalate (hmark : c ≠ mark) (h : ∀ cs ∈ css, c ∉ cs) :
    c ∉ [mark].intercalate css := by
  induction css with
  | nil => exact List.not_mem_nil
  | cons cs css ih =>
      rw [List.forall_mem_cons] at h
      cases css with
      | nil =>
          rw [List.intercalate_singleton]
          exact h.1
      | cons cs' css =>
          rw [List.intercalate_cons_cons, List.mem_append, List.mem_append, List.mem_singleton]
          rintro ((hc | hc) | hc)
          · exact h.1 hc
          · exact hmark hc
          · exact ih h.2 hc

namespace Name

/-- Every NUL in a value is escaped. -/
theorem nul_not_mem_escapeChar (isFirst isLast : Bool) (c : Char) :
    '\x00' ∉ escapeChar isFirst isLast c := by
  unfold escapeChar
  split
  · rename_i hspecial
    have hnul : '\x00' ∉ specials := by decide
    rw [List.mem_cons, List.mem_singleton]
    rintro (hmark | rfl)
    · exact absurd hmark (by decide)
    · exact hnul hspecial
  split
  · decide
  split
  · decide
  split
  · rename_i hcontrol
    have hall : ∀ k : Fin 32, '\x00' ∉ '\\' :: Hex.upperPair (UInt8.ofNat k) := by decide
    exact hall ⟨c.toNat, hcontrol⟩
  · rename_i hplain
    rw [List.mem_singleton]
    rintro rfl
    exact hplain (by decide)

theorem nul_not_mem_escapeFrom (isFirst : Bool) (cs : List Char) :
    '\x00' ∉ escapeFrom isFirst cs := by
  induction cs generalizing isFirst with
  | nil => exact List.not_mem_nil
  | cons c cs ih =>
      rw [escapeFrom, List.mem_append, not_or]
      exact ⟨nul_not_mem_escapeChar isFirst cs.isEmpty c, ih false⟩

end Name

namespace Rdn

theorem nul_not_mem_chars (hr : r.Legible) : '\x00' ∉ r.chars := by
  refine not_mem_intercalate (by decide) fun cs hcs => ?_
  obtain ⟨c, hc, rfl⟩ := List.mem_map.mp hcs
  rw [Component.chars, List.mem_append, List.mem_cons]
  rintro (htype | hmark | hvalue)
  · exact absurd ((hr c hc).2 _ htype) (by decide)
  · exact absurd hmark (by decide)
  · exact Name.nul_not_mem_escapeFrom true _ hvalue

/-- What a relative name needs to be found by a file name. -/
structure HasStem (r : Rdn) : Prop where
  noSlash : '/' ∉ (fileStem r).toList
  noNul : '\x00' ∉ (fileStem r).toList
  parse : Rdn.parse (fileStem r) = .ok r
  unique : ∀ s : Rdn, s.Legible → fileStem s = fileStem r → s = r

end Rdn

theorem slash_not_mem_fileStem (r : Rdn) : '/' ∉ (fileStem r).toList := by
  rw [fileStem, String.toList_ofList, List.mem_flatMap]
  rintro ⟨c, -, hc⟩
  split at hc
  · exact absurd hc (by decide)
  · rename_i hne
    exact hne (List.mem_singleton.mp hc).symm

theorem nul_not_mem_fileStem (hr : r.Legible) : '\x00' ∉ (fileStem r).toList := by
  rw [fileStem, String.toList_ofList, List.mem_flatMap]
  rintro ⟨c, hc, hnul⟩
  split at hnul
  · exact absurd hnul (by decide)
  · rw [← List.mem_singleton.mp hnul] at hc
    exact Rdn.nul_not_mem_chars hr hc

theorem Rdn.Legible.hasStem (hr : r.Legible) : r.HasStem where
  noSlash := slash_not_mem_fileStem r
  noNul := nul_not_mem_fileStem hr
  parse := parse_fileStem hr
  unique _ hs h := fileStem_inj hs hr h

/-! ## Written paths -/

namespace Path

/-- A name as it may stand in a directory. -/
def IsName (name : String) : Prop :=
  name ≠ "" ∧ name ≠ "." ∧ name ≠ ".." ∧ '/' ∉ name.toList

theorem splitSlashes_of_not_mem (h : '/' ∉ cs) : splitSlashes cs = [cs] := by
  induction cs with
  | nil => rfl
  | cons c cs ih =>
      rw [List.mem_cons, not_or] at h
      rw [splitSlashes, if_neg (Ne.symm h.1), ih h.2]

theorem splitSlashes_append (h : '/' ∉ cs) :
    splitSlashes (cs ++ '/' :: rest) = cs :: splitSlashes rest := by
  induction cs with
  | nil => rfl
  | cons c cs ih =>
      rw [List.mem_cons, not_or] at h
      rw [List.cons_append, splitSlashes, if_neg (Ne.symm h.1), ih h.2]

theorem splitSlashes_intercalate (hne : css ≠ []) (h : ∀ cs ∈ css, '/' ∉ cs) :
    splitSlashes (['/'].intercalate css) = css := by
  induction css with
  | nil => exact absurd rfl hne
  | cons cs css ih =>
      rw [List.forall_mem_cons] at h
      cases css with
      | nil => rw [List.intercalate_singleton, splitSlashes_of_not_mem h.1]
      | cons cs' css =>
          rw [List.intercalate_cons_cons, List.append_assoc, List.singleton_append,
            splitSlashes_append h.1, ih (List.cons_ne_nil _ _) h.2]

/-- A written path has the names as parts that it was made of. -/
theorem parts_text (hne : p ≠ []) (h : ∀ name ∈ p, '/' ∉ name.toList) :
    parts (text p) = p.reverse := by
  have hslash : "/".toList = ['/'] := rfl
  rw [parts, text, String.toList_intercalate, hslash, splitSlashes_intercalate, List.map_map]
  · have hback : String.ofList ∘ String.toList = id := funext fun name => String.ofList_toList
    rw [hback, List.map_id]
  · simpa using hne
  · simpa using h

theorem foldl_step (h : ∀ name ∈ names, IsName name) : names.foldl step p = names.reverse ++ p := by
  induction names generalizing p with
  | nil => rfl
  | cons name names ih =>
      rw [List.forall_mem_cons] at h
      obtain ⟨⟨hempty, hdot, hdots, -⟩, h⟩ := h
      have hstep : step p name = name :: p := by
        rw [step, if_neg (not_or.mpr ⟨hempty, hdot⟩), if_neg hdots]
      rw [List.foldl_cons, hstep, ih h, List.reverse_cons, List.append_assoc]
      rfl

/-- A path that is written and followed leads to where it did. -/
theorem resolve_text {base : Path} (hne : p ≠ []) (h : ∀ name ∈ p, IsName name) :
    resolve base (text p) = p ++ base := by
  rw [resolve, parts_text hne fun name hname => (h name hname).2.2.2,
    foldl_step fun name hname => h name (List.mem_reverse.mp hname), List.reverse_reverse]

theorem isName_append {suffix : String} (hstem : '/' ∉ stem.toList) (hsuffix : '/' ∉ suffix.toList)
    (hlen : 2 < suffix.toList.length) : IsName (stem ++ suffix) := by
  have hlong : 2 < (stem ++ suffix).toList.length := by
    rw [String.toList_append, List.length_append]
    omega
  refine ⟨?_, ?_, ?_, ?_⟩
  · intro he
    simp [he] at hlong
  · intro he
    simp [he] at hlong
  · intro he
    simp [he] at hlong
  · rw [String.toList_append, List.mem_append, not_or]
    exact ⟨hstem, hsuffix⟩

end Path

theorem isName_fileName (r : Rdn) : Path.IsName (fileName r) :=
  Path.isName_append (slash_not_mem_fileStem r) (by decide) (by decide)

theorem isName_dirName (r : Rdn) : Path.IsName (dirName r) :=
  Path.isName_append (slash_not_mem_fileStem r) (by decide) (by decide)

/-! ## Written ways to entries -/

/-- The written way from the directory of a node to the file of the entry that relative names lead
    to, the most specific first. -/
def wayText (r : Rdn) (rs : List Rdn) : String :=
  Path.text (fileName r :: rs.map dirName)

theorem forall_way_isName (r : Rdn) (rs : List Rdn) :
    ∀ name ∈ fileName r :: rs.map dirName, Path.IsName name := by
  rw [List.forall_mem_cons, List.forall_mem_map]
  exact ⟨isName_fileName r, fun s _ => isName_dirName s⟩

/-- The written way leads to the file of the entry, and it reads back as the name of the entry. -/
structure FileNode.Traced (node : FileNode) (r : Rdn) (rs : List Rdn) : Prop where
  leads : Path.resolve node.dir (wayText r rs) = (node.down (r :: rs)).ldif
  reads : dnBelow? node.dn (Path.parts (wayText r rs)) = some ⟨r :: rs ++ node.dn.rdns⟩
  dn : (node.down (r :: rs)).dn = ⟨r :: rs ++ node.dn.rdns⟩

theorem FileNode.traced (node : FileNode) (hrs : ∀ x ∈ r :: rs, x.Legible) :
    node.Traced r rs where
  leads := by
    rw [wayText, Path.resolve_text (List.cons_ne_nil _ _) (forall_way_isName r rs), down_ldif,
      down_dir, List.cons_append]
  reads := by
    rw [wayText, Path.parts_text (List.cons_ne_nil _ _) fun name hname =>
      (forall_way_isName r rs name hname).2.2.2]
    exact dnBelow?_entry node.dn hrs
  dn := node.down_dn (r :: rs)

/-- File names and names translate both ways: relative names to stems and back, written ways to
    names, and the handle of a child to that of the node above it. -/
theorem FileTree.names_translate (t : FileTree) :
    (∀ r : Rdn, r.Legible → r.HasStem) ∧
    (∀ (node : FileNode) (r : Rdn) (rs : List Rdn), (∀ x ∈ r :: rs, x.Legible) →
      node.Traced r rs) ∧
    ∀ up, Issued t.root up → ∀ r stem, t.parent (up.child r stem) = .ok (some up) :=
  ⟨fun _ hr => hr.hasStem, fun node _ _ hrs => node.traced hrs, fun _ hup => parent_child hup⟩

theorem FileTree.names_translate_awkward :
    let root : FileNode := ⟨⟨[.single "dc" "x"]⟩, ["t.ldif"], ["t"]⟩
    let t : FileTree := ⟨.empty, root⟩
    let r : Rdn := .single "cn" "\\/\x00.ldif"
    let s : Rdn := .single "OU" "a/b.dir"
    fileStem r = "cn=\\\\\\2F\\00.ldif" ∧ r.HasStem ∧ root.Traced r [s] ∧
      t.parent (root.down [r, s]) = .ok (some (root.down [s])) := by
  intro root t r s
  have hlegible : ∀ x ∈ [r, s], x.Legible := by decide +kernel
  obtain ⟨hstem, htraced, hparent⟩ := names_translate t
  refine ⟨by decide +kernel, hstem r (hlegible r List.mem_cons_self),
    htraced root r [s] hlegible, ?_⟩
  exact hparent (root.down [s]) (.child s _ .root) r (fileStem r)

end DirectoryStore
