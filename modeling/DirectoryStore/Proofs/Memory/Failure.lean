import DirectoryStore.Proofs.Memory.Consistency

/-!
# Failing calls of a tree in memory

Edits change the table step by step, and a step in the middle may fail.  In a well-formed tree
only a step before the first change does, so that a call that fails leaves the tree as it was,
and a list of changes stops at one that did nothing.
-/

namespace DirectoryStore
namespace MemoryTree

variable {t : MemoryTree}

theorem deleteChild_allOrNothing (h : WellFormed t) (id : NodeId) (r : Rdn) :
    (DirectoryTree.deleteChild id r).AllOrNothing t :=
  (Edit.AllOrNothing.change _).congr (run_deleteChild h id r)

theorem setAttributes_allOrNothing (id : NodeId) (attrs : AttributeMap) :
    (DirectoryTree.setAttributes id attrs).AllOrNothing t :=
  (Edit.AllOrNothing.change _).congr (run_setAttributes id attrs)

theorem call_allOrNothing (h : WellFormed t) (id : NodeId) (c : Call) :
    (Tree.call id c).AllOrNothing t := by
  cases c with
  | addChild r attrs =>
      exact ((Edit.AllOrNothing.change _).congr (run_addChild h id r attrs)).discard
  | deleteChild r => exact deleteChild_allOrNothing h id r
  | delete =>
      refine .look fun d _ => .look fun up _ => ?_
      cases up with
      | none => exact .of_error rfl
      | some up =>
          cases Tree.leaf d with
          | error e => exact .of_error (e := e) (by simp)
          | ok r => exact (deleteChild_allOrNothing h up r).congr (by simp)
  | setAttributes attrs => exact setAttributes_allOrNothing id attrs
  | modify edits =>
      refine .look fun found _ => ?_
      -- the edits are applied to a copy of the entry, which is stored only if they all succeed
      rcases Modification.applyAll edits found.attributes with ⟨attrs, _ | e⟩
      · exact setAttributes_allOrNothing id attrs
      · exact .of_error rfl
  | moveTo target => exact ((Edit.AllOrNothing.change _).congr (run_moveTo h id target)).discard

theorem patch_allOrNothing (h : WellFormed t) (c : Change) : (Tree.patch c).AllOrNothing t := by
  rcases Tree.patch_cases c t with ⟨e, he⟩ | ⟨id, k, hk⟩
  · exact .of_error he
  · exact (call_allOrNothing h id k).congr hk

theorem wellFormed_patch (h : WellFormed t) (c : Change) :
    WellFormed ((Tree.patch c).run t).2 := by
  rcases Tree.patch_cases c t with ⟨e, he⟩ | ⟨id, k, hk⟩
  · rw [he]
    exact h
  · rw [hk]
    exact (call_follows h id k).wellFormed

/-- After any calls: a call of any handle and a change by name that fail leave every slot, the
    free list and the name of the root as they were.  A list of changes that fails leaves what the
    changes before the failing one came to. -/
theorem failures_change_nothing (e : Entry) (calls : List (NodeId × Call)) :
    (∀ id c, (Tree.call id c).AllOrNothing (Tree.afterCalls calls (ofRoot e))) ∧
    (∀ c, (Tree.patch c).AllOrNothing (Tree.afterCalls calls (ofRoot e))) ∧
    ∀ cs err, ((Tree.patchAll cs).run (Tree.afterCalls calls (ofRoot e))).1 = .error err →
      ∃ before c after t', cs = before ++ c :: after ∧
        (Tree.patchAll before).run (Tree.afterCalls calls (ofRoot e)) = (.ok before.length, t') ∧
        (Tree.patch c).run t' = (.error err, t') ∧
        (Tree.patchAll cs).run (Tree.afterCalls calls (ofRoot e)) = (.error err, t') := by
  have h := wellFormed_afterCalls (wellFormed_ofRoot e) calls
  refine ⟨call_allOrNothing h, patch_allOrNothing h, fun cs err herr => ?_⟩
  rcases Tree.patchAll_cases h (fun c _ h => wellFormed_patch h c)
    (fun c _ h => patch_allOrNothing h c) cs with
      ⟨t', hall⟩ | ⟨before, c, after, e', t', hcs, hbefore, hc, hall⟩
  · rw [hall] at herr
    cases herr
  · rw [hall] at herr
    cases herr
    exact ⟨before, c, after, t', hcs, hbefore, hc, hall⟩

end MemoryTree
end DirectoryStore
