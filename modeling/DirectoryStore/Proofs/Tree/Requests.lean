import DirectoryStore.Proofs.Files.Contents
import DirectoryStore.Proofs.Tree.Calls

/-!
# Requests

A request calls the node that a name leads to from the root.  Kinds of trees are compared by
how they answer the same requests.
-/

namespace DirectoryStore

open Ldif (SafeKey)

/-- A call of the node that a name leads to from the root. -/
structure Request where
  name : Dn
  call : Call
deriving DecidableEq

/-- Whether files can keep what a call brings: the types in names are words that can be read, and
    LDIF preserves the types of attributes. -/
def Call.Storable : Call → Prop
  | addChild r attributes => r.Legible ∧ attributes.Writable
  | setAttributes attributes => attributes.Writable
  | modify edits => ∀ m ∈ edits, SafeKey m.key
  | moveTo target => target.Legible
  | deleteChild _ | delete => True

instance : DecidablePred Call.Storable
  | .addChild _ _ => inferInstanceAs (Decidable (_ ∧ _))
  | .setAttributes attributes => inferInstanceAs (Decidable attributes.Writable)
  | .modify edits => inferInstanceAs (Decidable (∀ m ∈ edits, SafeKey m.key))
  | .moveTo target => inferInstanceAs (Decidable target.Legible)
  | .deleteChild _ | .delete => inferInstanceAs (Decidable True)

/-- The same kind of fault, about names that are the same. -/
def TreeError.same : TreeError → TreeError → Bool
  | notFound d, notFound d' => d.same d'
  | alreadyExists d, alreadyExists d' => d.same d'
  | notLeaf d, notLeaf d' => d.same d'
  | rootStays d, rootStays d' => d.same d'
  | invalidMove d target, invalidMove d' target' => d.same d' && target.same target'
  | e, f => e = f

theorem TreeError.same_refl (e : TreeError) : e.same e = true := by
  cases e with
  | notFound d => exact Dn.same_refl d
  | alreadyExists d => exact Dn.same_refl d
  | notLeaf d => exact Dn.same_refl d
  | rootStays d => exact Dn.same_refl d
  | invalidMove d target =>
      rw [same, Dn.same_refl, Dn.same_refl]
      rfl
  | _ => simp only [same, decide_true]

/-- Two answers agree: both succeed, or both fail with the same fault. -/
inductive Agree {α β : Type} : Except TreeError α → Except TreeError β → Prop where
  | ok (a : α) (b : β) : Agree (.ok a) (.ok b)
  | error {e f : TreeError} : e.same f = true → Agree (.error e) (.error f)

namespace Tree

variable {τ ν : Type} [DirectoryTree τ ν]

/-- Carries out a request. -/
def answer (q : Request) : Edit τ Unit := do
  call (← Edit.look fun t : τ => lookup t (TreeView.root t) q.name) q.call

theorem answer_of_found {t : τ} {q : Request} {node : ν}
    (h : lookup t (TreeView.root t) q.name = .ok node) :
    (answer q).run t = (call node q.call).run t := by
  rw [answer, Edit.run_bind, Edit.run_look, h]

theorem answer_of_missing {t : τ} {q : Request} {e : TreeError}
    (h : lookup t (TreeView.root t) q.name = .error e) : (answer q).run t = (.error e, t) := by
  rw [answer, Edit.run_bind, Edit.run_look, h]

/-- What requests are answered one after another, the failing ones included, each with the tree
    afterwards. -/
def trace : List Request → τ → List (Except TreeError Unit × τ)
  | [], _ => []
  | q :: qs, t => (answer q).run t :: trace qs ((answer q).run t).2

end Tree
end DirectoryStore
