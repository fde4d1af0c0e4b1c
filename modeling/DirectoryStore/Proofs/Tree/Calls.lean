import DirectoryStore.Tree.Contract

/-!
# Runs of a tree

The edits that a tree provides are calls of a node.  A run makes calls one after another and
goes on after failures; a failing call may have changed the tree, and the run goes on from
what it left.
-/

namespace DirectoryStore

namespace Edit

variable {τ α β : Type} (t : τ)

/-- The result of an edit of `t`, and the tree afterwards. -/
def run (x : Edit τ α) (t : τ) : Except TreeError α × τ :=
  x t

@[simp] theorem run_pure (a : α) : (Pure.pure a : Edit τ α).run t = (.ok a, t) := rfl

@[simp] theorem run_fail (e : TreeError) : (fail e : Edit τ α).run t = (.error e, t) := rfl

@[simp] theorem run_look (g : τ → Except TreeError α) : (look g).run t = (g t, t) := rfl

@[simp] theorem run_ofExcept (x : Except TreeError α) :
    (ofExcept x : Edit τ α).run t = (x, t) := rfl

@[simp] theorem run_bind (x : Edit τ α) (f : α → Edit τ β) :
    (x >>= f).run t = match x.run t with
      | (.ok a, t') => (f a).run t'
      | (.error e, t') => (.error e, t') := rfl

@[simp] theorem run_change (g : τ → Except TreeError (α × τ)) :
    (change g).run t = match g t with
      | .ok (a, t') => (.ok a, t')
      | .error e => (.error e, t) := rfl

theorem bind_eq_ok {x : Edit τ α} {k : α → Edit τ β} {t t' : τ} {b : β}
    (h : (x >>= k).run t = (.ok b, t')) :
    ∃ a t₁, x.run t = (.ok a, t₁) ∧ (k a).run t₁ = (.ok b, t') := by
  rw [run_bind] at h
  rcases hrun : x.run t with ⟨e | a, t₁⟩ <;> rw [hrun] at h
  · cases h
  · exact ⟨a, t₁, rfl, h⟩

theorem look_eq_ok {f : τ → Except TreeError α} {k : α → Edit τ β} {t t' : τ} {b : β}
    (h : (look f >>= k).run t = (.ok b, t')) :
    ∃ a, f t = .ok a ∧ (k a).run t = (.ok b, t') := by
  obtain ⟨a, t₁, hlook, h⟩ := bind_eq_ok h
  rw [run_look, Prod.mk.injEq] at hlook
  obtain ⟨hf, rfl⟩ := hlook
  exact ⟨a, hf, h⟩

/-- What becomes of the tree does not depend on whether the result is used. -/
theorem snd_discard (x : Edit τ α) :
    ((do let _ ← x : Edit τ Unit).run t).2 = (x.run t).2 := by
  rw [run_bind]
  rcases x.run t with ⟨_ | _, _⟩ <;> rfl

theorem snd_change (f : τ → Except TreeError (α × τ)) :
    ((change f).run t).2 = t ∨ ∃ a, f t = .ok (a, ((change f).run t).2) := by
  rw [run_change]
  cases hf : f t with
  | error e => exact .inl rfl
  | ok p => exact .inr ⟨p.1, rfl⟩

/-- Whatever the tree is, what the edit comes to satisfies `p`. -/
def Yields (p : α → Prop) (x : Edit τ α) : Prop :=
  ∀ t a, (x.run t).1 = .ok a → p a

namespace Yields

variable {p : α → Prop} {q : β → Prop} {x : Edit τ α} {k : α → Edit τ β} {a : α}

theorem pure (h : p a) : (Pure.pure a : Edit τ α).Yields p := by
  intro t b hb
  cases hb
  exact h

theorem fail (e : TreeError) : (Edit.fail e : Edit τ α).Yields p :=
  nofun

theorem bind (hx : x.Yields p) (hk : ∀ a, p a → (k a).Yields q) : (x >>= k).Yields q := by
  intro t b hb
  have ha := hx t
  rw [run_bind] at hb
  rcases hrun : x.run t with ⟨e | a, t'⟩ <;> rw [hrun] at ha hb
  · cases hb
  · exact hk a (ha a rfl) t' b hb

/-- Whatever an edit comes to may be gone on with. -/
theorem after (hk : ∀ a, (k a).Yields q) : (x >>= k).Yields q :=
  bind (p := fun _ => True) (fun _ _ _ => trivial) fun a _ => hk a

theorem ifThen {y : Edit τ Unit} {k : Unit → Edit τ β} {there : Bool}
    (hk : ∀ u, (k u).Yields q) : (if there = true then y >>= k else k ()).Yields q := by
  split
  · exact after hk
  · exact hk ()

end Yields

/-- If the edit fails, the tree stays as it was. -/
def AllOrNothing (x : Edit τ α) (t : τ) : Prop :=
  ∀ e, (x.run t).1 = .error e → (x.run t).2 = t

namespace AllOrNothing

variable {t} {x y : Edit τ α} {k : α → Edit τ β} {e : TreeError}

theorem congr (h : x.AllOrNothing t) (hrun : y.run t = x.run t) : y.AllOrNothing t := by
  rw [AllOrNothing, hrun]
  exact h

theorem of_error (h : x.run t = (.error e, t)) : x.AllOrNothing t := by
  intro _ _
  rw [h]

theorem change (f : τ → Except TreeError (α × τ)) : (Edit.change f).AllOrNothing t := by
  intro e he
  rw [run_change] at he ⊢
  cases hf : f t with
  | error e' => rfl
  | ok p => simp [hf] at he

/-- What an edit does before its last step is only to look. -/
theorem look {f : τ → Except TreeError α} (h : ∀ a, f t = .ok a → (k a).AllOrNothing t) :
    (Edit.look f >>= k).AllOrNothing t := by
  cases hf : f t with
  | error e =>
      refine of_error (e := e) ?_
      rw [run_bind, run_look, hf]
  | ok a =>
      refine (h a hf).congr ?_
      rw [run_bind, run_look, hf]

theorem discard (h : x.AllOrNothing t) : (do let _ ← x : Edit τ Unit).AllOrNothing t := by
  intro e he
  rw [run_bind] at he ⊢
  cases hx : x.run t with
  | mk res t' =>
      rw [hx] at he
      cases res with
      | ok a => cases he
      | error e' =>
          have hnothing := h e' (by rw [hx])
          rw [hx] at hnothing
          exact hnothing

end AllOrNothing
end Edit

/-- What a node can be asked to do. -/
inductive Call where
  | addChild (r : Rdn) (attributes : AttributeMap)
  | deleteChild (r : Rdn)
  | delete
  | setAttributes (attributes : AttributeMap)
  | modify (edits : List Modification)
  | moveTo (target : Dn)
deriving DecidableEq

namespace Tree

variable {τ ν : Type} [DirectoryTree τ ν]

/-- Makes a call of a node. -/
def call (node : ν) : Call → Edit τ Unit
  | .addChild r attributes => do let _ ← DirectoryTree.addChild node r attributes
  | .deleteChild r => DirectoryTree.deleteChild node r
  | .delete => delete node
  | .setAttributes attributes => DirectoryTree.setAttributes node attributes
  | .modify edits => modify node edits
  | .moveTo target => do let _ ← DirectoryTree.moveTo node target

/-- The tree after calls one after another, the failing ones included. -/
def afterCalls : List (ν × Call) → τ → τ
  | [], t => t
  | (node, c) :: calls, t => afterCalls calls ((call node c).run t).2

/-- What the calls are answered one after another, the failing ones included. -/
def answers : List (ν × Call) → τ → List (Except TreeError Unit)
  | [], _ => []
  | (node, c) :: calls, t => ((call node c).run t).1 :: answers calls ((call node c).run t).2

/-- A change by name fails before it comes to a node, or is a call of one. -/
theorem patch_cases (c : Change) (t : τ) :
    (∃ e, (patch c).run t = (.error e, t)) ∨ ∃ node k, (patch c).run t = (call node k).run t := by
  cases c with
  | modify target edits =>
      cases hl : lookup t (TreeView.root t) target with
      | error e => exact .inl ⟨e, by simp only [patch, Edit.run_bind, Edit.run_look, hl]⟩
      | ok node =>
          exact .inr ⟨node, .modify edits, by
            simp only [patch, call, Edit.run_bind, Edit.run_look, hl]⟩
  | delete target =>
      cases hl : lookup t (TreeView.root t) target with
      | error e => exact .inl ⟨e, by simp only [patch, Edit.run_bind, Edit.run_look, hl]⟩
      | ok node =>
          exact .inr ⟨node, .delete, by
            simp only [patch, call, Edit.run_bind, Edit.run_look, hl]⟩
  | add e =>
      cases hup : above e.dn with
      | error err => exact .inl ⟨err, by simp only [patch, Edit.run_bind, Edit.run_ofExcept, hup]⟩
      | ok up =>
          cases hl : lookup t (TreeView.root t) up with
          | error err =>
              refine .inl ⟨err, ?_⟩
              simp only [patch, Edit.run_bind, Edit.run_ofExcept, Edit.run_look, hup, hl]
          | ok node =>
              cases hr : leaf e.dn with
              | error err =>
                  refine .inl ⟨err, ?_⟩
                  simp only [patch, Edit.run_bind, Edit.run_ofExcept, Edit.run_look, hup, hl, hr]
              | ok r =>
                  refine .inr ⟨node, .addChild r e.attributes, ?_⟩
                  simp only [patch, call, Edit.run_bind, Edit.run_ofExcept, Edit.run_look, hup, hl,
                    hr]

/-- Changes that are each carried out or leave the tree alone end with all of them carried out, or
    with those before the first that fails. -/
theorem patchAll_cases {p : τ → Prop} {t : τ} (h : p t)
    (hstep : ∀ c {t}, p t → p ((patch c).run t).2)
    (hnothing : ∀ c {t}, p t → (patch c).AllOrNothing t) (cs : List Change) :
    (∃ t', (patchAll cs).run t = (.ok cs.length, t')) ∨
      ∃ before c after e t', cs = before ++ c :: after ∧
        (patchAll before).run t = (.ok before.length, t') ∧
        (patch c).run t' = (.error e, t') ∧ (patchAll cs).run t = (.error e, t') := by
  induction cs generalizing t with
  | nil => exact .inl ⟨t, rfl⟩
  | cons c cs ih =>
      have hp := hstep c h
      have hn := hnothing c h
      have hrun : ∀ ds t', (patch c).run t = (.ok (), t') →
          (patchAll (c :: ds)).run t = match (patchAll ds).run t' with
            | (.ok n, t'') => (.ok (n + 1), t'')
            | (.error e, t'') => (.error e, t'') := by
        intro ds t' hc
        simp only [patchAll, Edit.run_bind, hc, Edit.run_pure]
        rcases (patchAll ds).run t' with ⟨_ | _, _⟩ <;> rfl
      rcases hc : (patch c).run t with ⟨_ | ⟨⟩, t'⟩
      · rename_i e
        have hsame : t' = t := by simpa [hc] using hn e (by rw [hc])
        subst hsame
        refine .inr ⟨[], c, cs, e, t', rfl, rfl, hc, ?_⟩
        simp only [patchAll, Edit.run_bind, hc]
      · rw [hc] at hp
        rcases ih hp with ⟨t'', hall⟩ | ⟨before, d, after, e, t'', rfl, hbefore, hd, hall⟩
        · exact .inl ⟨t'', by rw [hrun _ _ hc, hall]; rfl⟩
        · refine .inr ⟨c :: before, d, after, e, t'', rfl, ?_, hd, ?_⟩
          · rw [hrun _ _ hc, hbefore]
            rfl
          · rw [hrun _ _ hc, hall]

end Tree
end DirectoryStore
