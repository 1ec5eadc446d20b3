import Lox.Tree.Numbering
import Lox.Tree.References
import Mathlib.Data.List.Basic

namespace Lox

variable {α β γ : Type}

def Reference.relabel (f : α → β) (r : Reference α) : Reference β := ⟨f r.label, r.name⟩

mutual

/-- The expression with `f` applied to all its labels. -/
def Expr.relabel (f : α → β) : Expr α → Expr β
  | .literal value => .literal value
  | .grouping inner => .grouping (inner.relabel f)
  | .unary operator operand => .unary operator (operand.relabel f)
  | .binary left operator right => .binary (left.relabel f) operator (right.relabel f)
  | .logical left operator right => .logical (left.relabel f) operator (right.relabel f)
  | .var label name => .var (f label) name
  | .assign label name value => .assign (f label) name (value.relabel f)
  | .call callee paren arguments => .call (callee.relabel f) paren (Expr.relabelAll f arguments)
  | .get object name => .get (object.relabel f) name
  | .set object name value => .set (object.relabel f) name (value.relabel f)
  | .this label keyword => .this (f label) keyword

def Expr.relabelAll (f : α → β) : List (Expr α) → List (Expr β)
  | [] => []
  | e :: es => e.relabel f :: Expr.relabelAll f es

end

def Expr.relabelOption (f : α → β) : Option (Expr α) → Option (Expr β)
  | none => none
  | some e => some (e.relabel f)

mutual

/-- The statement with `f` applied to all its labels. -/
def Stmt.relabel (f : α → β) : Stmt α → Stmt β
  | .expression e => .expression (e.relabel f)
  | .print e => .print (e.relabel f)
  | .var name initial => .var name (Expr.relabelOption f initial)
  | .block body => .block (Stmt.relabelAll f body)
  | .branch condition consequent none =>
      .branch (condition.relabel f) (consequent.relabel f) none
  | .branch condition consequent (some alternative) =>
      .branch (condition.relabel f) (consequent.relabel f) (some (alternative.relabel f))
  | .loop condition body => .loop (condition.relabel f) (body.relabel f)
  | .function declaration => .function (declaration.relabel f)
  | .ret keyword value => .ret keyword (Expr.relabelOption f value)
  | .class_ name methods => .class_ name (FunctionDecl.relabelAll f methods)

def Stmt.relabelAll (f : α → β) : List (Stmt α) → List (Stmt β)
  | [] => []
  | s :: ss => s.relabel f :: Stmt.relabelAll f ss

def FunctionDecl.relabel (f : α → β) : FunctionDecl α → FunctionDecl β
  | ⟨name, params, body⟩ => ⟨name, params, Stmt.relabelAll f body⟩

def FunctionDecl.relabelAll (f : α → β) : List (FunctionDecl α) → List (FunctionDecl β)
  | [] => []
  | m :: ms => m.relabel f :: FunctionDecl.relabelAll f ms

end

@[simp] theorem FunctionDecl.name_relabel (f : α → β) (d : FunctionDecl α) :
    (d.relabel f).name = d.name := by
  cases d
  rfl

@[simp] theorem FunctionDecl.params_relabel (f : α → β) (d : FunctionDecl α) :
    (d.relabel f).params = d.params := by
  cases d
  rfl

@[simp] theorem FunctionDecl.body_relabel (f : α → β) (d : FunctionDecl α) :
    (d.relabel f).body = Stmt.relabelAll f d.body := by
  cases d
  rfl

/-! ### References -/

mutual

theorem Expr.references_relabel (f : α → β) :
    ∀ e : Expr α, (e.relabel f).references = e.references.map (Reference.relabel f)
  | .literal _ | .var _ _ | .this _ _ => rfl
  | .grouping inner | .unary _ inner | .get inner _ => inner.references_relabel f
  | .binary left _ right | .logical left _ right | .set left _ right => by
      simp only [Expr.relabel, Expr.references, List.map_append, left.references_relabel f,
        right.references_relabel f]
  | .assign _ _ value => by
      simp only [Expr.relabel, Expr.references, List.map_cons, value.references_relabel f,
        Reference.relabel]
  | .call callee _ arguments => by
      simp only [Expr.relabel, Expr.references, List.map_append, callee.references_relabel f,
        Expr.referencesAll_relabelAll f arguments]

theorem Expr.referencesAll_relabelAll (f : α → β) :
    ∀ es : List (Expr α),
      Expr.referencesAll (Expr.relabelAll f es) = (Expr.referencesAll es).map (Reference.relabel f)
  | [] => rfl
  | e :: es => by
      simp only [Expr.relabelAll, Expr.referencesAll, List.map_append, e.references_relabel f,
        Expr.referencesAll_relabelAll f es]

end

theorem Expr.referencesOption_relabelOption (f : α → β) (e : Option (Expr α)) :
    Expr.referencesOption (Expr.relabelOption f e) =
      (Expr.referencesOption e).map (Reference.relabel f) := by
  cases e with
  | none => rfl
  | some e => exact e.references_relabel f

mutual

theorem Stmt.references_relabel (f : α → β) :
    ∀ s : Stmt α, (s.relabel f).references = s.references.map (Reference.relabel f)
  | .expression e | .print e => e.references_relabel f
  | .var _ e | .ret _ e => Expr.referencesOption_relabelOption f e
  | .block body => Stmt.referencesAll_relabelAll f body
  | .branch condition consequent none => by
      simp only [Stmt.relabel, Stmt.references, List.map_append, condition.references_relabel f,
        consequent.references_relabel f]
  | .branch condition consequent (some alternative) => by
      simp only [Stmt.relabel, Stmt.references, List.map_append, condition.references_relabel f,
        consequent.references_relabel f, alternative.references_relabel f]
  | .loop condition body => by
      simp only [Stmt.relabel, Stmt.references, List.map_append, condition.references_relabel f,
        body.references_relabel f]
  | .function declaration => declaration.references_relabel f
  | .class_ _ methods => FunctionDecl.referencesAll_relabelAll f methods

theorem Stmt.referencesAll_relabelAll (f : α → β) :
    ∀ ss : List (Stmt α),
      Stmt.referencesAll (Stmt.relabelAll f ss) = (Stmt.referencesAll ss).map (Reference.relabel f)
  | [] => rfl
  | s :: ss => by
      simp only [Stmt.relabelAll, Stmt.referencesAll, List.map_append, s.references_relabel f,
        Stmt.referencesAll_relabelAll f ss]

theorem FunctionDecl.references_relabel (f : α → β) :
    ∀ d : FunctionDecl α, (d.relabel f).references = d.references.map (Reference.relabel f)
  | ⟨_, _, body⟩ => Stmt.referencesAll_relabelAll f body

theorem FunctionDecl.referencesAll_relabelAll (f : α → β) :
    ∀ ds : List (FunctionDecl α),
      FunctionDecl.referencesAll (FunctionDecl.relabelAll f ds) =
        (FunctionDecl.referencesAll ds).map (Reference.relabel f)
  | [] => rfl
  | d :: ds => by
      simp only [FunctionDecl.relabelAll, FunctionDecl.referencesAll, List.map_append,
        d.references_relabel f, FunctionDecl.referencesAll_relabelAll f ds]

end

/-! ### Numbers for labels -/

mutual

theorem Expr.numbered_relabel (f : α → β) :
    ∀ (next : NodeId) (e : Expr α), (e.relabel f).numbered next = e.numbered next
  | _, .literal _ | _, .var _ _ | _, .this _ _ => rfl
  | next, .grouping inner | next, .unary _ inner | next, .get inner _ => by
      simp only [Expr.relabel, Expr.numbered, inner.numbered_relabel f next]
  | next, .binary left _ right | next, .logical left _ right | next, .set left _ right => by
      simp only [Expr.relabel, Expr.numbered, left.numbered_relabel f next,
        right.numbered_relabel f]
  | next, .assign _ _ value => by
      simp only [Expr.relabel, Expr.numbered, value.numbered_relabel f]
  | next, .call callee _ arguments => by
      simp only [Expr.relabel, Expr.numbered, callee.numbered_relabel f next,
        Expr.numberedList_relabelAll f _ arguments]

theorem Expr.numberedList_relabelAll (f : α → β) :
    ∀ (next : NodeId) (es : List (Expr α)),
      Expr.numberedList next (Expr.relabelAll f es) = Expr.numberedList next es
  | _, [] => rfl
  | next, e :: es => by
      simp only [Expr.relabelAll, Expr.numberedList, e.numbered_relabel f next,
        Expr.numberedList_relabelAll f _ es]

end

theorem Expr.numberedOption_relabelOption (f : α → β) (next : NodeId) (e : Option (Expr α)) :
    Expr.numberedOption next (Expr.relabelOption f e) = Expr.numberedOption next e := by
  cases e with
  | none => rfl
  | some e => simp only [Expr.relabelOption, Expr.numberedOption, e.numbered_relabel f next]

mutual

theorem Stmt.numbered_relabel (f : α → β) :
    ∀ (next : NodeId) (s : Stmt α), (s.relabel f).numbered next = s.numbered next
  | next, .expression e | next, .print e => by
      simp only [Stmt.relabel, Stmt.numbered, e.numbered_relabel f next]
  | next, .var _ e | next, .ret _ e => by
      simp only [Stmt.relabel, Stmt.numbered, Expr.numberedOption_relabelOption f next e]
  | next, .block body => by
      simp only [Stmt.relabel, Stmt.numbered, Stmt.numberedList_relabelAll f next body]
  | next, .branch condition consequent none => by
      simp only [Stmt.relabel, Stmt.numbered, condition.numbered_relabel f next,
        consequent.numbered_relabel f]
  | next, .branch condition consequent (some alternative) => by
      simp only [Stmt.relabel, Stmt.numbered, condition.numbered_relabel f next,
        consequent.numbered_relabel f, alternative.numbered_relabel f]
  | next, .loop condition body => by
      simp only [Stmt.relabel, Stmt.numbered, condition.numbered_relabel f next,
        body.numbered_relabel f]
  | next, .function declaration => by
      simp only [Stmt.relabel, Stmt.numbered, declaration.numbered_relabel f next]
  | next, .class_ _ methods => by
      simp only [Stmt.relabel, Stmt.numbered, FunctionDecl.numberedList_relabelAll f next methods]

theorem Stmt.numberedList_relabelAll (f : α → β) :
    ∀ (next : NodeId) (ss : List (Stmt α)),
      Stmt.numberedList next (Stmt.relabelAll f ss) = Stmt.numberedList next ss
  | _, [] => rfl
  | next, s :: ss => by
      simp only [Stmt.relabelAll, Stmt.numberedList, s.numbered_relabel f next,
        Stmt.numberedList_relabelAll f _ ss]

theorem FunctionDecl.numbered_relabel (f : α → β) :
    ∀ (next : NodeId) (d : FunctionDecl α), (d.relabel f).numbered next = d.numbered next
  | next, ⟨_, _, body⟩ => by
      simp only [FunctionDecl.relabel, FunctionDecl.numbered,
        Stmt.numberedList_relabelAll f next body]

theorem FunctionDecl.numberedList_relabelAll (f : α → β) :
    ∀ (next : NodeId) (ds : List (FunctionDecl α)),
      FunctionDecl.numberedList next (FunctionDecl.relabelAll f ds) =
        FunctionDecl.numberedList next ds
  | _, [] => rfl
  | next, d :: ds => by
      simp only [FunctionDecl.relabelAll, FunctionDecl.numberedList, d.numbered_relabel f next,
        FunctionDecl.numberedList_relabelAll f _ ds]

end

/-- `f` takes the numbers from `next` on to the labels of these references. -/
def Restores (f : NodeId → α) (next : NodeId) (references : List (Reference α)) : Prop :=
  (List.range' next references.length).map f = references.map Reference.label

theorem Restores.append {f : NodeId → α} {next : NodeId} {before after : List (Reference α)}
    (h : Restores f next (before ++ after)) :
    Restores f next before ∧ Restores f (next + before.length) after := by
  unfold Restores at h
  rw [List.length_append, ← List.range'_append_1, List.map_append, List.map_append] at h
  exact List.append_inj h (by simp)

theorem Restores.cons {f : NodeId → α} {next : NodeId} {r : Reference α}
    {after : List (Reference α)} (h : Restores f next (r :: after)) :
    f next = r.label ∧ Restores f (next + 1) after := by
  unfold Restores at h
  rw [List.length_cons, List.range'_succ, List.map_cons, List.map_cons, List.cons.injEq] at h
  exact h

theorem labels_append {before after : List (Reference NodeId)} {next : NodeId} {n k : Nat}
    (hbefore : before.map Reference.label = List.range' next n)
    (hafter : after.map Reference.label = List.range' (next + n) k) :
    (before ++ after).map Reference.label = List.range' next (n + k) := by
  rw [List.map_append, hbefore, hafter, List.range'_append_1]

mutual

/-- A tree has its references numbered one after another, and putting its labels back in the places
of the numbers restores it. -/
theorem Expr.restored (f : NodeId → α) :
    ∀ (next : NodeId) (e : Expr α),
      (e.numbered next).2 = next + e.references.length ∧
        (e.numbered next).1.references.map Reference.label =
          List.range' next e.references.length ∧
        (Restores f next e.references → (e.numbered next).1.relabel f = e)
  | _, .literal _ => ⟨rfl, rfl, fun _ => rfl⟩
  | next, .grouping inner | next, .unary _ inner | next, .get inner _ => by
      obtain ⟨hnext, hlabels, hinner⟩ := inner.restored f next
      refine ⟨hnext, hlabels, fun h => ?_⟩
      simp only [Expr.numbered, Expr.relabel, hinner h]
  | next, .binary left _ right | next, .logical left _ right | next, .set left _ right => by
      obtain ⟨hnext, hlabels, hleft⟩ := left.restored f next
      obtain ⟨hnext', hlabels', hright⟩ := right.restored f (next + left.references.length)
      simp only [Expr.numbered, Expr.references, Expr.relabel, List.length_append, hnext, hnext']
      refine ⟨Nat.add_assoc _ _ _, labels_append hlabels hlabels', fun h => ?_⟩
      rw [hleft h.append.1, hright h.append.2]
  | next, .var label name | next, .this label name => by
      refine ⟨rfl, rfl, fun h => ?_⟩
      simp only [Expr.numbered, Expr.relabel, h.cons.1]
  | next, .assign label name value => by
      obtain ⟨hnext, hlabels, hvalue⟩ := value.restored f (next + 1)
      simp only [Expr.numbered, Expr.references, Expr.relabel, List.length_cons, hnext]
      refine ⟨Nat.succ_add_eq_add_succ _ _, ?_, fun h => ?_⟩
      · rw [List.map_cons, hlabels, List.range'_succ]
      · rw [h.cons.1, hvalue h.cons.2]
  | next, .call callee _ arguments => by
      obtain ⟨hnext, hlabels, hcallee⟩ := callee.restored f next
      obtain ⟨hnext', hlabels', harguments⟩ :=
        Expr.restoredAll f (next + callee.references.length) arguments
      simp only [Expr.numbered, Expr.references, Expr.relabel, List.length_append, hnext, hnext']
      refine ⟨Nat.add_assoc _ _ _, labels_append hlabels hlabels', fun h => ?_⟩
      rw [hcallee h.append.1, harguments h.append.2]

theorem Expr.restoredAll (f : NodeId → α) :
    ∀ (next : NodeId) (es : List (Expr α)),
      (Expr.numberedList next es).2 = next + (Expr.referencesAll es).length ∧
        (Expr.referencesAll (Expr.numberedList next es).1).map Reference.label =
          List.range' next (Expr.referencesAll es).length ∧
        (Restores f next (Expr.referencesAll es) →
          Expr.relabelAll f (Expr.numberedList next es).1 = es)
  | _, [] => ⟨rfl, rfl, fun _ => rfl⟩
  | next, e :: es => by
      obtain ⟨hnext, hlabels, he⟩ := e.restored f next
      obtain ⟨hnext', hlabels', hes⟩ := Expr.restoredAll f (next + e.references.length) es
      simp only [Expr.numberedList, Expr.referencesAll, Expr.relabelAll, List.length_append, hnext,
        hnext']
      refine ⟨Nat.add_assoc _ _ _, labels_append hlabels hlabels', fun h => ?_⟩
      rw [he h.append.1, hes h.append.2]

end

theorem Expr.restoredOption (f : NodeId → α) (next : NodeId) (e : Option (Expr α)) :
    (Expr.numberedOption next e).2 = next + (Expr.referencesOption e).length ∧
      (Expr.referencesOption (Expr.numberedOption next e).1).map Reference.label =
        List.range' next (Expr.referencesOption e).length ∧
      (Restores f next (Expr.referencesOption e) →
        Expr.relabelOption f (Expr.numberedOption next e).1 = e) := by
  cases e with
  | none => exact ⟨rfl, rfl, fun _ => rfl⟩
  | some e =>
      obtain ⟨hnext, hlabels, he⟩ := e.restored f next
      exact ⟨hnext, hlabels, fun h => congrArg some (he h)⟩

mutual

theorem Stmt.restored (f : NodeId → α) :
    ∀ (next : NodeId) (s : Stmt α),
      (s.numbered next).2 = next + s.references.length ∧
        (s.numbered next).1.references.map Reference.label =
          List.range' next s.references.length ∧
        (Restores f next s.references → (s.numbered next).1.relabel f = s)
  | next, .expression e | next, .print e => by
      obtain ⟨hnext, hlabels, he⟩ := e.restored f next
      refine ⟨hnext, hlabels, fun h => ?_⟩
      simp only [Stmt.numbered, Stmt.relabel, he h]
  | next, .var _ e | next, .ret _ e => by
      obtain ⟨hnext, hlabels, he⟩ := Expr.restoredOption f next e
      refine ⟨hnext, hlabels, fun h => ?_⟩
      simp only [Stmt.numbered, Stmt.relabel, he h]
  | next, .block body => by
      obtain ⟨hnext, hlabels, hbody⟩ := Stmt.restoredAll f next body
      refine ⟨hnext, hlabels, fun h => ?_⟩
      simp only [Stmt.numbered, Stmt.relabel, hbody h]
  | next, .branch condition consequent none => by
      obtain ⟨hnext, hlabels, hcondition⟩ := condition.restored f next
      obtain ⟨hnext', hlabels', hconsequent⟩ :=
        consequent.restored f (next + condition.references.length)
      simp only [Stmt.numbered, Stmt.references, Stmt.relabel, List.length_append, hnext, hnext']
      refine ⟨Nat.add_assoc _ _ _, labels_append hlabels hlabels', fun h => ?_⟩
      rw [hcondition h.append.1, hconsequent h.append.2]
  | next, .branch condition consequent (some alternative) => by
      obtain ⟨hnext, hlabels, hcondition⟩ := condition.restored f next
      obtain ⟨hnext', hlabels', hconsequent⟩ :=
        consequent.restored f (next + condition.references.length)
      obtain ⟨hnext'', hlabels'', halternative⟩ := alternative.restored f
        (next + condition.references.length + consequent.references.length)
      simp only [Stmt.numbered, Stmt.references, Stmt.relabel, hnext, hnext', hnext'']
      refine ⟨by simp only [List.length_append, Nat.add_assoc], ?_, fun h => ?_⟩
      · rw [List.length_append, List.length_append]
        exact labels_append (labels_append hlabels hlabels')
          (hlabels''.trans (by rw [Nat.add_assoc next]))
      · obtain ⟨hboth, hlast⟩ := h.append
        rw [List.length_append, ← Nat.add_assoc] at hlast
        rw [hcondition hboth.append.1, hconsequent hboth.append.2, halternative hlast]
  | next, .loop condition body => by
      obtain ⟨hnext, hlabels, hcondition⟩ := condition.restored f next
      obtain ⟨hnext', hlabels', hbody⟩ := body.restored f (next + condition.references.length)
      simp only [Stmt.numbered, Stmt.references, Stmt.relabel, List.length_append, hnext, hnext']
      refine ⟨Nat.add_assoc _ _ _, labels_append hlabels hlabels', fun h => ?_⟩
      rw [hcondition h.append.1, hbody h.append.2]
  | next, .function declaration => by
      obtain ⟨hnext, hlabels, hdeclaration⟩ := declaration.restored f next
      refine ⟨hnext, hlabels, fun h => ?_⟩
      simp only [Stmt.numbered, Stmt.relabel, hdeclaration h]
  | next, .class_ _ methods => by
      obtain ⟨hnext, hlabels, hmethods⟩ := FunctionDecl.restoredAll f next methods
      refine ⟨hnext, hlabels, fun h => ?_⟩
      simp only [Stmt.numbered, Stmt.relabel, hmethods h]

theorem Stmt.restoredAll (f : NodeId → α) :
    ∀ (next : NodeId) (ss : List (Stmt α)),
      (Stmt.numberedList next ss).2 = next + (Stmt.referencesAll ss).length ∧
        (Stmt.referencesAll (Stmt.numberedList next ss).1).map Reference.label =
          List.range' next (Stmt.referencesAll ss).length ∧
        (Restores f next (Stmt.referencesAll ss) →
          Stmt.relabelAll f (Stmt.numberedList next ss).1 = ss)
  | _, [] => ⟨rfl, rfl, fun _ => rfl⟩
  | next, s :: ss => by
      obtain ⟨hnext, hlabels, hs⟩ := s.restored f next
      obtain ⟨hnext', hlabels', hss⟩ := Stmt.restoredAll f (next + s.references.length) ss
      simp only [Stmt.numberedList, Stmt.referencesAll, Stmt.relabelAll, List.length_append, hnext,
        hnext']
      refine ⟨Nat.add_assoc _ _ _, labels_append hlabels hlabels', fun h => ?_⟩
      rw [hs h.append.1, hss h.append.2]

theorem FunctionDecl.restored (f : NodeId → α) :
    ∀ (next : NodeId) (d : FunctionDecl α),
      (d.numbered next).2 = next + d.references.length ∧
        (d.numbered next).1.references.map Reference.label =
          List.range' next d.references.length ∧
        (Restores f next d.references → (d.numbered next).1.relabel f = d)
  | next, ⟨_, _, body⟩ => by
      obtain ⟨hnext, hlabels, hbody⟩ := Stmt.restoredAll f next body
      refine ⟨hnext, hlabels, fun h => ?_⟩
      simp only [FunctionDecl.numbered, FunctionDecl.relabel, hbody h]

theorem FunctionDecl.restoredAll (f : NodeId → α) :
    ∀ (next : NodeId) (ds : List (FunctionDecl α)),
      (FunctionDecl.numberedList next ds).2 = next + (FunctionDecl.referencesAll ds).length ∧
        (FunctionDecl.referencesAll (FunctionDecl.numberedList next ds).1).map Reference.label =
          List.range' next (FunctionDecl.referencesAll ds).length ∧
        (Restores f next (FunctionDecl.referencesAll ds) →
          FunctionDecl.relabelAll f (FunctionDecl.numberedList next ds).1 = ds)
  | _, [] => ⟨rfl, rfl, fun _ => rfl⟩
  | next, d :: ds => by
      obtain ⟨hnext, hlabels, hd⟩ := d.restored f next
      obtain ⟨hnext', hlabels', hds⟩ :=
        FunctionDecl.restoredAll f (next + d.references.length) ds
      simp only [FunctionDecl.numberedList, FunctionDecl.referencesAll, FunctionDecl.relabelAll,
        List.length_append, hnext, hnext']
      refine ⟨Nat.add_assoc _ _ _, labels_append hlabels hlabels', fun h => ?_⟩
      rw [hd h.append.1, hds h.append.2]

end

theorem Expr.length_numberedOption (next : NodeId) (e : Option (Expr Unit)) :
    (Expr.referencesOption (Expr.numberedOption next e).1).length =
      (Expr.referencesOption e).length := by
  have hlabels := congrArg List.length (Expr.restoredOption (fun _ => ()) next e).2.1
  rwa [List.length_map, List.length_range'] at hlabels

theorem Stmt.length_numberedList (next : NodeId) (ss : List (Stmt Unit)) :
    (Stmt.referencesAll (Stmt.numberedList next ss).1).length =
      (Stmt.referencesAll ss).length := by
  have hlabels := congrArg List.length (Stmt.restoredAll (fun _ => ()) next ss).2.1
  rwa [List.length_map, List.length_range'] at hlabels

/-! ### Shapes -/

/-- The shape of a tree is the tree without its labels. -/
def Expr.shape (e : Expr α) : Expr Unit := e.relabel fun _ => ()

def Expr.shapeOption (e : Option (Expr α)) : Option (Expr Unit) :=
  Expr.relabelOption (fun _ => ()) e

def Stmt.shape (s : Stmt α) : Stmt Unit := s.relabel fun _ => ()

def Stmt.shapeAll (ss : List (Stmt α)) : List (Stmt Unit) := Stmt.relabelAll (fun _ => ()) ss

def FunctionDecl.shape (d : FunctionDecl α) : FunctionDecl Unit := d.relabel fun _ => ()

theorem restores_unit (f : NodeId → Unit) (next : NodeId) (references : List (Reference Unit)) :
    Restores f next references :=
  List.ext_getElem (by simp) fun _ _ _ => rfl

theorem Expr.shapeOption_numbered (next : NodeId) (e : Option (Expr Unit)) :
    Expr.shapeOption (Expr.numberedOption next e).1 = e :=
  (Expr.restoredOption _ next e).2.2 (restores_unit _ next _)

theorem Stmt.shapeAll_numbered (next : NodeId) (ss : List (Stmt Unit)) :
    Stmt.shapeAll (Stmt.numberedList next ss).1 = ss :=
  (Stmt.restoredAll _ next ss).2.2 (restores_unit _ next _)

/-! ### What a relabelling depends on -/

theorem exists_restores [Inhabited α] (next : NodeId) (references : List (Reference α)) :
    ∃ f : NodeId → α, Restores f next references := by
  refine ⟨fun n => (references.map Reference.label).getD (n - next) default, ?_⟩
  refine List.ext_getElem (by simp) fun i hi hi' => ?_
  have hlt : i < references.length := by simpa using hi
  simp [hlt]

theorem Restores.congr {f : NodeId → α} {next : NodeId}
    {references references' : List (Reference α)} (h : Restores f next references)
    (hlabels : references.map Reference.label = references'.map Reference.label) :
    Restores f next references' := by
  have hlength := congrArg List.length hlabels
  rw [List.length_map, List.length_map] at hlength
  rw [Restores, ← hlabels, ← hlength]
  exact h

theorem map_label_relabel (f : α → β) (references : List (Reference α)) :
    (references.map (Reference.relabel f)).map Reference.label =
      references.map fun r => f r.label := by
  rw [List.map_map]
  rfl

theorem label_of_map_relabel {f : α → α} {references : List (Reference α)}
    (h : references = references.map (Reference.relabel f)) :
    ∀ r ∈ references, f r.label = r.label := by
  intro r hr
  have hsame := List.map_inj_left.mp ((List.map_id references).trans h) r hr
  exact (congrArg Reference.label hsame).symm

section

variable [Inhabited β] {f g : α → β}

/-- A tree is known by its shape, which is what its numbers show, and its labels. -/
theorem Expr.eq_of_labels {e e' : Expr β} (hnumbered : e.numbered 0 = e'.numbered 0)
    (hlabels : e.references.map Reference.label = e'.references.map Reference.label) : e = e' := by
  obtain ⟨f, hf⟩ := exists_restores 0 e.references
  rw [← (e.restored f 0).2.2 hf, ← (e'.restored f 0).2.2 (hf.congr hlabels), hnumbered]

theorem Stmt.eq_of_labels {ss ss' : List (Stmt β)}
    (hnumbered : Stmt.numberedList 0 ss = Stmt.numberedList 0 ss')
    (hlabels : (Stmt.referencesAll ss).map Reference.label =
      (Stmt.referencesAll ss').map Reference.label) : ss = ss' := by
  obtain ⟨f, hf⟩ := exists_restores 0 (Stmt.referencesAll ss)
  rw [← (Stmt.restoredAll f 0 ss).2.2 hf, ← (Stmt.restoredAll f 0 ss').2.2 (hf.congr hlabels),
    hnumbered]

theorem FunctionDecl.eq_of_labels {d d' : FunctionDecl β}
    (hnumbered : d.numbered 0 = d'.numbered 0)
    (hlabels : d.references.map Reference.label = d'.references.map Reference.label) : d = d' := by
  obtain ⟨f, hf⟩ := exists_restores 0 d.references
  rw [← (d.restored f 0).2.2 hf, ← (d'.restored f 0).2.2 (hf.congr hlabels), hnumbered]

theorem Expr.relabel_congr {e : Expr α} (h : ∀ r ∈ e.references, f r.label = g r.label) :
    e.relabel f = e.relabel g := by
  refine Expr.eq_of_labels (by rw [Expr.numbered_relabel, Expr.numbered_relabel]) ?_
  rw [Expr.references_relabel, Expr.references_relabel, map_label_relabel, map_label_relabel]
  exact List.map_congr_left h

theorem Stmt.relabelAll_congr {ss : List (Stmt α)}
    (h : ∀ r ∈ Stmt.referencesAll ss, f r.label = g r.label) :
    Stmt.relabelAll f ss = Stmt.relabelAll g ss := by
  refine Stmt.eq_of_labels
    (by rw [Stmt.numberedList_relabelAll, Stmt.numberedList_relabelAll]) ?_
  rw [Stmt.referencesAll_relabelAll, Stmt.referencesAll_relabelAll, map_label_relabel,
    map_label_relabel]
  exact List.map_congr_left h

theorem FunctionDecl.relabel_congr {d : FunctionDecl α}
    (h : ∀ r ∈ d.references, f r.label = g r.label) : d.relabel f = d.relabel g := by
  refine FunctionDecl.eq_of_labels
    (by rw [FunctionDecl.numbered_relabel, FunctionDecl.numbered_relabel]) ?_
  rw [FunctionDecl.references_relabel, FunctionDecl.references_relabel, map_label_relabel,
    map_label_relabel]
  exact List.map_congr_left h

theorem FunctionDecl.relabel_relabel (f : α → γ) (g : γ → β) (d : FunctionDecl α) :
    (d.relabel f).relabel g = d.relabel (g ∘ f) := by
  refine FunctionDecl.eq_of_labels (by simp only [FunctionDecl.numbered_relabel]) ?_
  simp only [FunctionDecl.references_relabel, List.map_map]
  rfl

end

section

variable [Inhabited α] {f : α → α}

theorem Expr.relabel_id (e : Expr α) : e.relabel id = e := by
  refine Expr.eq_of_labels (by rw [Expr.numbered_relabel]) ?_
  rw [Expr.references_relabel, map_label_relabel]
  rfl

theorem Stmt.relabelAll_id (ss : List (Stmt α)) : Stmt.relabelAll id ss = ss := by
  refine Stmt.eq_of_labels (by rw [Stmt.numberedList_relabelAll]) ?_
  rw [Stmt.referencesAll_relabelAll, map_label_relabel]
  rfl

theorem FunctionDecl.relabel_id (d : FunctionDecl α) : d.relabel id = d := by
  refine FunctionDecl.eq_of_labels (by rw [FunctionDecl.numbered_relabel]) ?_
  rw [FunctionDecl.references_relabel, map_label_relabel]
  rfl

theorem Expr.relabel_eq_self_iff {e : Expr α} :
    e.relabel f = e ↔ ∀ r ∈ e.references, f r.label = r.label := by
  constructor
  · intro h
    exact label_of_map_relabel (by rw [← Expr.references_relabel, h])
  · intro h
    exact (Expr.relabel_congr h).trans e.relabel_id

theorem Stmt.relabelAll_eq_self_iff {ss : List (Stmt α)} :
    Stmt.relabelAll f ss = ss ↔ ∀ r ∈ Stmt.referencesAll ss, f r.label = r.label := by
  constructor
  · intro h
    exact label_of_map_relabel (by rw [← Stmt.referencesAll_relabelAll, h])
  · intro h
    exact (Stmt.relabelAll_congr h).trans (Stmt.relabelAll_id ss)

theorem FunctionDecl.relabel_eq_self_iff {d : FunctionDecl α} :
    d.relabel f = d ↔ ∀ r ∈ d.references, f r.label = r.label := by
  constructor
  · intro h
    exact label_of_map_relabel (by rw [← FunctionDecl.references_relabel, h])
  · intro h
    exact (FunctionDecl.relabel_congr h).trans d.relabel_id

end

/-! ### Trees of one shape -/

theorem exists_map_eq [Inhabited β] [DecidableEq α] {l : List α} {l' : List β} (hnodup : l.Nodup)
    (hlength : l.length = l'.length) : ∃ f : α → β, l.map f = l' := by
  refine ⟨fun a => l'.getD (l.idxOf a) default, ?_⟩
  refine List.ext_getElem (by simpa using hlength) fun i hi hi' => ?_
  simp [hnodup.idxOf_getElem, hi']

/-- Trees of one shape differ in their labels only. -/
theorem Expr.exists_relabel_eq {e e' : Expr NodeId} (hshape : e.shape = e'.shape)
    (hnodup : (e.references.map Reference.label).Nodup) :
    ∃ f, e.relabel f = e' ∧
      e'.references.map Reference.label = (e.references.map Reference.label).map f := by
  have hlength : (e.references.map Reference.label).length =
      (e'.references.map Reference.label).length := by
    have hreferences := congrArg (fun e : Expr Unit => e.references.length) hshape
    simpa only [Expr.shape, Expr.references_relabel, List.length_map] using hreferences
  obtain ⟨f, hf⟩ := exists_map_eq hnodup hlength
  refine ⟨f, Expr.eq_of_labels ?_ ?_, hf.symm⟩
  · have hnumbered := congrArg (Expr.numbered 0) hshape
    simpa only [Expr.shape, Expr.numbered_relabel] using hnumbered
  · rw [Expr.references_relabel, map_label_relabel, ← hf, List.map_map]
    rfl

theorem Stmt.exists_relabelAll_eq {ss ss' : List (Stmt NodeId)}
    (hshape : Stmt.shapeAll ss = Stmt.shapeAll ss')
    (hnodup : ((Stmt.referencesAll ss).map Reference.label).Nodup) :
    ∃ f, Stmt.relabelAll f ss = ss' ∧
      (Stmt.referencesAll ss').map Reference.label =
        ((Stmt.referencesAll ss).map Reference.label).map f := by
  have hlength : ((Stmt.referencesAll ss).map Reference.label).length =
      ((Stmt.referencesAll ss').map Reference.label).length := by
    have hreferences := congrArg (fun ss => (Stmt.referencesAll ss).length) hshape
    simpa only [Stmt.shapeAll, Stmt.referencesAll_relabelAll, List.length_map] using hreferences
  obtain ⟨f, hf⟩ := exists_map_eq hnodup hlength
  refine ⟨f, Stmt.eq_of_labels ?_ ?_, hf.symm⟩
  · have hnumbered := congrArg (Stmt.numberedList 0) hshape
    simpa only [Stmt.shapeAll, Stmt.numberedList_relabelAll] using hnumbered
  · rw [Stmt.referencesAll_relabelAll, map_label_relabel, ← hf, List.map_map]
    rfl

end Lox
