import Lox.Parsing.Program
import Lox.Proofs.Marks.Trees

namespace Lox.Parsing

variable {α β : Type} {takes takes' : Bool} {all tokens : List Token} {P : α → Prop} {Q : β → Prop}

/-- The tokens that are left. -/
def Outcome.rest : Outcome α → List Token
  | accepted _ rest _ => rest
  | refused _ rest _ => rest

def Outcome.value? : Outcome α → Option α
  | accepted value _ _ => some value
  | refused _ _ _ => none

/-- What is left of the text is of the text, and what is accepted has the property. -/
structure Reply.Yields (all : List Token) (P : α → Prop) (r : Reply takes tokens α) : Prop where
  rest : r.val.rest ⊆ all
  value : ∀ v ∈ r.val.value?, P v

@[simp] theorem Outcome.rest_reporting (o : Outcome α) (earlier : List Diagnostic) :
    (o.reporting earlier).rest = o.rest := by
  cases o <;> rfl

@[simp] theorem Outcome.value?_reporting (o : Outcome α) (earlier : List Diagnostic) :
    (o.reporting earlier).value? = o.value? := by
  cases o <;> rfl

namespace Reply.Yields

variable {r : Reply takes tokens α}

theorem pure {value : α} (htokens : tokens ⊆ all) (h : P value) :
    (Reply.pure value : Reply false tokens α).Yields all P where
  rest := htokens
  value v hv := by
    cases hv
    exact h

theorem refuse {fault : Diagnostic} (htokens : tokens ⊆ all) :
    (Reply.refuse fault : Reply takes tokens α).Yields all P where
  rest := htokens
  value _ hv := by cases hv

theorem mono {P' : α → Prop} (h : r.Yields all P) (hP : ∀ v, P v → P' v) : r.Yields all P' :=
  ⟨h.rest, fun v hv => hP v (h.value v hv)⟩

theorem andThen {next : α → (rest : List Token) → rest.length + takes.toNat ≤ tokens.length →
      Reply takes' rest β} (h : r.Yields all P)
    (hnext : ∀ v rest hrest, rest ⊆ all → P v → (next v rest hrest).Yields all Q) :
    (r.andThen next).Yields all Q := by
  obtain ⟨outcome, hfits⟩ := r
  cases outcome with
  | refused fault rest reports => exact ⟨h.rest, fun _ hv => by cases hv⟩
  | accepted v rest reports =>
      have hsecond := hnext v rest hfits h.rest (h.value v rfl)
      refine ⟨?_, fun w hw => hsecond.value w ?_⟩
      · rw [Reply.andThen, Outcome.rest_reporting]
        exact hsecond.rest
      · rwa [Reply.andThen, Outcome.value?_reporting] at hw

theorem map {f : α → β} (h : r.Yields all P) (hf : ∀ v, P v → Q (f v)) :
    (r.map f).Yields all Q := by
  obtain ⟨outcome, hfits⟩ := r
  cases outcome with
  | refused fault rest reports => exact ⟨h.rest, fun _ hv => by cases hv⟩
  | accepted v rest reports =>
      refine ⟨h.rest, fun w hw => ?_⟩
      cases hw
      exact hf v (h.value v rfl)

theorem afterToken (t : Token) (h : r.Yields all P) :
    (r.afterToken t : Reply takes' (t :: tokens) α).Yields all P :=
  ⟨h.rest, h.value⟩

theorem relax (h : r.Yields all P) : r.relax.Yields all P := ⟨h.rest, h.value⟩

theorem within {more : List Token} (h : r.Yields all P) (hlength : tokens.length ≤ more.length) :
    (r.within hlength).Yields all P :=
  ⟨h.rest, h.value⟩

theorem reporting (earlier : List Diagnostic) (h : r.Yields all P) :
    (r.reporting earlier).Yields all P := by
  refine ⟨?_, fun v hv => h.value v ?_⟩
  · rw [Reply.reporting, Outcome.rest_reporting]
    exact h.rest
  · rwa [Reply.reporting, Outcome.value?_reporting] at hv

end Reply.Yields

theorem take_yields {stop : Token} {kind : Kind} {fault : SyntaxFault} (h : tokens ⊆ all) :
    (take Reply stop kind fault tokens).Yields all fun t => t.kind = kind ∧ t ∈ all := by
  unfold take
  cases tokens with
  | nil => exact .refuse h
  | cons t rest =>
      obtain ⟨ht, hrest⟩ := List.cons_subset.mp h
      dsimp only
      split
      · rename_i hkind
        exact .afterToken t (.pure hrest ⟨hkind, ht⟩)
      · exact .refuse h

theorem takeSymbol_yields (stop : Token) (s : Symbol) (place : Place) (h : tokens ⊆ all) :
    (takeSymbol Reply stop s place tokens).Yields all fun _ => True :=
  (take_yields h).mono fun _ _ => trivial

theorem takeName_yields (stop : Token) (named : Named) (h : tokens ⊆ all) :
    (takeName Reply stop named tokens).Yields all fun t => t.kind = .identifier ∧ t ∈ all :=
  take_yields h

/-- The marks are proper, and their tokens are of the text. -/
def StandIn (all : List Token) (marks : List Mark) : Prop := ∀ k ∈ marks, k.Proper ∧ k.token ∈ all

@[simp] theorem standIn_nil : StandIn all [] := fun _ hk => by cases hk

@[simp] theorem standIn_cons {k : Mark} {marks : List Mark} :
    StandIn all (k :: marks) ↔ (k.Proper ∧ k.token ∈ all) ∧ StandIn all marks :=
  List.forall_mem_cons

@[simp] theorem standIn_append {marks more : List Mark} :
    StandIn all (marks ++ more) ↔ StandIn all marks ∧ StandIn all more :=
  List.forall_mem_append

end Lox.Parsing
