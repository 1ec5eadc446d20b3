import Lox.Proofs.Marks.Trees
import Lox.Proofs.Renaming.Texts
import Lox.Proofs.Scoping.Sites

namespace Lox

open Resolution Scoping

/-- A token that binds or assigns is not spelled like the receiver, and one that speaks of the
receiver is. -/
def Mark.SparesReceiver : Mark → Prop
  | .target name | .binder name => name.lexeme ≠ thisName
  | .receiver keyword => keyword.lexeme = thisName
  | _ => True

theorem Mark.Proper.sparesReceiver {k : Mark} (h : k.Proper) {source : String}
    (hk : k.token ∈ Scan.tokens source) : k.SparesReceiver := by
  have hname : ∀ t : Token, t ∈ Scan.tokens source → t.kind = .identifier →
      t.lexeme ≠ thisName := by
    intro t ht hkind hthis
    have hword := ((Scan.kind_eq_identifier_iff ht).mp hkind).2
    rw [hthis] at hword
    exact absurd hword (by decide)
  have hkeyword : ∀ t : Token, t ∈ Scan.tokens source → t.kind = .keyword .this_ →
      t.lexeme = thisName := by
    intro t ht hkind
    rcases Scan.isToken_of_mem_tokens ht with hend | ⟨rest, htoken⟩
    · rw [hend] at hkind
      cases hkind
    · rw [hkind] at htoken
      generalize htext : t.lexeme.toList = text at htoken
      cases htoken
      exact String.toList_inj.mp htext
  cases k with
  | target t | binder t => exact hname t hk h
  | receiver t => exact hkeyword t hk h
  | _ => trivial

/-- All marks spare the receiver. -/
def SpareReceiver (marks : List Mark) : Prop := ∀ k ∈ marks, k.SparesReceiver

@[simp] theorem spareReceiver_cons {k : Mark} {marks : List Mark} :
    SpareReceiver (k :: marks) ↔ k.SparesReceiver ∧ SpareReceiver marks :=
  List.forall_mem_cons

@[simp] theorem spareReceiver_append {marks more : List Mark} :
    SpareReceiver (marks ++ more) ↔ SpareReceiver marks ∧ SpareReceiver more :=
  List.forall_mem_append

/-- Frames in which class bodies bind the receiver, and nothing else does. -/
def BindReceiver (Γ : List OpenFrame) : Prop :=
  ∀ F ∈ Γ, F.names.find? thisName = if F.kind = .receiver then some true else none

namespace BindReceiver

variable {Γ : List OpenFrame} {name : Token}

theorem nil : BindReceiver [] := fun _ hF => nomatch hF

theorem bind (h : BindReceiver Γ) (hname : name.lexeme ≠ thisName) (ready : Bool) :
    BindReceiver (bind name ready Γ) := by
  cases Γ with
  | nil => exact h
  | cons F Γ =>
      obtain ⟨hF, hΓ⟩ := List.forall_mem_cons.mp h
      refine List.forall_mem_cons.mpr ⟨?_, hΓ⟩
      rw [Bindings.find?_insert_of_ne _ _ hname]
      exact hF

theorem introduce (h : BindReceiver Γ) (hname : name.lexeme ≠ thisName) :
    BindReceiver (introduce name Γ) :=
  (h.bind hname false).bind hname true

theorem openBlock (h : BindReceiver Γ) : BindReceiver (openBlock Γ) :=
  List.forall_mem_cons.mpr ⟨rfl, h⟩

theorem openReceiver (h : BindReceiver Γ) : BindReceiver (openReceiver Γ) :=
  List.forall_mem_cons.mpr ⟨Bindings.find?_insert_self _ _ _, h⟩

theorem openCall (h : BindReceiver Γ) {params : List Token}
    (hparams : SpareReceiver (params.map .binder)) : BindReceiver (openCall params Γ) := by
  have hstart : BindReceiver (⟨.call, .empty⟩ :: Γ) := List.forall_mem_cons.mpr ⟨rfl, h⟩
  unfold Scoping.openCall
  generalize (⟨.call, .empty⟩ :: Γ : List OpenFrame) = frames at hstart
  induction params generalizing frames with
  | nil => exact hstart
  | cons param params ih =>
      obtain ⟨hparam, hparams⟩ := spareReceiver_cons.mp hparams
      exact ih hparams _ (hstart.introduce hparam)

theorem after (h : BindReceiver Γ) {s : Stmt NodeId} (hs : SpareReceiver s.marks) :
    BindReceiver (s.after Γ) := by
  cases s with
  | var name _ | class_ name _ => exact h.introduce (hs _ List.mem_cons_self)
  | function d =>
      have hname : Mark.SparesReceiver (.binder d.name) := by
        refine hs _ ?_
        rw [Stmt.marks, FunctionDecl.marks_eq]
        exact List.mem_cons_self
      exact h.introduce hname
  | _ => exact h

end BindReceiver

theorem Expr.bindReceiver {Γ : List OpenFrame} (h : BindReceiver Γ) {e : Expr NodeId} :
    ∀ site ∈ e.sites Γ, BindReceiver site.frames := by
  intro site hsite
  rw [e.frames_of_mem_sites site hsite]
  exact h

theorem Expr.bindReceiver_option {Γ : List OpenFrame} (h : BindReceiver Γ)
    {e : Option (Expr NodeId)} : ∀ site ∈ Expr.sitesOption Γ e, BindReceiver site.frames := by
  cases e with
  | none => exact fun _ hsite => nomatch hsite
  | some e => exact Expr.bindReceiver h

mutual

theorem Stmt.bindReceiver {Γ : List OpenFrame} (h : BindReceiver Γ) :
    ∀ s : Stmt NodeId, SpareReceiver s.marks → ∀ site ∈ s.sites Γ, BindReceiver site.frames
  | .expression _, _ | .print _, _ => Expr.bindReceiver h
  | .var _ _, hs => Expr.bindReceiver_option (h.bind (hs _ List.mem_cons_self) false)
  | .block body, hs => Stmt.bindReceiver_all h.openBlock body hs
  | .branch _ consequent none, hs =>
      have hconsequent := (spareReceiver_append.mp hs).2
      List.forall_mem_append.mpr ⟨Expr.bindReceiver h, Stmt.bindReceiver h consequent hconsequent⟩
  | .branch _ consequent (some alternative), hs => by
      have hbranches := (spareReceiver_append.mp hs).2
      obtain ⟨hconsequent, halternative⟩ := spareReceiver_append.mp hbranches
      rw [Stmt.sites, List.forall_mem_append, List.forall_mem_append]
      exact ⟨⟨Expr.bindReceiver h, Stmt.bindReceiver h consequent hconsequent⟩,
        Stmt.bindReceiver h alternative halternative⟩
  | .loop _ body, hs =>
      have hbody := (spareReceiver_append.mp hs).2
      List.forall_mem_append.mpr ⟨Expr.bindReceiver h, Stmt.bindReceiver h body hbody⟩
  | .function declaration, hs =>
      FunctionDecl.bindReceiver (BindReceiver.after h hs) declaration hs
  | .ret _ _, _ => Expr.bindReceiver_option h
  | .class_ _ methods, hs =>
      have hmethods := (spareReceiver_cons.mp hs).2
      FunctionDecl.bindReceiver_all (h.introduce (hs _ List.mem_cons_self)).openReceiver methods
        hmethods

theorem Stmt.bindReceiver_all {Γ : List OpenFrame} (h : BindReceiver Γ) :
    ∀ ss : List (Stmt NodeId), SpareReceiver (Stmt.marksAll ss) →
      ∀ site ∈ Stmt.sitesAll Γ ss, BindReceiver site.frames
  | [], _ => fun _ hsite => nomatch hsite
  | s :: ss, hss =>
      have hs := (spareReceiver_append.mp hss).1
      have hrest := (spareReceiver_append.mp hss).2
      List.forall_mem_append.mpr
        ⟨Stmt.bindReceiver h s hs, Stmt.bindReceiver_all (h.after hs) ss hrest⟩

theorem FunctionDecl.bindReceiver {Γ : List OpenFrame} (h : BindReceiver Γ) :
    ∀ d : FunctionDecl NodeId, SpareReceiver d.marks →
      ∀ site ∈ d.sites Γ, BindReceiver site.frames
  | ⟨_, _, body⟩, hd =>
      have hparts := spareReceiver_append.mp (spareReceiver_cons.mp hd).2
      Stmt.bindReceiver_all (h.openCall hparts.1) body hparts.2

theorem FunctionDecl.bindReceiver_all {Γ : List OpenFrame} (h : BindReceiver Γ) :
    ∀ ds : List (FunctionDecl NodeId), SpareReceiver (FunctionDecl.marksAll ds) →
      ∀ site ∈ FunctionDecl.sitesAll Γ ds, BindReceiver site.frames
  | [], _ => fun _ hsite => nomatch hsite
  | d :: ds, hds =>
      have hparts := spareReceiver_append.mp hds
      List.forall_mem_append.mpr
        ⟨FunctionDecl.bindReceiver h d hparts.1, FunctionDecl.bindReceiver_all h ds hparts.2⟩

end

end Lox
