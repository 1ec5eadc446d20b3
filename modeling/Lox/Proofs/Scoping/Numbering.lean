import Lox.Proofs.Scoping.Sites
import Lox.Tree.Numbering

namespace Lox

open Scoping

/-- Different sites have different nodes, which lie between two numbers. -/
structure NumberedSites (sites : List Site) (first last : NodeId) : Prop where
  le : first ≤ last
  bounds : ∀ site ∈ sites, first ≤ site.node ∧ site.node < last
  nodup : (sites.map Site.node).Nodup

namespace NumberedSites

variable {left right : List Site} {a b c : NodeId}

theorem nil (a : NodeId) : NumberedSites [] a a :=
  ⟨Nat.le_refl a, by simp, by simp⟩

theorem single (site : Site) : NumberedSites [site] site.node (site.node + 1) :=
  ⟨Nat.le_succ _, by simp, by simp⟩

theorem separate (hleft : NumberedSites left a b) (hright : NumberedSites right b c) :
    ∀ n ∈ left.map Site.node, ∀ k ∈ right.map Site.node, n ≠ k := by
  intro n hn k hk
  obtain ⟨site, hsite, rfl⟩ := List.mem_map.mp hn
  obtain ⟨site', hsite', rfl⟩ := List.mem_map.mp hk
  exact Nat.ne_of_lt
    (Nat.lt_of_lt_of_le (hleft.bounds site hsite).2 (hright.bounds site' hsite').1)

theorem bounds_append (hleft : NumberedSites left a b) (hright : NumberedSites right b c) :
    ∀ site, site ∈ left ∨ site ∈ right → a ≤ site.node ∧ site.node < c := by
  rintro site (hsite | hsite)
  · obtain ⟨hfirst, hlast⟩ := hleft.bounds site hsite
    exact ⟨hfirst, Nat.lt_of_lt_of_le hlast hright.le⟩
  · obtain ⟨hfirst, hlast⟩ := hright.bounds site hsite
    exact ⟨Nat.le_trans hleft.le hfirst, hlast⟩

theorem append (hleft : NumberedSites left a b) (hright : NumberedSites right b c) :
    NumberedSites (left ++ right) a c := by
  refine ⟨Nat.le_trans hleft.le hright.le, ?_, ?_⟩
  · intro site hsite
    exact hleft.bounds_append hright site (List.mem_append.mp hsite)
  · rw [List.map_append, List.nodup_append]
    exact ⟨hleft.nodup, hright.nodup, hleft.separate hright⟩

theorem append_swap (hleft : NumberedSites left a b) (hright : NumberedSites right b c) :
    NumberedSites (right ++ left) a c := by
  refine ⟨Nat.le_trans hleft.le hright.le, ?_, ?_⟩
  · intro site hsite
    exact hleft.bounds_append hright site (List.mem_append.mp hsite).symm
  · rw [List.map_append, List.nodup_append]
    refine ⟨hright.nodup, hleft.nodup, ?_⟩
    intro n hn k hk
    exact (hleft.separate hright k hk n hn).symm

end NumberedSites

variable {Label : Type}

mutual

theorem Expr.numberedSites (Γ : List OpenFrame) :
    ∀ (next : NodeId) (e : Expr Label),
      NumberedSites ((e.numbered next).1.sites Γ) next (e.numbered next).2
  | next, .literal _ => .nil next
  | next, .grouping inner => Expr.numberedSites Γ next inner
  | next, .unary _ operand => Expr.numberedSites Γ next operand
  | next, .binary left _ right | next, .logical left _ right =>
      (Expr.numberedSites Γ next left).append (Expr.numberedSites Γ _ right)
  | _, .var _ _ => .single _
  | next, .assign _ name value =>
      (NumberedSites.single ⟨next, name, .write, Γ⟩).append_swap
        (Expr.numberedSites Γ (next + 1) value)
  | next, .call callee _ arguments =>
      (Expr.numberedSites Γ next callee).append (Expr.numberedSitesAll Γ _ arguments)
  | next, .get object _ => Expr.numberedSites Γ next object
  | next, .set object _ value =>
      (Expr.numberedSites Γ next object).append_swap (Expr.numberedSites Γ _ value)
  | _, .this _ _ => .single _

theorem Expr.numberedSitesAll (Γ : List OpenFrame) :
    ∀ (next : NodeId) (es : List (Expr Label)),
      NumberedSites (Expr.sitesAll Γ (Expr.numberedList next es).1) next
        (Expr.numberedList next es).2
  | next, [] => .nil next
  | next, e :: es => (Expr.numberedSites Γ next e).append (Expr.numberedSitesAll Γ _ es)

end

theorem Expr.numberedSitesOption (Γ : List OpenFrame) (next : NodeId) (e : Option (Expr Label)) :
    NumberedSites (Expr.sitesOption Γ (Expr.numberedOption next e).1) next
      (Expr.numberedOption next e).2 := by
  cases e with
  | none => exact .nil next
  | some e => exact Expr.numberedSites Γ next e

theorem Stmt.after_numbered (Γ : List OpenFrame) (next : NodeId) (s : Stmt Label) :
    (s.numbered next).1.after Γ = s.after Γ := by
  cases s with
  | branch condition consequent alternative => cases alternative <;> rfl
  | function declaration => cases declaration; rfl
  | _ => rfl

mutual

theorem Stmt.numberedSites (Γ : List OpenFrame) :
    ∀ (next : NodeId) (s : Stmt Label),
      NumberedSites ((s.numbered next).1.sites Γ) next (s.numbered next).2
  | next, .expression e | next, .print e => Expr.numberedSites Γ next e
  | next, .var name initial => Expr.numberedSitesOption (bind name false Γ) next initial
  | next, .block body => Stmt.numberedSitesAll (openBlock Γ) next body
  | next, .branch condition consequent none =>
      (Expr.numberedSites Γ next condition).append (Stmt.numberedSites Γ _ consequent)
  | next, .branch condition consequent (some alternative) =>
      ((Expr.numberedSites Γ next condition).append (Stmt.numberedSites Γ _ consequent)).append
        (Stmt.numberedSites Γ _ alternative)
  | next, .loop condition body =>
      (Expr.numberedSites Γ next condition).append (Stmt.numberedSites Γ _ body)
  | next, .function ⟨name, params, body⟩ =>
      FunctionDecl.numberedSites (introduce name Γ) next ⟨name, params, body⟩
  | next, .ret _ value => Expr.numberedSitesOption Γ next value
  | next, .class_ name methods =>
      FunctionDecl.numberedSitesAll (openReceiver (introduce name Γ)) next methods

theorem Stmt.numberedSitesAll (Γ : List OpenFrame) :
    ∀ (next : NodeId) (ss : List (Stmt Label)),
      NumberedSites (Stmt.sitesAll Γ (Stmt.numberedList next ss).1) next
        (Stmt.numberedList next ss).2
  | next, [] => .nil next
  | next, s :: ss => by
      have hs := Stmt.numberedSites Γ next s
      have hss := Stmt.numberedSitesAll (s.after Γ) (s.numbered next).2 ss
      rw [← Stmt.after_numbered Γ next s] at hss
      exact hs.append hss

theorem FunctionDecl.numberedSites (Γ : List OpenFrame) :
    ∀ (next : NodeId) (d : FunctionDecl Label),
      NumberedSites ((d.numbered next).1.sites Γ) next (d.numbered next).2
  | next, ⟨_, params, body⟩ => Stmt.numberedSitesAll (openCall params Γ) next body

theorem FunctionDecl.numberedSitesAll (Γ : List OpenFrame) :
    ∀ (next : NodeId) (ds : List (FunctionDecl Label)),
      NumberedSites (FunctionDecl.sitesAll Γ (FunctionDecl.numberedList next ds).1) next
        (FunctionDecl.numberedList next ds).2
  | next, [] => .nil next
  | next, d :: ds =>
      (FunctionDecl.numberedSites Γ next d).append (FunctionDecl.numberedSitesAll Γ _ ds)

end

end Lox
