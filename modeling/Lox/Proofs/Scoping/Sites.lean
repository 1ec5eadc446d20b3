import Lox.Resolution

/-!
The frames around each reference of a program.

`Stmt.sites` lists the references in the order in which they are resolved, each with the frames
that are open there. The frames are those of the text alone: a block, the parameters and the body of
a function, and the body of a class each add one, and a declaration adds a name to the innermost.
-/

namespace Lox

open Resolution

/-- What opens a frame. -/
inductive FrameKind
  | block
  | call
  | receiver
  deriving DecidableEq

/-- A frame that is open, with the names declared in it so far. -/
structure OpenFrame where
  kind : FrameKind
  names : Frame

inductive Use
  | read
  | write
  | receiver
  deriving DecidableEq

/-- A reference in its place. -/
structure Site where
  node : NodeId
  name : Token
  use : Use
  frames : List OpenFrame

namespace Scoping

/-- Binds a name in the innermost frame. Outside all frames nothing is kept. -/
def bind (name : Token) (ready : Bool) : List OpenFrame → List OpenFrame
  | [] => []
  | F :: Γ => ⟨F.kind, F.names.insert name.lexeme ready⟩ :: Γ

def introduce (name : Token) (Γ : List OpenFrame) : List OpenFrame :=
  bind name true (bind name false Γ)

def openBlock (Γ : List OpenFrame) : List OpenFrame := ⟨.block, .empty⟩ :: Γ

def openCall (params : List Token) (Γ : List OpenFrame) : List OpenFrame :=
  params.foldl (fun Γ param => introduce param Γ) (⟨.call, .empty⟩ :: Γ)

def openReceiver (Γ : List OpenFrame) : List OpenFrame :=
  ⟨.receiver, Bindings.empty.insert thisName true⟩ :: Γ

/-- Some class body is open. -/
def hasReceiver (Γ : List OpenFrame) : Bool := Γ.any fun F => F.kind = .receiver

end Scoping

open Scoping

/-- The distance of a reference, if a frame binds its name. Outside all classes there is no
receiver. -/
def Site.distance? (site : Site) : Option Nat :=
  if site.use = .receiver ∧ !hasReceiver site.frames then none
  else
    match find site.name.lexeme (site.use ≠ .write) 0 false (site.frames.map OpenFrame.names) with
    | .bound distance => some distance
    | .nowhere _ => none

mutual

def Expr.sites (Γ : List OpenFrame) : Expr NodeId → List Site
  | .literal _ => []
  | .grouping inner => inner.sites Γ
  | .unary _ operand => operand.sites Γ
  | .binary left _ right => left.sites Γ ++ right.sites Γ
  | .logical left _ right => left.sites Γ ++ right.sites Γ
  | .var node name => [⟨node, name, .read, Γ⟩]
  | .assign node name value => value.sites Γ ++ [⟨node, name, .write, Γ⟩]
  | .call callee _ arguments => callee.sites Γ ++ Expr.sitesAll Γ arguments
  | .get object _ => object.sites Γ
  | .set object _ value => value.sites Γ ++ object.sites Γ
  | .this node keyword => [⟨node, keyword, .receiver, Γ⟩]

def Expr.sitesAll (Γ : List OpenFrame) : List (Expr NodeId) → List Site
  | [] => []
  | e :: es => e.sites Γ ++ Expr.sitesAll Γ es

end

def Expr.sitesOption (Γ : List OpenFrame) : Option (Expr NodeId) → List Site
  | none => []
  | some e => e.sites Γ

/-- The frames after a statement, which may have declared a name. -/
def Stmt.after {Label : Type} (Γ : List OpenFrame) : Stmt Label → List OpenFrame
  | .var name _ | .class_ name _ => introduce name Γ
  | .function declaration => introduce declaration.name Γ
  | _ => Γ

mutual

def Stmt.sites (Γ : List OpenFrame) : Stmt NodeId → List Site
  | .expression e => e.sites Γ
  | .print e => e.sites Γ
  | .var name initial => Expr.sitesOption (bind name false Γ) initial
  | .block body => Stmt.sitesAll (openBlock Γ) body
  | .branch condition consequent none => condition.sites Γ ++ consequent.sites Γ
  | .branch condition consequent (some alternative) =>
      condition.sites Γ ++ consequent.sites Γ ++ alternative.sites Γ
  | .loop condition body => condition.sites Γ ++ body.sites Γ
  | .function declaration => declaration.sites (introduce declaration.name Γ)
  | .ret _ value => Expr.sitesOption Γ value
  | .class_ name methods => FunctionDecl.sitesAll (openReceiver (introduce name Γ)) methods

def Stmt.sitesAll (Γ : List OpenFrame) : List (Stmt NodeId) → List Site
  | [] => []
  | s :: ss => s.sites Γ ++ Stmt.sitesAll (s.after Γ) ss

def FunctionDecl.sites (Γ : List OpenFrame) : FunctionDecl NodeId → List Site
  | ⟨_, params, body⟩ => Stmt.sitesAll (openCall params Γ) body

def FunctionDecl.sitesAll (Γ : List OpenFrame) : List (FunctionDecl NodeId) → List Site
  | [] => []
  | m :: ms => m.sites Γ ++ FunctionDecl.sitesAll Γ ms

end

/-- The frames after several statements. -/
def Stmt.afterAll {Label : Type} (Γ : List OpenFrame) (ss : List (Stmt Label)) : List OpenFrame :=
  ss.foldl (fun Γ s => s.after Γ) Γ

theorem Stmt.sitesAll_append (Γ : List OpenFrame) (before after : List (Stmt NodeId)) :
    Stmt.sitesAll Γ (before ++ after) =
      Stmt.sitesAll Γ before ++ Stmt.sitesAll (Stmt.afterAll Γ before) after := by
  induction before generalizing Γ with
  | nil => rfl
  | cons s before ih =>
      rw [List.cons_append, Stmt.sitesAll, ih, Stmt.sitesAll, List.append_assoc]
      rfl

@[simp] theorem Stmt.afterAll_nil {Label : Type} (ss : List (Stmt Label)) :
    Stmt.afterAll [] ss = [] := by
  induction ss with
  | nil => rfl
  | cons s ss ih => cases s <;> exact ih

/-- A statement that declares nothing. -/
def Stmt.plain {Label : Type} : Stmt Label → Bool
  | .var _ _ | .function _ | .class_ _ _ => false
  | _ => true

mutual

/-- No branch and no body of a loop is a declaration itself, so that none depends on a condition. -/
def Stmt.orderly {Label : Type} : Stmt Label → Bool
  | .block body => Stmt.orderlyAll body
  | .branch _ consequent none => consequent.plain && consequent.orderly
  | .branch _ consequent (some alternative) =>
      consequent.plain && consequent.orderly && alternative.plain && alternative.orderly
  | .loop _ body => body.plain && body.orderly
  | .function declaration => declaration.orderly
  | .class_ _ methods => FunctionDecl.orderlyAll methods
  | _ => true

def Stmt.orderlyAll {Label : Type} : List (Stmt Label) → Bool
  | [] => true
  | s :: ss => s.orderly && Stmt.orderlyAll ss

def FunctionDecl.orderly {Label : Type} : FunctionDecl Label → Bool
  | ⟨_, _, body⟩ => Stmt.orderlyAll body

def FunctionDecl.orderlyAll {Label : Type} : List (FunctionDecl Label) → Bool
  | [] => true
  | m :: ms => m.orderly && FunctionDecl.orderlyAll ms

end

theorem Site.distance?_of_nil {site : Site} (h : site.frames = []) : site.distance? = none := by
  unfold Site.distance?
  rw [h]
  split
  · rfl
  · rfl

mutual

theorem Expr.frames_of_mem_sites {Γ : List OpenFrame} :
    ∀ (e : Expr NodeId), ∀ site ∈ e.sites Γ, site.frames = Γ
  | .literal _ => by simp [Expr.sites]
  | .grouping inner => Expr.frames_of_mem_sites inner
  | .unary _ operand => Expr.frames_of_mem_sites operand
  | .binary left _ right | .logical left _ right => by
      intro site hsite
      rcases List.mem_append.mp hsite with h | h
      · exact Expr.frames_of_mem_sites left site h
      · exact Expr.frames_of_mem_sites right site h
  | .var _ _ => by simp [Expr.sites]
  | .assign _ _ value => by
      intro site hsite
      rcases List.mem_append.mp hsite with h | h
      · exact Expr.frames_of_mem_sites value site h
      · rw [List.mem_singleton.mp h]
  | .call callee _ arguments => by
      intro site hsite
      rcases List.mem_append.mp hsite with h | h
      · exact Expr.frames_of_mem_sites callee site h
      · exact Expr.frames_of_mem_sitesAll arguments site h
  | .get object _ => Expr.frames_of_mem_sites object
  | .set object _ value => by
      intro site hsite
      rcases List.mem_append.mp hsite with h | h
      · exact Expr.frames_of_mem_sites value site h
      · exact Expr.frames_of_mem_sites object site h
  | .this _ _ => by simp [Expr.sites]

theorem Expr.frames_of_mem_sitesAll {Γ : List OpenFrame} :
    ∀ (es : List (Expr NodeId)), ∀ site ∈ Expr.sitesAll Γ es, site.frames = Γ
  | [] => by simp [Expr.sitesAll]
  | e :: es => by
      intro site hsite
      rcases List.mem_append.mp hsite with h | h
      · exact Expr.frames_of_mem_sites e site h
      · exact Expr.frames_of_mem_sitesAll es site h

end

theorem FunctionDecl.sites_eq (d : FunctionDecl NodeId) (Γ : List OpenFrame) :
    d.sites Γ = Stmt.sitesAll (openCall d.params Γ) d.body := by
  cases d
  rfl

theorem FunctionDecl.orderly_eq {Label : Type} (d : FunctionDecl Label) :
    d.orderly = Stmt.orderlyAll d.body := by
  cases d
  rfl

theorem FunctionDecl.sites_subset {d : FunctionDecl NodeId} {ds : List (FunctionDecl NodeId)}
    (h : d ∈ ds) (Γ : List OpenFrame) : d.sites Γ ⊆ FunctionDecl.sitesAll Γ ds := by
  induction ds with
  | nil => cases h
  | cons first ds ih =>
      rw [FunctionDecl.sitesAll]
      rcases List.mem_cons.mp h with rfl | h
      · exact List.subset_append_left _ _
      · exact List.subset_append_of_subset_right _ (ih h)

theorem FunctionDecl.orderly_of_mem {Label : Type} {d : FunctionDecl Label}
    {ds : List (FunctionDecl Label)} (h : d ∈ ds) (hds : FunctionDecl.orderlyAll ds) :
    d.orderly := by
  induction ds with
  | nil => cases h
  | cons first ds ih =>
      rw [FunctionDecl.orderlyAll, Bool.and_eq_true] at hds
      rcases List.mem_cons.mp h with rfl | h
      · exact hds.1
      · exact ih h hds.2

theorem Stmt.after_of_plain {Label : Type} {s : Stmt Label} (h : s.plain) (Γ : List OpenFrame) :
    s.after Γ = Γ := by
  cases s <;> simp_all [Stmt.plain, Stmt.after]

variable {name : String} {reading unready : Bool} {k distance : Nat}

/-- A name is found in the frame that lies at its distance, and to be read it is ready there. -/
theorem Resolution.find_eq_bound {frames : List Frame}
    (h : find name reading k unready frames = .bound distance) :
    k ≤ distance ∧ ∃ F ready, frames[distance - k]? = some F ∧ F.find? name = some ready ∧
      (reading → ready) := by
  induction frames generalizing k unready with
  | nil => cases h
  | cons F frames ih =>
      have houter : ∀ {unready}, find name reading (k + 1) unready frames = .bound distance →
          k ≤ distance ∧ ∃ G ready, (F :: frames)[distance - k]? = some G ∧
            G.find? name = some ready ∧ (reading → ready) := by
        intro unready h
        obtain ⟨hle, G, ready, hG, hname⟩ := ih h
        refine ⟨Nat.le_of_succ_le hle, G, ready, ?_, hname⟩
        rwa [show distance - k = distance - (k + 1) + 1 by omega, List.getElem?_cons_succ]
      rw [find] at h
      split at h
      · exact houter h
      · rename_i ready hready
        split at h
        · exact houter h
        · rename_i hskips
          cases h
          refine ⟨Nat.le_refl _, F, ready, by simp, hready, ?_⟩
          intro hreading
          simpa [hreading] using hskips

theorem Site.find_of_distance? {site : Site} (h : site.distance? = some distance) :
    find site.name.lexeme (site.use ≠ .write) 0 false (site.frames.map OpenFrame.names) =
      .bound distance := by
  unfold Site.distance? at h
  split at h
  · cases h
  · split at h
    · rename_i hfind
      cases h
      exact hfind
    · cases h

theorem Site.distance?_lt {site : Site} (h : site.distance? = some distance) :
    distance < site.frames.length := by
  obtain ⟨-, F, ready, hF, -⟩ := find_eq_bound (Site.find_of_distance? h)
  have hlt := (List.getElem?_eq_some_iff.mp hF).1
  rwa [Nat.sub_zero, List.length_map] at hlt

end Lox
