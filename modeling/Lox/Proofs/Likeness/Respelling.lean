import Lox.Proofs.Likeness.Trees
import Lox.Proofs.Running.Fitting

namespace Lox

open Scoping

variable {Label : Type}

/-- What becomes of a token. References and declarations may be changed by how many frames are
open. -/
structure Respelling (Label : Type) where
  token : Token → Token
  reference : Nat → Label → Token → Token
  binder : Nat → Token → Token

mutual

def Expr.respell (ρ : Respelling Label) (d : Nat) : Expr Label → Expr Label
  | .literal value => .literal value
  | .grouping inner => .grouping (inner.respell ρ d)
  | .unary operator operand => .unary (ρ.token operator) (operand.respell ρ d)
  | .binary left operator right =>
      .binary (left.respell ρ d) (ρ.token operator) (right.respell ρ d)
  | .logical left operator right =>
      .logical (left.respell ρ d) (ρ.token operator) (right.respell ρ d)
  | .var label name => .var label (ρ.reference d label name)
  | .assign label name value => .assign label (ρ.reference d label name) (value.respell ρ d)
  | .call callee paren arguments =>
      .call (callee.respell ρ d) (ρ.token paren) (Expr.respellAll ρ d arguments)
  | .get object name => .get (object.respell ρ d) (ρ.token name)
  | .set object name value => .set (object.respell ρ d) (ρ.token name) (value.respell ρ d)
  | .this label keyword => .this label (ρ.reference d label keyword)

def Expr.respellAll (ρ : Respelling Label) (d : Nat) : List (Expr Label) → List (Expr Label)
  | [] => []
  | e :: es => e.respell ρ d :: Expr.respellAll ρ d es

end

def Expr.respellOption (ρ : Respelling Label) (d : Nat) : Option (Expr Label) → Option (Expr Label)
  | none => none
  | some e => some (e.respell ρ d)

mutual

def Stmt.respell (ρ : Respelling Label) (d : Nat) : Stmt Label → Stmt Label
  | .expression e => .expression (e.respell ρ d)
  | .print e => .print (e.respell ρ d)
  | .var name initial => .var (ρ.binder d name) (Expr.respellOption ρ d initial)
  | .block body => .block (Stmt.respellAll ρ (d + 1) body)
  | .branch condition consequent none =>
      .branch (condition.respell ρ d) (consequent.respell ρ d) none
  | .branch condition consequent (some alternative) =>
      .branch (condition.respell ρ d) (consequent.respell ρ d) (some (alternative.respell ρ d))
  | .loop condition body => .loop (condition.respell ρ d) (body.respell ρ d)
  | .function declaration => .function (declaration.respell ρ (d + 1))
  | .ret keyword value => .ret (ρ.token keyword) (Expr.respellOption ρ d value)
  | .class_ name methods => .class_ (ρ.token name) (FunctionDecl.respellAll ρ (d + 2) methods)

def Stmt.respellAll (ρ : Respelling Label) (d : Nat) : List (Stmt Label) → List (Stmt Label)
  | [] => []
  | s :: ss => s.respell ρ d :: Stmt.respellAll ρ d ss

/-- The frame of the function is the innermost of those that are open. -/
def FunctionDecl.respell (ρ : Respelling Label) (d : Nat) :
    FunctionDecl Label → FunctionDecl Label
  | ⟨name, params, body⟩ => ⟨ρ.token name, params.map (ρ.binder d), Stmt.respellAll ρ d body⟩

def FunctionDecl.respellAll (ρ : Respelling Label) (d : Nat) :
    List (FunctionDecl Label) → List (FunctionDecl Label)
  | [] => []
  | m :: ms => m.respell ρ d :: FunctionDecl.respellAll ρ d ms

end

/-- The same becomes of a token wherever it stands. -/
def Respelling.everywhere (f : Token → Token) : Respelling Label where
  token := f
  reference _ _ := f
  binder _ := f

/-- Every token stays as it is. -/
def Respelling.same : Respelling Label where
  token t := t
  reference _ _ t := t
  binder _ t := t

theorem Respelling.same_token : (same : Respelling Label).token = id := rfl

theorem Respelling.same_binder (d : Nat) : (same : Respelling Label).binder d = id := rfl

mutual

theorem Expr.respell_same (d : Nat) : ∀ e : Expr Label, e.respell .same d = e
  | .literal _ => rfl
  | .grouping inner => congrArg _ (inner.respell_same d)
  | .unary _ operand => congrArg _ (operand.respell_same d)
  | .binary left _ right | .logical left _ right => by
      simp [Expr.respell, Respelling.same_token, left.respell_same d, right.respell_same d]
  | .var _ _ => rfl
  | .assign _ _ value => congrArg _ (value.respell_same d)
  | .call callee _ arguments => by
      simp [Expr.respell, Respelling.same_token, callee.respell_same d,
        Expr.respellAll_same d arguments]
  | .get object _ => by simp [Expr.respell, Respelling.same_token, object.respell_same d]
  | .set object _ value => by
      simp [Expr.respell, Respelling.same_token, object.respell_same d, value.respell_same d]
  | .this _ _ => rfl

theorem Expr.respellAll_same (d : Nat) : ∀ es : List (Expr Label), Expr.respellAll .same d es = es
  | [] => rfl
  | e :: es => by simp [Expr.respellAll, e.respell_same d, Expr.respellAll_same d es]

end

theorem Expr.respellOption_same (d : Nat) (e : Option (Expr Label)) :
    Expr.respellOption .same d e = e := by
  cases e with
  | none => rfl
  | some e => exact congrArg some (e.respell_same d)

mutual

theorem Stmt.respell_same : ∀ (d : Nat) (s : Stmt Label), s.respell .same d = s
  | d, .expression e | d, .print e => congrArg _ (e.respell_same d)
  | d, .var _ initial => congrArg _ (Expr.respellOption_same d initial)
  | d, .block body => congrArg _ (Stmt.respellAll_same (d + 1) body)
  | d, .branch condition consequent none => by
      simp [Stmt.respell, condition.respell_same d, Stmt.respell_same d consequent]
  | d, .branch condition consequent (some alternative) => by
      simp [Stmt.respell, condition.respell_same d, Stmt.respell_same d consequent,
        Stmt.respell_same d alternative]
  | d, .loop condition body => by
      simp [Stmt.respell, condition.respell_same d, Stmt.respell_same d body]
  | d, .function declaration => congrArg _ (FunctionDecl.respell_same (d + 1) declaration)
  | d, .ret _ value => congrArg _ (Expr.respellOption_same d value)
  | d, .class_ _ methods => congrArg _ (FunctionDecl.respellAll_same (d + 2) methods)

theorem Stmt.respellAll_same :
    ∀ (d : Nat) (ss : List (Stmt Label)), Stmt.respellAll .same d ss = ss
  | _, [] => rfl
  | d, s :: ss => by simp [Stmt.respellAll, Stmt.respell_same d s, Stmt.respellAll_same d ss]

theorem FunctionDecl.respell_same :
    ∀ (d : Nat) (f : FunctionDecl Label), f.respell .same d = f
  | d, ⟨_, _, body⟩ => by
      simp [FunctionDecl.respell, Respelling.same_token, Respelling.same_binder,
        Stmt.respellAll_same d body]

theorem FunctionDecl.respellAll_same :
    ∀ (d : Nat) (fs : List (FunctionDecl Label)), FunctionDecl.respellAll .same d fs = fs
  | _, [] => rfl
  | d, f :: fs => by
      simp [FunctionDecl.respellAll, FunctionDecl.respell_same d f,
        FunctionDecl.respellAll_same d fs]

end

namespace Scoping

variable {Γ : List OpenFrame}

@[simp] theorem length_bind (name : Token) (ready : Bool) :
    (bind name ready Γ).length = Γ.length := by
  cases Γ <;> rfl

@[simp] theorem length_introduce (name : Token) : (introduce name Γ).length = Γ.length := by
  simp [introduce]

@[simp] theorem length_openCall (params : List Token) :
    (openCall params Γ).length = Γ.length + 1 := by
  have h : ∀ Γ : List OpenFrame,
      (params.foldl (fun Γ param => introduce param Γ) Γ).length = Γ.length := by
    induction params with
    | nil => exact fun _ => rfl
    | cons param params ih => exact fun Γ => (ih _).trans (length_introduce param)
  exact h _

@[simp] theorem length_after {s : Stmt Label} : (s.after Γ).length = Γ.length := by
  cases s <;> simp [Stmt.after]

end Scoping

/-- The name of the function or class that a statement declares. -/
def Stmt.title? : Stmt Label → Option Token
  | .function declaration => some declaration.name
  | .class_ name _ => some name
  | _ => none

theorem Stmt.title?_of_plain {s : Stmt Label} (h : s.plain) : s.title? = none := by
  cases s <;> simp_all [Stmt.plain, Stmt.title?]

theorem Stmt.titles_subset {ss : List (Stmt Label)} {t : Token}
    (h : t ∈ ss.filterMap Stmt.title?) : t ∈ Stmt.tokensAll ss := by
  induction ss with
  | nil => cases h
  | cons s ss ih =>
      rw [Stmt.tokensAll, List.mem_append]
      obtain ⟨s', hs', ht⟩ := List.mem_filterMap.mp h
      rcases List.mem_cons.mp hs' with rfl | hs'
      · left
        cases s' <;> simp_all [Stmt.title?, Stmt.tokens, FunctionDecl.tokens_eq]
      · exact .inr (ih (List.mem_filterMap.mpr ⟨s', hs', ht⟩))

/-- The likeness allows what becomes of the tokens of the setting. Seen from the place where it
starts, `base` frames lie outside, and the frames that are opened from there on are not marked. -/
structure Likeness.Allows (L : Likeness NodeId) (ρ : Respelling NodeId) (marks : Nat → List Bool)
    (base : Nat) (W : Setting) : Prop where
  inner : ∀ d, marks (d + 1) = false :: marks d
  token : ∀ t, W.token t → L.token t (ρ.token t)
  reference : ∀ site d, W.site site → W.token site.name → site.frames.length = base + d →
    L.reference (marks d) site.node site.name (ρ.reference d site.node site.name)
  binder : ∀ t d, W.token t → L.binder (marks d) t (ρ.binder d t)
  title : ∀ t d, W.token t → 0 < d → L.title (marks d) t (ρ.token t)

section

variable {L : Likeness NodeId} {ρ : Respelling NodeId} {marks : Nat → List Bool} {base : Nat}
  {W : Setting}

mutual

theorem Expr.alike_respell (h : L.Allows ρ marks base W) {Γ : List OpenFrame} {d : Nat}
    (hΓ : Γ.length = base + d) :
    ∀ e : Expr NodeId, W.Admits (e.sites Γ) e.tokens → e.Alike L (marks d) (e.respell ρ d)
  | .literal _, _ => .literal
  | .grouping inner, he => .grouping (inner.alike_respell h hΓ he)
  | .unary operator operand, he =>
      .unary (h.token _ (he.tokens _ (by simp [Expr.tokens])))
        (operand.alike_respell h hΓ (he.mono (by simp [Expr.sites]) (by simp [Expr.tokens])))
  | .binary left operator right, he =>
      .binary (left.alike_respell h hΓ (he.mono (by simp [Expr.sites]) (by simp [Expr.tokens])))
        (h.token _ (he.tokens _ (by simp [Expr.tokens])))
        (right.alike_respell h hΓ (he.mono (by simp [Expr.sites]) (by simp [Expr.tokens])))
  | .logical left operator right, he =>
      .logical (left.alike_respell h hΓ (he.mono (by simp [Expr.sites]) (by simp [Expr.tokens])))
        (h.token _ (he.tokens _ (by simp [Expr.tokens])))
        (right.alike_respell h hΓ (he.mono (by simp [Expr.sites]) (by simp [Expr.tokens])))
  | .var node name, he =>
      .var (h.reference ⟨node, name, .read, Γ⟩ d (he.sites _ (by simp [Expr.sites]))
        (he.tokens _ (by simp [Expr.tokens])) hΓ)
  | .assign node name value, he =>
      .assign (h.reference ⟨node, name, .write, Γ⟩ d (he.sites _ (by simp [Expr.sites]))
          (he.tokens _ (by simp [Expr.tokens])) hΓ)
        (value.alike_respell h hΓ (he.mono (by simp [Expr.sites]) (by simp [Expr.tokens])))
  | .call callee paren arguments, he =>
      .call (callee.alike_respell h hΓ (he.mono (by simp [Expr.sites]) (by simp [Expr.tokens])))
        (h.token _ (he.tokens _ (by simp [Expr.tokens])))
        (Expr.alikeAll_respell h hΓ arguments
          (he.mono (by simp [Expr.sites]) (by simp [Expr.tokens])))
  | .get object name, he =>
      .get (object.alike_respell h hΓ (he.mono (by simp [Expr.sites]) (by simp [Expr.tokens])))
        (h.token _ (he.tokens _ (by simp [Expr.tokens])))
  | .set object name value, he =>
      .set (object.alike_respell h hΓ (he.mono (by simp [Expr.sites]) (by simp [Expr.tokens])))
        (h.token _ (he.tokens _ (by simp [Expr.tokens])))
        (value.alike_respell h hΓ (he.mono (by simp [Expr.sites]) (by simp [Expr.tokens])))
  | .this node keyword, he =>
      .this (h.reference ⟨node, keyword, .receiver, Γ⟩ d (he.sites _ (by simp [Expr.sites]))
        (he.tokens _ (by simp [Expr.tokens])) hΓ)

theorem Expr.alikeAll_respell (h : L.Allows ρ marks base W) {Γ : List OpenFrame} {d : Nat}
    (hΓ : Γ.length = base + d) :
    ∀ es : List (Expr NodeId), W.Admits (Expr.sitesAll Γ es) (Expr.tokensAll es) →
      Expr.AlikeAll L (marks d) es (Expr.respellAll ρ d es)
  | [], _ => .nil
  | e :: es, he =>
      .cons (e.alike_respell h hΓ (he.mono (by simp [Expr.sitesAll]) (by simp [Expr.tokensAll])))
        (Expr.alikeAll_respell h hΓ es
          (he.mono (by simp [Expr.sitesAll]) (by simp [Expr.tokensAll])))

end

theorem Expr.alikeOption_respell (h : L.Allows ρ marks base W) {Γ : List OpenFrame} {d : Nat}
    (hΓ : Γ.length = base + d) {e : Option (Expr NodeId)}
    (he : W.Admits (Expr.sitesOption Γ e) (Expr.tokensOption e)) :
    Expr.AlikeOption L (marks d) e (Expr.respellOption ρ d e) := by
  cases e with
  | none => exact .none
  | some e => exact .some (e.alike_respell h hΓ he)

mutual

theorem Stmt.alike_respell (h : L.Allows ρ marks base W) {Γ : List OpenFrame} {d : Nat}
    (hΓ : Γ.length = base + d) :
    ∀ s : Stmt NodeId, W.Admits (s.sites Γ) s.tokens → s.orderly →
      (∀ t ∈ s.title?, L.title (marks d) t (ρ.token t)) → s.Alike L (marks d) (s.respell ρ d)
  | .expression e, hs, _, _ => .expression (e.alike_respell h hΓ hs)
  | .print e, hs, _, _ => .print (e.alike_respell h hΓ hs)
  | .var name initial, hs, _, _ =>
      .var (h.binder name d (hs.tokens _ (by simp [Stmt.tokens])))
        (Expr.alikeOption_respell h (Γ := bind name false Γ) (by simpa using hΓ)
          (hs.mono (by simp [Stmt.sites]) (by simp [Stmt.tokens])))
  | .block body, hs, horderly, _ => by
      have hbody := Stmt.alikeAll_respell h (Γ := openBlock Γ) (d := d + 1)
        (by simp [openBlock, hΓ, Nat.add_assoc]) body hs horderly
        fun t ht => h.title t _ (hs.tokens t (Stmt.titles_subset ht)) (Nat.succ_pos d)
      rw [h.inner] at hbody
      exact .block hbody
  | .branch condition consequent none, hs, horderly, _ => by
      have hconsequent : consequent.plain ∧ consequent.orderly := by
        simpa [Stmt.orderly] using horderly
      exact .branch
        (condition.alike_respell h hΓ (hs.mono (by simp [Stmt.sites]) (by simp [Stmt.tokens])))
        (consequent.alike_respell h hΓ (hs.mono (by simp [Stmt.sites]) (by simp [Stmt.tokens]))
          hconsequent.2 (by simp [Stmt.title?_of_plain hconsequent.1]))
  | .branch condition consequent (some alternative), hs, horderly, _ => by
      have hboth : ((consequent.plain ∧ consequent.orderly) ∧ alternative.plain) ∧
          alternative.orderly := by
        simpa [Stmt.orderly] using horderly
      obtain ⟨⟨⟨hplain, hconsequent⟩, hplain'⟩, halternative⟩ := hboth
      exact .branches
        (condition.alike_respell h hΓ (hs.mono (by simp [Stmt.sites]) (by simp [Stmt.tokens])))
        (consequent.alike_respell h hΓ (hs.mono (by simp [Stmt.sites]) (by simp [Stmt.tokens]))
          hconsequent (by simp [Stmt.title?_of_plain hplain]))
        (alternative.alike_respell h hΓ (hs.mono (by simp [Stmt.sites]) (by simp [Stmt.tokens]))
          halternative (by simp [Stmt.title?_of_plain hplain']))
  | .loop condition body, hs, horderly, _ => by
      have hbody : body.plain ∧ body.orderly := by simpa [Stmt.orderly] using horderly
      exact .loop
        (condition.alike_respell h hΓ (hs.mono (by simp [Stmt.sites]) (by simp [Stmt.tokens])))
        (body.alike_respell h hΓ (hs.mono (by simp [Stmt.sites]) (by simp [Stmt.tokens]))
          hbody.2 (by simp [Stmt.title?_of_plain hbody.1]))
  | .function declaration, hs, horderly, htitle => by
      refine .function ?_ (declaration.alike_respell h (Γ := introduce declaration.name Γ)
        (by simpa using hΓ) hs horderly)
      cases declaration
      exact htitle _ rfl
  | .ret keyword value, hs, _, _ =>
      .ret (h.token _ (hs.tokens _ (by simp [Stmt.tokens])))
        (Expr.alikeOption_respell h hΓ (hs.mono (by simp [Stmt.sites]) (by simp [Stmt.tokens])))
  | .class_ name methods, hs, horderly, htitle => by
      have hmethods := FunctionDecl.alikeAll_respell h (Γ := openReceiver (introduce name Γ))
        (d := d + 1) (by simp [openReceiver, hΓ, Nat.add_assoc]) methods
        (hs.mono (by simp [Stmt.sites]) (by simp [Stmt.tokens])) horderly
      rw [h.inner] at hmethods
      exact .class_ (htitle _ rfl) hmethods

theorem Stmt.alikeAll_respell (h : L.Allows ρ marks base W) {Γ : List OpenFrame} {d : Nat}
    (hΓ : Γ.length = base + d) :
    ∀ ss : List (Stmt NodeId), W.Admits (Stmt.sitesAll Γ ss) (Stmt.tokensAll ss) →
      Stmt.orderlyAll ss → (∀ t ∈ ss.filterMap Stmt.title?, L.title (marks d) t (ρ.token t)) →
      Stmt.AlikeAll L (marks d) ss (Stmt.respellAll ρ d ss)
  | [], _, _, _ => .nil
  | s :: ss, hs, horderly, htitle => by
      have horderly : s.orderly ∧ Stmt.orderlyAll ss := by simpa [Stmt.orderlyAll] using horderly
      refine .cons (s.alike_respell h hΓ (hs.mono (by simp [Stmt.sitesAll])
        (by simp [Stmt.tokensAll])) horderly.1 ?_) (Stmt.alikeAll_respell h (Γ := s.after Γ)
        (by simpa using hΓ) ss (hs.mono (by simp [Stmt.sitesAll]) (by simp [Stmt.tokensAll]))
        horderly.2 ?_)
      · intro t ht
        exact htitle t (List.mem_filterMap.mpr ⟨s, List.mem_cons_self, ht⟩)
      · intro t ht
        obtain ⟨s', hs', ht⟩ := List.mem_filterMap.mp ht
        exact htitle t (List.mem_filterMap.mpr ⟨s', List.mem_cons_of_mem _ hs', ht⟩)

theorem FunctionDecl.alike_respell (h : L.Allows ρ marks base W) {Γ : List OpenFrame} {d : Nat}
    (hΓ : Γ.length = base + d) :
    ∀ f : FunctionDecl NodeId, W.Admits (f.sites Γ) f.tokens → f.orderly →
      f.Alike L (marks d) (f.respell ρ (d + 1))
  | ⟨name, params, body⟩, hf, horderly => by
      have hbody := Stmt.alikeAll_respell h (Γ := openCall params Γ) (d := d + 1)
        (by simp [hΓ, Nat.add_assoc]) body
        (hf.mono (by simp [FunctionDecl.sites]) (by simp [FunctionDecl.tokens])) horderly
        fun t ht => h.title t _ (hf.tokens t (by simp [FunctionDecl.tokens, Stmt.titles_subset ht]))
          (Nat.succ_pos d)
      rw [h.inner] at hbody
      refine .mk (h.token _ (hf.tokens _ (by simp [FunctionDecl.tokens]))) ?_ hbody
      rw [List.forall₂_map_right_iff, List.forall₂_same]
      intro param hparam
      rw [← h.inner]
      exact h.binder param _ (hf.tokens _ (by simp [FunctionDecl.tokens, hparam]))

theorem FunctionDecl.alikeAll_respell (h : L.Allows ρ marks base W) {Γ : List OpenFrame} {d : Nat}
    (hΓ : Γ.length = base + d) :
    ∀ fs : List (FunctionDecl NodeId),
      W.Admits (FunctionDecl.sitesAll Γ fs) (FunctionDecl.tokensAll fs) →
      FunctionDecl.orderlyAll fs →
      FunctionDecl.AlikeAll L (marks d) fs (FunctionDecl.respellAll ρ (d + 1) fs)
  | [], _, _ => .nil
  | f :: fs, hf, horderly => by
      have horderly : f.orderly ∧ FunctionDecl.orderlyAll fs := by
        simpa [FunctionDecl.orderlyAll] using horderly
      exact .cons
        (f.alike_respell h hΓ (hf.mono (by simp [FunctionDecl.sitesAll])
          (by simp [FunctionDecl.tokensAll])) horderly.1)
        (FunctionDecl.alikeAll_respell h hΓ fs (hf.mono (by simp [FunctionDecl.sitesAll])
          (by simp [FunctionDecl.tokensAll])) horderly.2)

end

/-- The likeness allows that the tokens of the setting stay as they are, where no frame is
marked. -/
structure Likeness.Keeps (L : Likeness NodeId) (W : Setting) : Prop where
  allows : ∀ base, L.Allows .same (fun d => List.replicate (base + d) false) base W
  title : ∀ t n, W.token t → L.title (List.replicate n false) t t

namespace Likeness.Keeps

variable {Γ : List OpenFrame} {n : Nat}

theorem expression (h : L.Keeps W) {e : Expr NodeId} (hn : Γ.length = n)
    (he : W.Admits (e.sites Γ) e.tokens) : e.Alike L (List.replicate n false) e := by
  have halike := e.alike_respell (h.allows n) (d := 0) hn he
  rwa [Expr.respell_same] at halike

theorem statement (h : L.Keeps W) {s : Stmt NodeId} (hn : Γ.length = n)
    (hs : W.Admits (s.sites Γ) s.tokens) (horderly : s.orderly) :
    s.Alike L (List.replicate n false) s := by
  have htitle : ∀ t ∈ s.title?, W.token t := by
    intro t ht
    refine hs.tokens t ?_
    have hmem : t ∈ Stmt.tokensAll [s] :=
      Stmt.titles_subset (by simp [show s.title? = some t from ht])
    simpa [Stmt.tokensAll] using hmem
  have halike := s.alike_respell (h.allows n) (d := 0) hn hs horderly
    fun t ht => h.title t _ (htitle t ht)
  rwa [Stmt.respell_same] at halike

theorem statements (h : L.Keeps W) {ss : List (Stmt NodeId)} (hn : Γ.length = n)
    (hss : W.Admits (Stmt.sitesAll Γ ss) (Stmt.tokensAll ss)) (horderly : Stmt.orderlyAll ss) :
    Stmt.AlikeAll L (List.replicate n false) ss ss := by
  have halike := Stmt.alikeAll_respell (h.allows n) (d := 0) hn ss hss horderly
    fun t ht => h.title t _ (hss.tokens t (Stmt.titles_subset ht))
  rwa [Stmt.respellAll_same] at halike

theorem function (h : L.Keeps W) {d : FunctionDecl NodeId} (hn : Γ.length = n)
    (hd : W.Admits (d.sites Γ) d.tokens) (horderly : d.orderly) :
    d.Alike L (List.replicate n false) d := by
  have halike := d.alike_respell (h.allows n) (d := 0) hn hd horderly
  rwa [FunctionDecl.respell_same] at halike

theorem functions (h : L.Keeps W) {ds : List (FunctionDecl NodeId)} (hn : Γ.length = n)
    (hds : W.Admits (FunctionDecl.sitesAll Γ ds) (FunctionDecl.tokensAll ds))
    (horderly : FunctionDecl.orderlyAll ds) :
    FunctionDecl.AlikeAll L (List.replicate n false) ds ds := by
  have halike := FunctionDecl.alikeAll_respell (h.allows n) (d := 0) hn ds hds horderly
  rwa [FunctionDecl.respellAll_same] at halike

end Likeness.Keeps

end

end Lox
