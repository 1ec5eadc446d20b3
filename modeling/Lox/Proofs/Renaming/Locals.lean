import Lox.Proofs.Likeness.Respelling
import Lox.Proofs.Scoping.Distinct

/-!
Renaming a local variable.

A parameter or a variable of a block or a function gets a new name, together with the references
that are bound to its frame. The program with the new name is like the one with the old name, where
the one frame is marked.
-/

namespace Lox

open Scoping

/-- The new name for a declaration in a frame and for what is bound to it, as seen from inside: the
frame of a reference lies as far out as the table of distances tells. -/
def Respelling.renaming (hops : Hops) (old new : String) : Respelling NodeId where
  token t := t
  reference d node t :=
    if t.lexeme = old ∧ hops[node]? = some d then { t with lexeme := new } else t
  binder d t := if d = 0 ∧ t.lexeme = old then { t with lexeme := new } else t

/-- One of the statements declares the variable. -/
def Stmt.HasVariable (name : String) (body : List (Stmt NodeId)) : Prop :=
  ∃ t initial, .var t initial ∈ body ∧ t.lexeme = name

/-- The function has the parameter, or its body declares the variable. -/
def FunctionDecl.HasLocal (name : String) (d : FunctionDecl NodeId) : Prop :=
  (∃ t ∈ d.params, t.lexeme = name) ∨ Stmt.HasVariable name d.body

/-- The second statement is the first one with one of its local variables or parameters renamed. -/
inductive Stmt.Renames (hops : Hops) (old new : String) : Stmt NodeId → Stmt NodeId → Prop
  | block {body : List (Stmt NodeId)} (h : Stmt.HasVariable old body) :
      Renames hops old new (.block body) (.block (Stmt.respellAll (.renaming hops old new) 0 body))
  | function {d : FunctionDecl NodeId} (h : d.HasLocal old) :
      Renames hops old new (.function d) (.function (d.respell (.renaming hops old new) 0))
  | method {name : Token} {before after : List (FunctionDecl NodeId)} {d : FunctionDecl NodeId}
      (h : d.HasLocal old) :
      Renames hops old new (.class_ name (before ++ d :: after))
        (.class_ name (before ++ d.respell (.renaming hops old new) 0 :: after))
  | inBlock {before after : List (Stmt NodeId)} {s s' : Stmt NodeId}
      (h : Renames hops old new s s') :
      Renames hops old new (.block (before ++ s :: after)) (.block (before ++ s' :: after))
  | inConsequent {condition : Expr NodeId} {s s' : Stmt NodeId}
      {alternative : Option (Stmt NodeId)} (h : Renames hops old new s s') :
      Renames hops old new (.branch condition s alternative) (.branch condition s' alternative)
  | inAlternative {condition : Expr NodeId} {consequent s s' : Stmt NodeId}
      (h : Renames hops old new s s') :
      Renames hops old new (.branch condition consequent (some s))
        (.branch condition consequent (some s'))
  | inLoop {condition : Expr NodeId} {s s' : Stmt NodeId} (h : Renames hops old new s s') :
      Renames hops old new (.loop condition s) (.loop condition s')
  | inFunction {name : Token} {params : List Token} {before after : List (Stmt NodeId)}
      {s s' : Stmt NodeId} (h : Renames hops old new s s') :
      Renames hops old new (.function ⟨name, params, before ++ s :: after⟩)
        (.function ⟨name, params, before ++ s' :: after⟩)
  | inMethod {title name : Token} {methods others : List (FunctionDecl NodeId)}
      {params : List Token} {before after : List (Stmt NodeId)} {s s' : Stmt NodeId}
      (h : Renames hops old new s s') :
      Renames hops old new
        (.class_ title (methods ++ ⟨name, params, before ++ s :: after⟩ :: others))
        (.class_ title (methods ++ ⟨name, params, before ++ s' :: after⟩ :: others))

/-- The second program is the first one with one of its local variables or parameters renamed. -/
def Stmt.RenamesIn (hops : Hops) (old new : String) (program program' : List (Stmt NodeId)) :
    Prop :=
  ∃ before s s' after, program = before ++ s :: after ∧ program' = before ++ s' :: after ∧
    Stmt.Renames hops old new s s'

section

variable {Label : Type} {L : Likeness Label} {Δ : List Bool}

theorem Stmt.AlikeAll.append {ss ss' us us' : List (Stmt Label)} (h : Stmt.AlikeAll L Δ ss ss')
    (hus : Stmt.AlikeAll L Δ us us') : Stmt.AlikeAll L Δ (ss ++ us) (ss' ++ us') := by
  induction ss generalizing ss' with
  | nil =>
      cases h
      exact hus
  | cons s ss ih =>
      cases h with
      | cons hs hss => exact .cons hs (ih hss)

end

theorem Stmt.tokensAll_append (before after : List (Stmt NodeId)) :
    Stmt.tokensAll (before ++ after) = Stmt.tokensAll before ++ Stmt.tokensAll after := by
  induction before with
  | nil => rfl
  | cons s before ih => rw [List.cons_append, Stmt.tokensAll, ih, Stmt.tokensAll, List.append_assoc]

theorem Stmt.orderlyAll_append (before after : List (Stmt NodeId)) :
    Stmt.orderlyAll (before ++ after) = (Stmt.orderlyAll before && Stmt.orderlyAll after) := by
  induction before with
  | nil => rfl
  | cons s before ih =>
      rw [List.cons_append, Stmt.orderlyAll, ih, Stmt.orderlyAll, Bool.and_assoc]

theorem Stmt.occurrencesAll_append (S : Surroundings) (before after : List (Stmt NodeId)) :
    Stmt.occurrencesAll S (before ++ after) =
      Stmt.occurrencesAll S before ++
        Stmt.occurrencesAll (S.declareAll (before.flatMap Stmt.declared)) after := by
  induction before generalizing S with
  | nil => rfl
  | cons s before ih =>
      rw [List.cons_append, Stmt.occurrencesAll, ih, Stmt.occurrencesAll, List.append_assoc,
        List.flatMap_cons, Surroundings.declareAll_append]

@[simp] theorem Scoping.length_afterAll (Γ : List OpenFrame) (ss : List (Stmt NodeId)) :
    (Stmt.afterAll Γ ss).length = Γ.length := by
  induction ss generalizing Γ with
  | nil => rfl
  | cons s ss ih => exact (ih _).trans length_after

/-- The likeness allows the new name in one marked frame, and allows all tokens elsewhere. -/
structure Likeness.AllowsRenaming (L : Likeness NodeId) (hops : Hops) (old new : String)
    (W : Setting) : Prop where
  keeps : L.Keeps W
  frame : ∀ n, L.Allows (.renaming hops old new)
    (fun d => List.replicate d false ++ true :: List.replicate n false) (n + 1) W
  title : ∀ t n, W.token t → t.lexeme ≠ old → L.title (true :: List.replicate n false) t t

variable {L : Likeness NodeId} {W : Setting} {hops : Hops} {old new : String} {Γ : List OpenFrame}
  {n : Nat} {known : List String} {S : Surroundings}

theorem Surroundings.Lacks.title_ne {body : List (Stmt NodeId)}
    (h : S.Lacks (body.flatMap Stmt.declared)) (hvariable : Stmt.HasVariable old body) {t : Token}
    (ht : t ∈ body.filterMap Stmt.title?) : t.lexeme ≠ old := by
  obtain ⟨name, initial, hmem, rfl⟩ := hvariable
  obtain ⟨s, hs, hst⟩ := List.mem_filterMap.mp ht
  intro heq
  have hdeclared : t ∈ s.declared := by
    cases s <;> simp_all [Stmt.title?, Stmt.declared]
  have hsame := h.eq_of_declared hs hmem hdeclared (List.mem_singleton_self name) heq
  rw [hsame] at hst
  cases hst

theorem Stmt.titles_declared {body : List (Stmt NodeId)} {t : Token}
    (ht : t ∈ body.filterMap Stmt.title?) : t ∈ body.flatMap Stmt.declared := by
  obtain ⟨s, hs, hst⟩ := List.mem_filterMap.mp ht
  refine List.mem_flatMap.mpr ⟨s, hs, ?_⟩
  cases s <;> simp_all [Stmt.title?, Stmt.declared]

namespace Likeness.AllowsRenaming

theorem block (h : L.AllowsRenaming hops old new W) (hn : Γ.length = n)
    {body : List (Stmt NodeId)} (hvariable : Stmt.HasVariable old body)
    (hbody : W.Admits (Stmt.sitesAll (openBlock Γ) body) (Stmt.tokensAll body))
    (horderly : Stmt.orderlyAll body) (hquiet : Quiet known (Stmt.occurrencesAll S.inBlock body)) :
    (Stmt.block body).Alike L (List.replicate n false)
      (.block (Stmt.respellAll (.renaming hops old new) 0 body)) := by
  have hlacks := Surroundings.lacks_of_statements rfl horderly hquiet
  exact .block (Stmt.alikeAll_respell (h.frame n) (Γ := openBlock Γ) (d := 0)
    (by simp [openBlock, hn]) body hbody horderly fun t ht =>
      h.title t n (hbody.tokens t (Stmt.titles_subset ht)) (hlacks.title_ne hvariable ht))

theorem function (h : L.AllowsRenaming hops old new W) (hn : Γ.length = n)
    {d : FunctionDecl NodeId} (hlocal : d.HasLocal old) (hd : W.Admits (d.sites Γ) d.tokens)
    (horderly : d.orderly) {role : Resolution.Role} (hquiet : Quiet known (d.occurrences role S)) :
    d.Alike L (List.replicate n false) (d.respell (.renaming hops old new) 0) := by
  obtain ⟨name, params, body⟩ := d
  obtain ⟨hparameters, hstatements⟩ := quiet_append.mp hquiet
  have hlacks := Surroundings.lacks_of_parameters (S := S.inFunction role) rfl hparameters
  have hframes := Surroundings.frames_declareAll (S := S.inFunction role) rfl params
  have hdeclared := Surroundings.lacks_of_statements hframes horderly hstatements
  have htitle : ∀ t ∈ body.filterMap Stmt.title?, t.lexeme ≠ old := by
    intro t ht
    rcases hlocal with ⟨param, hparam, rfl⟩ | hvariable
    · have hmem : (⟨param.lexeme, false⟩ : Declaration) ∈
          (params.map fun t => (⟨t.lexeme, false⟩ : Declaration)).reverse ++ [] := by
        simpa using ⟨param, hparam, rfl⟩
      exact (hdeclared.new _ (by rw [hframes]; rfl) _ hmem t (Stmt.titles_declared ht)).symm
    · exact hdeclared.title_ne hvariable ht
  have hbody := Stmt.alikeAll_respell (h.frame n) (Γ := openCall params Γ) (d := 0) (by simp [hn])
    body (hd.mono (by simp [FunctionDecl.sites]) (by simp [FunctionDecl.tokens])) horderly
    fun t ht => h.title t n
      (hd.tokens t (by simp [FunctionDecl.tokens, Stmt.titles_subset ht])) (htitle t ht)
  refine .mk ((h.frame n).token _ (hd.tokens _ (by simp [FunctionDecl.tokens]))) ?_ hbody
  rw [List.forall₂_map_right_iff, List.forall₂_same]
  intro param hparam
  exact (h.frame n).binder param 0 (hd.tokens _ (by simp [FunctionDecl.tokens, hparam]))

/-- What a statement becomes wherever it stands. -/
def Becomes (L : Likeness NodeId) (W : Setting) (known : List String) (s s' : Stmt NodeId) :
    Prop :=
  ∀ {Γ : List OpenFrame} {S : Surroundings} {n : Nat}, Γ.length = n →
    W.Admits (s.sites Γ) s.tokens → s.orderly → Quiet known (s.occurrences S) →
      s.Alike L (List.replicate n false) s'

theorem statements (h : L.AllowsRenaming hops old new W) (hn : Γ.length = n)
    {before after : List (Stmt NodeId)} {s s' : Stmt NodeId} (hs : Becomes L W known s s')
    (hall : W.Admits (Stmt.sitesAll Γ (before ++ s :: after))
      (Stmt.tokensAll (before ++ s :: after)))
    (horderly : Stmt.orderlyAll (before ++ s :: after))
    (hquiet : Quiet known (Stmt.occurrencesAll S (before ++ s :: after))) :
    Stmt.AlikeAll L (List.replicate n false) (before ++ s :: after) (before ++ s' :: after) := by
  rw [Stmt.sitesAll_append, Stmt.tokensAll_append, Stmt.sitesAll, Stmt.tokensAll] at hall
  rw [Stmt.orderlyAll_append, Stmt.orderlyAll, Bool.and_eq_true, Bool.and_eq_true] at horderly
  rw [Stmt.occurrencesAll_append, Stmt.occurrencesAll, quiet_append, quiet_append] at hquiet
  have hbefore := h.keeps.statements hn (hall.mono (by simp) (by simp)) horderly.1
  have hmiddle := hs (Γ := Stmt.afterAll Γ before) (by simpa using hn)
    (hall.mono (by simp) (by simp)) horderly.2.1 hquiet.2.1
  have hafter := h.keeps.statements (Γ := s.after (Stmt.afterAll Γ before)) (by simpa using hn)
    (hall.mono (by simp) (by simp)) horderly.2.2
  exact hbefore.append (.cons hmiddle hafter)

theorem methods (h : L.AllowsRenaming hops old new W) (hn : Γ.length = n)
    {before after : List (FunctionDecl NodeId)} {d d' : FunctionDecl NodeId}
    (hd : W.Admits (d.sites Γ) d.tokens → d.orderly →
      Quiet known (d.occurrences (Resolution.methodRole d.name) S) →
        d.Alike L (List.replicate n false) d')
    (hall : W.Admits (FunctionDecl.sitesAll Γ (before ++ d :: after))
      (FunctionDecl.tokensAll (before ++ d :: after)))
    (horderly : FunctionDecl.orderlyAll (before ++ d :: after))
    (hquiet : Quiet known (FunctionDecl.occurrencesAll S (before ++ d :: after))) :
    FunctionDecl.AlikeAll L (List.replicate n false) (before ++ d :: after)
      (before ++ d' :: after) := by
  induction before with
  | nil =>
      have horderly : d.orderly ∧ FunctionDecl.orderlyAll after := by
        simpa [FunctionDecl.orderlyAll] using horderly
      exact .cons (hd (hall.mono (by simp [FunctionDecl.sitesAll])
          (by simp [FunctionDecl.tokensAll])) horderly.1 (quiet_append.mp hquiet).1)
        (h.keeps.functions hn (hall.mono (by simp [FunctionDecl.sitesAll])
          (by simp [FunctionDecl.tokensAll])) horderly.2)
  | cons first before ih =>
      have horderly : first.orderly ∧ FunctionDecl.orderlyAll (before ++ d :: after) := by
        simpa [FunctionDecl.orderlyAll] using horderly
      exact .cons (h.keeps.function hn (hall.mono (by simp [FunctionDecl.sitesAll])
          (by simp [FunctionDecl.tokensAll])) horderly.1)
        (ih (hall.mono (by simp [FunctionDecl.sitesAll]) (by simp [FunctionDecl.tokensAll]))
          horderly.2 (quiet_append.mp hquiet).2)

theorem body (h : L.AllowsRenaming hops old new W) (hn : Γ.length = n) {name : Token}
    {params : List Token} {before after : List (Stmt NodeId)} {s s' : Stmt NodeId}
    (hs : Becomes L W known s s')
    (hd : W.Admits (FunctionDecl.sites Γ ⟨name, params, before ++ s :: after⟩)
      (FunctionDecl.tokens ⟨name, params, before ++ s :: after⟩))
    (horderly : Stmt.orderlyAll (before ++ s :: after)) {role : Resolution.Role}
    (hquiet : Quiet known (FunctionDecl.occurrences role S ⟨name, params, before ++ s :: after⟩)) :
    FunctionDecl.Alike L (List.replicate n false) ⟨name, params, before ++ s :: after⟩
      ⟨name, params, before ++ s' :: after⟩ := by
  have hname := (h.keeps.allows 0).token name (hd.tokens _ (by simp [FunctionDecl.tokens]))
  have hparams : List.Forall₂ (L.binder (List.replicate (n + 1) false)) params params := by
    rw [List.forall₂_same]
    intro param hparam
    have hbinder := (h.keeps.allows (n + 1)).binder param 0
      (hd.tokens _ (by simp [FunctionDecl.tokens, hparam]))
    exact hbinder
  exact .mk hname hparams (h.statements (Γ := openCall params Γ) (n := n + 1) (by simp [hn]) hs
    (hd.mono (by simp [FunctionDecl.sites]) (by simp [FunctionDecl.tokens])) horderly
    (quiet_append.mp hquiet).2)

end Likeness.AllowsRenaming

open Likeness.AllowsRenaming in
/-- A statement with a new name for a local variable is like the one with the old name. -/
theorem Stmt.Renames.alike (h : L.AllowsRenaming hops old new W) {s s' : Stmt NodeId}
    (hrenames : s.Renames hops old new s') : Becomes L W known s s' := by
  induction hrenames with
  | block hvariable =>
      intro Γ S n hn hs horderly hquiet
      exact h.block hn hvariable hs horderly hquiet
  | @function d hlocal =>
      intro Γ S n hn hs horderly hquiet
      have htitle := h.keeps.title d.name n
        (hs.tokens _ (by simp [Stmt.tokens, FunctionDecl.tokens_eq]))
      have hd := h.function (Γ := introduce d.name Γ) (by simpa using hn) hlocal hs horderly
        (List.forall_mem_cons.mp hquiet).2
      cases d
      exact .function htitle hd
  | @method name before after d hlocal =>
      intro Γ S n hn hs horderly hquiet
      have htitle := h.keeps.title name n (hs.tokens _ (by simp [Stmt.tokens]))
      exact .class_ htitle (h.methods (Γ := openReceiver (introduce name Γ)) (n := n + 1)
        (by simp [openReceiver, hn]) (fun hd horderly hquiet =>
          h.function (n := n + 1) (by simp [openReceiver, hn]) hlocal hd horderly hquiet)
        (hs.mono (by simp [Stmt.sites]) (by simp [Stmt.tokens])) horderly
        (List.forall_mem_cons.mp hquiet).2)
  | inBlock _ ih =>
      intro Γ S n hn hs horderly hquiet
      exact .block (h.statements (Γ := openBlock Γ) (n := n + 1) (by simp [openBlock, hn]) ih hs
        horderly hquiet)
  | @inConsequent condition s s' alternative _ ih =>
      intro Γ S n hn hs horderly hquiet
      cases alternative with
      | none =>
          have horderly : s.plain ∧ s.orderly := by simpa [Stmt.orderly] using horderly
          exact .branch
            (h.keeps.expression hn (hs.mono (by simp [Stmt.sites]) (by simp [Stmt.tokens])))
            (ih hn (hs.mono (by simp [Stmt.sites]) (by simp [Stmt.tokens])) horderly.2
              (quiet_append.mp hquiet).2)
      | some alternative =>
          have horderly : ((s.plain ∧ s.orderly) ∧ alternative.plain) ∧ alternative.orderly := by
            simpa [Stmt.orderly] using horderly
          exact .branches
            (h.keeps.expression hn (hs.mono (by simp [Stmt.sites]) (by simp [Stmt.tokens])))
            (ih hn (hs.mono (by simp [Stmt.sites]) (by simp [Stmt.tokens])) horderly.1.1.2
              (quiet_append.mp (quiet_append.mp hquiet).1).2)
            (h.keeps.statement hn (hs.mono (by simp [Stmt.sites]) (by simp [Stmt.tokens]))
              horderly.2)
  | @inAlternative condition consequent s s' _ ih =>
      intro Γ S n hn hs horderly hquiet
      have horderly : ((consequent.plain ∧ consequent.orderly) ∧ s.plain) ∧ s.orderly := by
        simpa [Stmt.orderly] using horderly
      exact .branches
        (h.keeps.expression hn (hs.mono (by simp [Stmt.sites]) (by simp [Stmt.tokens])))
        (h.keeps.statement hn (hs.mono (by simp [Stmt.sites]) (by simp [Stmt.tokens]))
          horderly.1.1.2)
        (ih hn (hs.mono (by simp [Stmt.sites]) (by simp [Stmt.tokens])) horderly.2
          (quiet_append.mp hquiet).2)
  | @inLoop condition s s' _ ih =>
      intro Γ S n hn hs horderly hquiet
      have horderly : s.plain ∧ s.orderly := by simpa [Stmt.orderly] using horderly
      exact .loop
        (h.keeps.expression hn (hs.mono (by simp [Stmt.sites]) (by simp [Stmt.tokens])))
        (ih hn (hs.mono (by simp [Stmt.sites]) (by simp [Stmt.tokens])) horderly.2
          (quiet_append.mp hquiet).2)
  | @inFunction name params before after s s' _ ih =>
      intro Γ S n hn hs horderly hquiet
      have htitle := h.keeps.title name n (hs.tokens _ (by simp [Stmt.tokens, FunctionDecl.tokens]))
      exact .function htitle (h.body (Γ := introduce name Γ) (by simpa using hn) ih hs horderly
        (List.forall_mem_cons.mp hquiet).2)
  | @inMethod title name methods others params before after s s' _ ih =>
      intro Γ S n hn hs horderly hquiet
      have htitle := h.keeps.title title n (hs.tokens _ (by simp [Stmt.tokens]))
      exact .class_ htitle (h.methods (Γ := openReceiver (introduce title Γ)) (n := n + 1)
        (by simp [openReceiver, hn]) (fun hd horderly hquiet =>
          h.body (n := n + 1) (by simp [openReceiver, hn]) ih hd horderly hquiet)
        (hs.mono (by simp [Stmt.sites]) (by simp [Stmt.tokens])) horderly
        (List.forall_mem_cons.mp hquiet).2)

/-- A program with a new name for a local variable is like the one with the old name. -/
theorem Stmt.RenamesIn.alike (h : L.AllowsRenaming hops old new W)
    {program program' : List (Stmt NodeId)} (hrenames : RenamesIn hops old new program program')
    (hprogram : W.Admits (Stmt.sitesAll [] program) (Stmt.tokensAll program))
    (horderly : Stmt.orderlyAll program)
    (hquiet : Quiet known (Stmt.occurrencesAll .outermost program)) :
    Stmt.AlikeAll L [] program program' := by
  obtain ⟨before, s, s', after, rfl, rfl, hs⟩ := hrenames
  exact h.statements (n := 0) rfl (hs.alike h) hprogram horderly hquiet

end Lox
