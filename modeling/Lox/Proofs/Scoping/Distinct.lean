import Lox.Proofs.Scoping.LexicalScope
import Mathlib.Data.List.Nodup
import Mathlib.Data.List.Pairwise

namespace Lox

open Resolution

/-- None of the occurrences is at fault. -/
def Quiet (known : List String) (occurrences : List Occurrence) : Prop :=
  ∀ o ∈ occurrences, o.violation? known = none

theorem quiet_append {known : List String} {before after : List Occurrence} :
    Quiet known (before ++ after) ↔ Quiet known before ∧ Quiet known after :=
  List.forall_mem_append

theorem quiet_of_resolve {globals : List String} {program : List (Stmt NodeId)}
    (h : (resolve globals program).reports = []) :
    Quiet globals (Stmt.occurrencesAll .outermost program) := by
  rw [reports_resolve, List.filterMap_eq_nil_iff] at h
  exact h

/-- The names are different, and the innermost frame has none of them. -/
structure Surroundings.Lacks (S : Surroundings) (names : List Token) : Prop where
  new : ∀ frame ∈ S.frames.head?, ∀ d ∈ frame, ∀ t ∈ names, d.name ≠ t.lexeme
  nodup : (names.map Token.lexeme).Nodup

namespace Surroundings

variable {S : Surroundings} {frame : List Declaration} {outer : List (List Declaration)}
  {names more : List Token} {known : List String}

theorem frames_declareAll (h : S.frames = frame :: outer) (names : List Token) :
    (S.declareAll names).frames =
      ((names.map fun t => (⟨t.lexeme, false⟩ : Declaration)).reverse ++ frame) :: outer := by
  induction names generalizing S frame with
  | nil => exact h
  | cons t names ih =>
      have hdeclared : (S.declare t false).frames = (⟨t.lexeme, false⟩ :: frame) :: outer := by
        unfold Surroundings.declare
        rw [h]
      have hall := ih hdeclared
      rw [List.map_cons, List.reverse_cons, List.append_assoc]
      exact hall

theorem lacks_nil : S.Lacks [] := ⟨by simp, .nil⟩

theorem Lacks.append (hframes : S.frames = frame :: outer) (h : S.Lacks names)
    (hmore : (S.declareAll names).Lacks more) : S.Lacks (names ++ more) := by
  have hdeclared := hmore.new _ (by rw [frames_declareAll hframes]; rfl)
  refine ⟨fun frame' hframe' d hd t ht => ?_, ?_⟩
  · rw [hframes] at hframe'
    cases hframe'
    rcases List.mem_append.mp ht with ht | ht
    · exact h.new frame (by rw [hframes]; rfl) d hd t ht
    · exact hdeclared d (List.mem_append_right _ hd) t ht
  · rw [List.map_append, List.nodup_append]
    refine ⟨h.nodup, hmore.nodup, ?_⟩
    rintro _ hname _ hother rfl
    obtain ⟨t, ht, hlexeme⟩ := List.mem_map.mp hname
    obtain ⟨t', ht', hlexeme'⟩ := List.mem_map.mp hother
    have hmem : (⟨t.lexeme, false⟩ : Declaration) ∈
        (names.map fun t => (⟨t.lexeme, false⟩ : Declaration)).reverse ++ frame :=
      List.mem_append_left _ (List.mem_reverse.mpr (List.mem_map_of_mem ht))
    exact hdeclared _ hmem t' ht' (hlexeme.trans hlexeme'.symm)

theorem lacks_of_quiet {name : Token}
    (h : Occurrence.violation? known ⟨.declaration name, S⟩ = none) : S.Lacks [name] := by
  refine ⟨fun frame hframe d hd t ht heq => ?_, by simp⟩
  rw [List.mem_singleton.mp ht] at heq
  simp only [Occurrence.violation?] at h
  rw [if_pos ⟨frame, hframe, d, hd, heq⟩] at h
  cases h

theorem lacks_of_parameters (hframes : S.frames = frame :: outer)
    (h : Quiet known (parameterOccurrences S names)) : S.Lacks names := by
  induction names generalizing S frame with
  | nil => exact lacks_nil
  | cons param names ih =>
      obtain ⟨hparam, hnames⟩ := List.forall_mem_cons.mp h
      have hdeclared :
          (S.declare param false).frames = (⟨param.lexeme, false⟩ :: frame) :: outer := by
        unfold Surroundings.declare
        rw [hframes]
      exact (lacks_of_quiet hparam).append hframes (ih hdeclared hnames)

end Surroundings

variable {known : List String} {S : Surroundings} {frame : List Declaration}
  {outer : List (List Declaration)}

theorem Stmt.declared_of_plain :
    ∀ s : Stmt NodeId, s.plain → s.orderly → s.declared = []
  | .branch _ consequent none, _, horderly => by
      have hconsequent : consequent.plain ∧ consequent.orderly := by
        simpa [Stmt.orderly] using horderly
      exact Stmt.declared_of_plain consequent hconsequent.1 hconsequent.2
  | .branch _ consequent (some alternative), _, horderly => by
      have hboth : ((consequent.plain ∧ consequent.orderly) ∧ alternative.plain) ∧
          alternative.orderly := by
        simpa [Stmt.orderly] using horderly
      rw [Stmt.declared, Stmt.declared_of_plain consequent hboth.1.1.1 hboth.1.1.2,
        Stmt.declared_of_plain alternative hboth.1.2 hboth.2]
      rfl
  | .loop _ body, _, horderly => by
      have hbody : body.plain ∧ body.orderly := by simpa [Stmt.orderly] using horderly
      exact Stmt.declared_of_plain body hbody.1 hbody.2
  | .expression _, _, _ | .print _, _, _ | .block _, _, _ | .ret _ _, _, _ => rfl

theorem Surroundings.lacks_of_statement {s : Stmt NodeId} (horderly : s.orderly)
    (h : Quiet known (s.occurrences S)) : S.Lacks s.declared := by
  by_cases hplain : s.plain
  · rw [s.declared_of_plain hplain horderly]
    exact Surroundings.lacks_nil
  · cases s with
    | var name _ | class_ name _ => exact lacks_of_quiet (List.forall_mem_cons.mp h).1
    | function declaration => exact lacks_of_quiet (List.forall_mem_cons.mp h).1
    | _ => exact absurd rfl hplain

/-- The statements of a frame declare different names, none of which it has before. -/
theorem Surroundings.lacks_of_statements {ss : List (Stmt NodeId)}
    (hframes : S.frames = frame :: outer) (horderly : Stmt.orderlyAll ss)
    (h : Quiet known (Stmt.occurrencesAll S ss)) :
    S.Lacks (ss.flatMap Stmt.declared) := by
  induction ss generalizing S frame with
  | nil => exact Surroundings.lacks_nil
  | cons s ss ih =>
      have horderly : s.orderly ∧ Stmt.orderlyAll ss := by simpa [Stmt.orderlyAll] using horderly
      obtain ⟨hs, hss⟩ := quiet_append.mp h
      exact (lacks_of_statement horderly.1 hs).append hframes
        (ih (frames_declareAll hframes s.declared) horderly.2 hss)

theorem Surroundings.Lacks.eq_of_declared {ss : List (Stmt NodeId)}
    (h : S.Lacks (ss.flatMap Stmt.declared)) {s s' : Stmt NodeId} (hs : s ∈ ss) (hs' : s' ∈ ss)
    {t t' : Token} (ht : t ∈ s.declared) (ht' : t' ∈ s'.declared) (heq : t.lexeme = t'.lexeme) :
    s = s' := by
  have hnodup := h.nodup
  rw [List.map_flatMap, List.nodup_flatMap] at hnodup
  by_contra hne
  have : Std.Symm (Function.onFun List.Disjoint fun s : Stmt NodeId =>
      s.declared.map Token.lexeme) := ⟨fun _ _ h => List.disjoint_symm h⟩
  exact hnodup.2.forall hs hs' hne (List.mem_map_of_mem ht) (heq ▸ List.mem_map_of_mem ht')

end Lox
