import Lox.Proofs.Relabelling.Trees
import Lox.Proofs.Scoping.LexicalScope
import Mathlib.Data.List.Nodup

namespace Lox

open Resolution

variable {α β : Type}

def Mention.relabel (f : NodeId → NodeId) : Mention → Mention
  | .reference node name use => .reference (f node) name use
  | .declaration name => .declaration name
  | .ret keyword hasValue => .ret keyword hasValue

def Occurrence.relabel (f : NodeId → NodeId) (o : Occurrence) : Occurrence :=
  { o with mention := o.mention.relabel f }

theorem Occurrence.violation?_relabel (f : NodeId → NodeId) (known : List String)
    (o : Occurrence) : (o.relabel f).violation? known = o.violation? known := by
  obtain ⟨mention, around⟩ := o
  cases mention <;> rfl

theorem Occurrence.hasDistance_relabel_iff {f : NodeId → NodeId} {o : Occurrence} {node : NodeId}
    {distance : Nat} :
    (o.relabel f).HasDistance node distance ↔
      ∃ n, f n = node ∧ o.HasDistance n distance := by
  obtain ⟨mention, around⟩ := o
  cases mention with
  | reference n name use =>
      simp only [Occurrence.relabel, Mention.relabel, Occurrence.HasDistance,
        Mention.reference.injEq]
      constructor
      · rintro ⟨_, _, ⟨rfl, rfl, rfl⟩, hrest⟩
        exact ⟨n, rfl, _, _, ⟨rfl, rfl, rfl⟩, hrest⟩
      · rintro ⟨_, rfl, _, _, ⟨rfl, rfl, rfl⟩, hrest⟩
        exact ⟨_, _, ⟨rfl, rfl, rfl⟩, hrest⟩
  | declaration | ret =>
      simp [Occurrence.relabel, Mention.relabel, Occurrence.HasDistance]

@[simp] theorem Expr.isSome_relabelOption (f : α → β) (e : Option (Expr α)) :
    (Expr.relabelOption f e).isSome = e.isSome := by
  cases e <;> rfl

theorem Stmt.declared_relabel (f : α → β) : ∀ s : Stmt α, (s.relabel f).declared = s.declared
  | .branch _ consequent none => consequent.declared_relabel f
  | .branch _ consequent (some alternative) => by
      simp only [Stmt.relabel, Stmt.declared, consequent.declared_relabel f,
        alternative.declared_relabel f]
  | .loop _ body => body.declared_relabel f
  | .function declaration => congrArg (fun name => [name]) (declaration.name_relabel f)
  | .expression _ | .print _ | .var _ _ | .block _ | .ret _ _ | .class_ _ _ => rfl

theorem parameterOccurrences_relabel (f : NodeId → NodeId) (S : Surroundings)
    (params : List Token) :
    (parameterOccurrences S params).map (Occurrence.relabel f) = parameterOccurrences S params := by
  induction params generalizing S with
  | nil => rfl
  | cons param params ih =>
      rw [parameterOccurrences, List.map_cons, ih]
      rfl

mutual

theorem Expr.occurrences_relabel (f : NodeId → NodeId) (S : Surroundings) :
    ∀ e : Expr NodeId, (e.relabel f).occurrences S = (e.occurrences S).map (Occurrence.relabel f)
  | .literal _ | .var _ _ | .this _ _ => rfl
  | .grouping inner | .unary _ inner | .get inner _ => inner.occurrences_relabel f S
  | .binary left _ right | .logical left _ right | .set left _ right => by
      simp only [Expr.relabel, Expr.occurrences, List.map_append, left.occurrences_relabel f S,
        right.occurrences_relabel f S]
  | .assign _ _ value => by
      simp only [Expr.relabel, Expr.occurrences, List.map_append, value.occurrences_relabel f S]
      rfl
  | .call callee _ arguments => by
      simp only [Expr.relabel, Expr.occurrences, List.map_append, callee.occurrences_relabel f S,
        Expr.occurrencesAll_relabelAll f S arguments]

theorem Expr.occurrencesAll_relabelAll (f : NodeId → NodeId) (S : Surroundings) :
    ∀ es : List (Expr NodeId),
      Expr.occurrencesAll S (Expr.relabelAll f es) =
        (Expr.occurrencesAll S es).map (Occurrence.relabel f)
  | [] => rfl
  | e :: es => by
      simp only [Expr.relabelAll, Expr.occurrencesAll, List.map_append, e.occurrences_relabel f S,
        Expr.occurrencesAll_relabelAll f S es]

end

theorem Expr.occurrencesOption_relabelOption (f : NodeId → NodeId) (S : Surroundings)
    (e : Option (Expr NodeId)) :
    Expr.occurrencesOption S (Expr.relabelOption f e) =
      (Expr.occurrencesOption S e).map (Occurrence.relabel f) := by
  cases e with
  | none => rfl
  | some e => exact e.occurrences_relabel f S

mutual

theorem Stmt.occurrences_relabel (f : NodeId → NodeId) (S : Surroundings) :
    ∀ s : Stmt NodeId, (s.relabel f).occurrences S = (s.occurrences S).map (Occurrence.relabel f)
  | .expression e | .print e => e.occurrences_relabel f S
  | .var name initial => by
      simp only [Stmt.relabel, Stmt.occurrences, List.map_cons,
        Expr.occurrencesOption_relabelOption f _ initial]
      rfl
  | .block body => Stmt.occurrencesAll_relabelAll f S.inBlock body
  | .branch condition consequent none => by
      simp only [Stmt.relabel, Stmt.occurrences, List.map_append,
        condition.occurrences_relabel f S, consequent.occurrences_relabel f S]
  | .branch condition consequent (some alternative) => by
      simp only [Stmt.relabel, Stmt.occurrences, List.map_append,
        condition.occurrences_relabel f S, consequent.occurrences_relabel f S,
        consequent.declared_relabel f, alternative.occurrences_relabel f _]
  | .loop condition body => by
      simp only [Stmt.relabel, Stmt.occurrences, List.map_append,
        condition.occurrences_relabel f S, body.occurrences_relabel f S]
  | .function declaration => by
      simp only [Stmt.relabel, Stmt.occurrences, List.map_cons, declaration.name_relabel f,
        declaration.occurrences_relabel f .function _]
      rfl
  | .ret keyword value => by
      simp only [Stmt.relabel, Stmt.occurrences, List.map_cons, Expr.isSome_relabelOption,
        Expr.occurrencesOption_relabelOption f S value]
      rfl
  | .class_ name methods => by
      simp only [Stmt.relabel, Stmt.occurrences, List.map_cons,
        FunctionDecl.occurrencesAll_relabelAll f _ methods]
      rfl

theorem Stmt.occurrencesAll_relabelAll (f : NodeId → NodeId) (S : Surroundings) :
    ∀ ss : List (Stmt NodeId),
      Stmt.occurrencesAll S (Stmt.relabelAll f ss) =
        (Stmt.occurrencesAll S ss).map (Occurrence.relabel f)
  | [] => rfl
  | s :: ss => by
      simp only [Stmt.relabelAll, Stmt.occurrencesAll, List.map_append, s.occurrences_relabel f S,
        s.declared_relabel f, Stmt.occurrencesAll_relabelAll f _ ss]

theorem FunctionDecl.occurrences_relabel (f : NodeId → NodeId) (role : Role) (S : Surroundings) :
    ∀ d : FunctionDecl NodeId,
      (d.relabel f).occurrences role S = (d.occurrences role S).map (Occurrence.relabel f)
  | ⟨_, params, body⟩ => by
      simp only [FunctionDecl.relabel, FunctionDecl.occurrences, List.map_append,
        parameterOccurrences_relabel, Stmt.occurrencesAll_relabelAll f _ body]

theorem FunctionDecl.occurrencesAll_relabelAll (f : NodeId → NodeId) (S : Surroundings) :
    ∀ ds : List (FunctionDecl NodeId),
      FunctionDecl.occurrencesAll S (FunctionDecl.relabelAll f ds) =
        (FunctionDecl.occurrencesAll S ds).map (Occurrence.relabel f)
  | [] => rfl
  | d :: ds => by
      simp only [FunctionDecl.relabelAll, FunctionDecl.occurrencesAll, List.map_append,
        d.name_relabel f, d.occurrences_relabel f _ S,
        FunctionDecl.occurrencesAll_relabelAll f S ds]

end

namespace Resolution

variable {f : NodeId → NodeId} {globals : List String} {program : List (Stmt NodeId)}

theorem reports_relabel (f : NodeId → NodeId) (globals : List String)
    (program : List (Stmt NodeId)) :
    (resolve globals (Stmt.relabelAll f program)).reports = (resolve globals program).reports := by
  rw [reports_resolve, reports_resolve, Stmt.occurrencesAll_relabelAll, List.filterMap_map]
  exact List.filterMap_congr fun o _ => o.violation?_relabel f globals

theorem mem_labels_of_hops {node : NodeId} {distance : Nat}
    (h : (resolve globals program).hops[node]? = some distance) :
    node ∈ (Stmt.referencesAll program).map Reference.label := by
  obtain ⟨hperm, hlatest, -, -⟩ := hops_resolve_iff_hasDistance globals program
  obtain ⟨o, ho, hdistance⟩ := ((hlatest node distance).mp h).exists
  obtain ⟨r, hr, rfl⟩ := hdistance.mem_references
  exact List.mem_map_of_mem (hperm.mem_iff.mp (List.mem_filterMap.mpr ⟨o, ho, hr⟩))

/-- If neither program has a label twice, the tables have the same under corresponding labels. -/
theorem hops_relabel (hnodup : ((Stmt.referencesAll program).map Reference.label).Nodup)
    (hnodup' : (((Stmt.referencesAll program).map Reference.label).map f).Nodup) {node : NodeId}
    (hnode : node ∈ (Stmt.referencesAll program).map Reference.label) :
    (resolve globals (Stmt.relabelAll f program)).hops[f node]? =
      (resolve globals program).hops[node]? := by
  obtain ⟨-, -, hdistances, -⟩ := hops_resolve_iff_hasDistance globals program
  obtain ⟨-, -, hdistances', -⟩ :=
    hops_resolve_iff_hasDistance globals (Stmt.relabelAll f program)
  have hlabels : (Stmt.referencesAll (Stmt.relabelAll f program)).map Reference.label =
      ((Stmt.referencesAll program).map Reference.label).map f := by
    rw [Stmt.referencesAll_relabelAll, map_label_relabel, List.map_map]
    rfl
  refine Option.ext fun distance => ?_
  rw [hdistances hnodup, hdistances' (hlabels ▸ hnodup'), Stmt.occurrencesAll_relabelAll]
  constructor
  · rintro ⟨_, hrelabelled, hdistance⟩
    obtain ⟨o, ho, rfl⟩ := List.mem_map.mp hrelabelled
    obtain ⟨n, hn, hdistance⟩ := Occurrence.hasDistance_relabel_iff.mp hdistance
    have hmem := mem_labels_of_hops ((hdistances hnodup n distance).mpr ⟨o, ho, hdistance⟩)
    rw [List.inj_on_of_nodup_map hnodup' hmem hnode hn] at hdistance
    exact ⟨o, ho, hdistance⟩
  · rintro ⟨o, ho, hdistance⟩
    exact ⟨_, List.mem_map_of_mem ho,
      Occurrence.hasDistance_relabel_iff.mpr ⟨node, rfl, hdistance⟩⟩

end Resolution

end Lox
