import Lox.Proofs.Scoping.Frames
import Lox.Proofs.Scoping.Surroundings
import Lox.Proofs.Scoping.Table
import Mathlib.Data.List.Forall2
import Mathlib.Data.List.Induction
import Mathlib.Tactic.Tauto

/-!
The resolver computes the rules of scopes.

A walk keeps its frames as the text has them, with the declarations before the place where it
stands. What it adds to its table is then the distance of each reference in turn, and what it
reports is the fault of each occurrence.
-/

namespace Lox

open Resolution

/-- What an occurrence adds to the table. -/
def Occurrence.entry? (o : Occurrence) : Option (NodeId × Nat) :=
  match o.mention with
  | .reference node name use =>
      if use = .receiver ∧ ¬o.around.inClass then none
      else (o.around.frames.findIdx? (binds name.lexeme (use ≠ .write))).map (Prod.mk node)
  | _ => none

theorem findIdx?_eq_some_iff_isLeast {α : Type} {p : α → Bool} {xs : List α} {i : Nat} :
    xs.findIdx? p = some i ↔ IsLeast {j | ∃ x, xs[j]? = some x ∧ p x} i := by
  rw [List.findIdx?_eq_some_iff_getElem]
  constructor
  · rintro ⟨hi, hp, hbefore⟩
    refine ⟨⟨xs[i], List.getElem?_eq_getElem hi, hp⟩, ?_⟩
    rintro j ⟨x, hx, hpx⟩
    by_contra hlt
    obtain ⟨hj, rfl⟩ := List.getElem?_eq_some_iff.mp hx
    exact hbefore j (by omega) hpx
  · rintro ⟨⟨x, hx, hp⟩, hleast⟩
    obtain ⟨hi, rfl⟩ := List.getElem?_eq_some_iff.mp hx
    refine ⟨hi, hp, fun j hj hpj => ?_⟩
    have hle : i ≤ j := hleast ⟨xs[j], List.getElem?_eq_getElem (by omega), hpj⟩
    omega

theorem Occurrence.entry?_eq_some {o : Occurrence} {node : NodeId} {distance : Nat} :
    o.entry? = some (node, distance) ↔ o.HasDistance node distance := by
  obtain ⟨mention, S⟩ := o
  constructor
  · intro h
    cases mention with
    | reference n name use =>
        simp only [Occurrence.entry?] at h
        split at h
        · cases h
        · rename_i hplace
          obtain ⟨d, hd, heq⟩ := Option.map_eq_some_iff.mp h
          cases heq
          refine ⟨name, use, rfl, fun huse => ?_, findIdx?_eq_some_iff_isLeast.mp hd⟩
          by_contra hclass
          exact hplace ⟨huse, hclass⟩
    | declaration name => cases h
    | ret keyword hasValue => cases h
  · rintro ⟨name, use, hmention, hclass, hleast⟩
    dsimp only at hmention
    subst hmention
    have hplace : ¬(use = .receiver ∧ ¬S.inClass) := fun h => h.2 (hclass h.1)
    simp only [Occurrence.entry?]
    rw [if_neg hplace, findIdx?_eq_some_iff_isLeast.mpr hleast]
    rfl

/-- The walk stands where the text has the given surroundings. -/
structure Resolution.Walk.Stands (known : List String) (w : Walk) (S : Surroundings) : Prop where
  frames : List.Forall₂ FrameHolds w.frames S.frames
  globals : ∀ name, name ∈ w.globals ↔ name ∈ known ∨ name ∈ S.globals

/-- One part of a walk takes the given occurrences into account, and leads to the given
surroundings. -/
structure Resolution.Walk.Follows (known : List String) (w w' : Walk)
    (occurrences : List Occurrence) (S : Surroundings) : Prop where
  stands : w'.Stands known S
  hops : w'.hops = (occurrences.filterMap Occurrence.entry?).foldl
    (fun (all : Hops) entry => all.insert entry.1 entry.2) w.hops
  reports : w'.reports.toList =
    w.reports.toList ++ occurrences.filterMap (Occurrence.violation? known)

namespace Resolution.Walk

variable {known : List String} {w w' w'' : Walk} {S S' S'' : Surroundings}
  {before after : List Occurrence}

theorem Follows.refl (h : w.Stands known S) : w.Follows known w [] S :=
  ⟨h, rfl, by simp⟩

theorem Follows.trans (h : w.Follows known w' before S) (h' : w'.Follows known w'' after S') :
    w.Follows known w'' (before ++ after) S' := by
  refine ⟨h'.stands, ?_, ?_⟩
  · rw [h'.hops, h.hops, List.filterMap_append, List.foldl_append]
  · rw [h'.reports, h.reports, List.filterMap_append, List.append_assoc]

theorem Follows.of_violation {o : Occurrence} (h : w'.Stands known S)
    (hhops : w'.hops = w.hops) (hentry : o.entry? = none)
    (hreports : w'.reports.toList = w.reports.toList ++ (o.violation? known).toList) :
    w.Follows known w' [o] S := by
  refine ⟨h, ?_, ?_⟩
  · rw [List.filterMap_cons_none hentry]
    exact hhops
  · rw [hreports]
    cases hfault : o.violation? known with
    | none => rw [List.filterMap_cons_none hfault]; rfl
    | some fault => rw [List.filterMap_cons_some hfault]; rfl

end Resolution.Walk

open Resolution.Walk

variable {known : List String} {w : Walk} {S : Surroundings}

/-- A reading that no frame binds is a fault where it passed over its own variable and no global
has the name either. -/
theorem Occurrence.violation?_unbound (hS : S.Reads) (known : List String) (node : NodeId)
    {name : Token} {use : Use}
    (hclass : use = .receiver → S.inClass)
    (hunbound : ∀ frame ∈ S.frames, binds name.lexeme (use ≠ .write) frame = false) :
    Occurrence.violation? known ⟨.reference node name use, S⟩ =
      if use ≠ .write ∧ S.initializing? = some name.lexeme ∧ name.lexeme ∉ known ∧
          name.lexeme ∉ S.globals then
        some (.resolution name .readInOwnInitializer)
      else none := by
  have hplace : ¬(use = .receiver ∧ ¬S.inClass) := fun h => h.2 (hclass h.1)
  have hreads : use.readsVariable name.lexeme = true ↔ use ≠ .write := by
    cases use with
    | read => simp [Use.readsVariable]
    | write => simp [Use.readsVariable]
    | receiver =>
        have hname : name.lexeme ≠ thisName := by
          intro heq
          obtain ⟨frame, hframe, hbinds⟩ := hS.binds_receiver (hclass rfl)
          have := hunbound frame hframe
          simp [heq, hbinds] at this
        simp [Use.readsVariable, hname]
  simp only [Occurrence.violation?, if_neg hplace, hreads]
  congr 1
  refine propext ⟨fun ⟨huse, hinitial, _, hglobals⟩ => ⟨huse, hinitial, hglobals⟩,
    fun ⟨huse, hinitial, hglobals⟩ => ⟨huse, hinitial, fun frame hframe => ?_, hglobals⟩⟩
  have := hunbound frame hframe
  simpa [huse] using this

theorem Occurrence.violation?_bound {node : NodeId} {name : Token} {use : Use}
    (hclass : use = .receiver → S.inClass) {frame : List Declaration} (hframe : frame ∈ S.frames)
    (hbinds : binds name.lexeme (use ≠ .write) frame) :
    Occurrence.violation? known ⟨.reference node name use, S⟩ = none := by
  have hplace : ¬(use = .receiver ∧ ¬S.inClass) := fun h => h.2 (hclass h.1)
  simp only [Occurrence.violation?, if_neg hplace]
  refine if_neg fun ⟨hreads, _, hunbound, _⟩ => hunbound frame hframe ?_
  have huse : use ≠ .write := by
    rintro rfl
    simp [Use.readsVariable] at hreads
  simpa [huse] using hbinds

theorem Resolution.Walk.refer_follows (hS : S.Reads) (h : w.Stands known S) (node : NodeId)
    (name : Token) (use : Use) (hclass : use = .receiver → S.inClass) :
    w.Follows known (w.refer node name (use ≠ .write)) [⟨.reference node name use, S⟩] S := by
  have hplace : ¬(use = .receiver ∧ ¬S.inClass) := fun h => h.2 (hclass h.1)
  have hentry : Occurrence.entry? ⟨.reference node name use, S⟩ =
      (S.frames.findIdx? (binds name.lexeme (use ≠ .write))).map (Prod.mk node) := if_neg hplace
  unfold Walk.refer
  rw [find_eq h.frames]
  cases hfind : S.frames.findIdx? (binds name.lexeme (use ≠ .write)) with
  | some distance =>
      obtain ⟨hlt, hbinds, -⟩ := List.findIdx?_eq_some_iff_getElem.mp hfind
      rw [hfind] at hentry
      refine ⟨⟨h.frames, h.globals⟩, ?_, ?_⟩
      · rw [List.filterMap_cons_some hentry]
        simp only [Nat.zero_add]
        rfl
      · rw [List.filterMap_cons_none
          (Occurrence.violation?_bound hclass (List.getElem_mem hlt) hbinds)]
        simp
  | none =>
      rw [hfind] at hentry
      have hunbound := List.findIdx?_eq_none_iff.mp hfind
      have hfault := Occurrence.violation?_unbound hS known node hclass hunbound
      have hcondition : ((false || S.frames.any fun frame => (latest? name.lexeme frame).any
          fun d => decide (use ≠ .write) && d.unfinished) &&
            !w.globals.contains name.lexeme) = true ↔
          use ≠ .write ∧ S.initializing? = some name.lexeme ∧ name.lexeme ∉ known ∧
            name.lexeme ∉ S.globals := by
        by_cases huse : use = .write
        · simp [huse]
        · have hglobals := h.globals name.lexeme
          rw [← hS.passes_iff]
          simp [huse, hglobals]
      dsimp only
      by_cases hviolates : use ≠ .write ∧ S.initializing? = some name.lexeme ∧
          name.lexeme ∉ known ∧ name.lexeme ∉ S.globals
      · rw [if_pos hviolates] at hfault
        rw [if_pos (hcondition.mpr hviolates)]
        exact .of_violation ⟨h.frames, h.globals⟩ rfl hentry (by rw [hfault]; simp [Walk.report])
      · rw [if_neg hviolates] at hfault
        rw [if_neg (mt hcondition.mp hviolates)]
        exact .of_violation h rfl hentry (by rw [hfault]; simp)

theorem Resolution.Walk.declare_follows (h : w.Stands known S) (name : Token) :
    w.Follows known (w.declare name) [⟨.declaration name, S⟩] (S.declare name true) := by
  obtain ⟨frames, globals, hops, reports⟩ := w
  obtain ⟨declared, seen, role, inClass⟩ := S
  obtain ⟨hframes, hglobals⟩ := h
  dsimp only at hframes hglobals
  cases hframes with
  | nil =>
      refine .of_violation ⟨.nil, fun other => ?_⟩ rfl rfl ?_
      · simp only [Surroundings.declare, Walk.declare, List.mem_cons, hglobals]
        tauto
      · simp [Walk.declare, Occurrence.violation?]
  | @cons F frame frames outer hF houter =>
      have hstands : List.Forall₂ FrameHolds (F.insert name.lexeme false :: frames)
          ((⟨name.lexeme, true⟩ :: frame) :: outer) := .cons (hF.insert name.lexeme false) houter
      have hagain : (F.find? name.lexeme).isSome ↔ ∃ d ∈ frame, d.name = name.lexeme := by
        rw [hF, Option.isSome_map, latest?_isSome]
      by_cases hdeclared : (F.find? name.lexeme).isSome
      · have hfault : Occurrence.violation? known
            ⟨.declaration name, ⟨frame :: outer, seen, role, inClass⟩⟩ =
              some (.resolution name .alreadyDeclared) := by
          simpa [Occurrence.violation?] using hagain.mp hdeclared
        simp only [Walk.declare, if_pos hdeclared]
        exact .of_violation ⟨hstands, hglobals⟩ rfl rfl (by rw [hfault]; simp [Walk.report])
      · have hfault : Occurrence.violation? known
            ⟨.declaration name, ⟨frame :: outer, seen, role, inClass⟩⟩ = none := by
          simpa [Occurrence.violation?] using mt hagain.mpr hdeclared
        simp only [Walk.declare, if_neg hdeclared]
        exact .of_violation ⟨hstands, hglobals⟩ rfl rfl (by rw [hfault]; simp)

theorem Resolution.Walk.define_follows {name : Token} (h : w.Stands known (S.declare name true)) :
    w.Follows known (w.define name) [] (S.declare name false) := by
  obtain ⟨frames, globals, hops, reports⟩ := w
  obtain ⟨declared, seen, role, inClass⟩ := S
  obtain ⟨hframes, hglobals⟩ := h
  cases declared with
  | nil =>
      cases hframes
      exact .refl ⟨.nil, hglobals⟩
  | cons frame outer =>
      cases hframes with
      | cons hF houter => exact ⟨⟨.cons hF.finish houter, hglobals⟩, rfl, by simp [Walk.define]⟩

theorem Resolution.Walk.introduce_follows (h : w.Stands known S) (name : Token) :
    w.Follows known ((w.declare name).define name) [⟨.declaration name, S⟩]
      (S.declare name false) :=
  have hdeclare := Walk.declare_follows h name
  hdeclare.trans (Walk.define_follows hdeclare.stands)

theorem Resolution.params_follows (params : List Token) (h : w.Stands known S) :
    w.Follows known (params.foldl (fun w param => (w.declare param).define param) w)
      (parameterOccurrences S params) (S.declareAll params) := by
  induction params generalizing w S with
  | nil => exact .refl h
  | cons param params ih =>
      have hparam := Walk.introduce_follows h param
      exact hparam.trans (ih hparam.stands)

/-- Of a part in a frame of its own nothing stays but its entries and its reports. -/
theorem Resolution.Walk.within_follows (inside : Surroundings) (names : List Token) {F : Frame}
    {frame : List Declaration} {occurrences : List Occurrence} {inner : Walk → Walk}
    (h : w.Stands known S) (hF : FrameHolds F frame)
    (hframes : inside.frames = frame :: S.frames) (hglobals : inside.globals = S.globals)
    (hinner : ∀ w : Walk, w.Stands known inside →
      w.Follows known (inner w) occurrences (inside.declareAll names)) :
    w.Follows known (w.within F inner) occurrences S := by
  have hstands : Walk.Stands known { w with frames := F :: w.frames } inside := by
    refine ⟨?_, by simpa only [hglobals] using h.globals⟩
    rw [hframes]
    exact .cons hF h.frames
  obtain ⟨hafter, hhops, hreports⟩ := hinner _ hstands
  refine ⟨⟨?_, ?_⟩, hhops, hreports⟩
  · have htail : (inside.declareAll names).frames.tail = S.frames := by
      rw [Surroundings.tail_declareAll, hframes, List.tail_cons]
    rw [← htail]
    have hdrop := List.forall₂_drop 1 hafter.frames
    rwa [List.drop_one, List.drop_one] at hdrop
  · have hsame : (inside.declareAll names).globals = S.globals :=
      (Surroundings.globals_declareAll names (by simp [hframes])).trans hglobals
    rw [← hsame]
    exact hafter.globals

mutual

theorem Resolution.resolveExpr_follows {w : Walk} {S : Surroundings} (hS : S.Reads)
    (h : w.Stands known S) :
    ∀ e : Expr NodeId, w.Follows known (resolveExpr S.context e w) (e.occurrences S) S
  | .literal _ => .refl h
  | .grouping inner => resolveExpr_follows hS h inner
  | .unary _ operand => resolveExpr_follows hS h operand
  | .binary left _ right | .logical left _ right =>
      have hleft := resolveExpr_follows hS h left
      hleft.trans (resolveExpr_follows hS hleft.stands right)
  | .var node name => Walk.refer_follows hS h node name .read (by simp)
  | .assign node name value =>
      have hvalue := resolveExpr_follows hS h value
      hvalue.trans (Walk.refer_follows hS hvalue.stands node name .write (by simp))
  | .call callee _ arguments =>
      have hcallee := resolveExpr_follows hS h callee
      hcallee.trans (resolveExprs_follows hS hcallee.stands arguments)
  | .get object _ => resolveExpr_follows hS h object
  | .set object _ value =>
      have hvalue := resolveExpr_follows hS h value
      hvalue.trans (resolveExpr_follows hS hvalue.stands object)
  | .this node keyword => by
      rw [resolveExpr]
      by_cases hclass : S.context.inClass
      · rw [if_pos hclass]
        exact Walk.refer_follows hS h node keyword .receiver fun _ => hclass
      · have hplace : Use.receiver = .receiver ∧ ¬S.inClass := ⟨rfl, hclass⟩
        have hfault : Occurrence.violation? known ⟨.reference node keyword .receiver, S⟩ =
            some (.resolution keyword .thisOutsideClass) := if_pos hplace
        rw [if_neg hclass]
        exact .of_violation ⟨h.frames, h.globals⟩ rfl (if_pos hplace)
          (by rw [hfault]; simp [Walk.report])

theorem Resolution.resolveExprs_follows {w : Walk} {S : Surroundings} (hS : S.Reads)
    (h : w.Stands known S) :
    ∀ es : List (Expr NodeId),
      w.Follows known (resolveExprs S.context es w) (Expr.occurrencesAll S es) S
  | [] => .refl h
  | e :: es =>
      have he := resolveExpr_follows hS h e
      he.trans (resolveExprs_follows hS he.stands es)

end

theorem Resolution.resolveOption_follows (hS : S.Reads) (h : w.Stands known S)
    (e : Option (Expr NodeId)) :
    w.Follows known (resolveOption S.context e w) (Expr.occurrencesOption S e) S := by
  cases e with
  | none => exact .refl h
  | some e => exact resolveExpr_follows hS h e

theorem Resolution.checkReturn_follows (h : w.Stands known S) (keyword : Token)
    (hasValue : Bool) :
    w.Follows known (checkReturn S.context keyword hasValue w) [⟨.ret keyword hasValue, S⟩] S := by
  have hreport : ∀ fault : ResolutionFault,
      Occurrence.violation? known ⟨.ret keyword hasValue, S⟩ = some (.resolution keyword fault) →
        w.Follows known (w.report keyword fault) [⟨.ret keyword hasValue, S⟩] S := by
    intro fault hfault
    exact .of_violation ⟨h.frames, h.globals⟩ rfl rfl (by rw [hfault]; simp [Walk.report])
  have hnone : Occurrence.violation? known ⟨.ret keyword hasValue, S⟩ = none →
      w.Follows known w [⟨.ret keyword hasValue, S⟩] S :=
    fun hfault => .of_violation h rfl rfl (by rw [hfault]; simp)
  unfold checkReturn Surroundings.context
  dsimp only
  cases hrole : S.role with
  | none => exact hreport _ (by simp [Occurrence.violation?, hrole])
  | some role =>
      cases role with
      | initializer =>
          cases hasValue with
          | true => exact hreport _ (by simp [Occurrence.violation?, hrole])
          | false => exact hnone (by simp [Occurrence.violation?, hrole])
      | function => exact hnone (by simp [Occurrence.violation?, hrole])
      | method => exact hnone (by simp [Occurrence.violation?, hrole])

mutual

theorem Resolution.resolveStmt_follows {w : Walk} {S : Surroundings} (hS : S.Settled)
    (h : w.Stands known S) :
    ∀ s : Stmt NodeId,
      w.Follows known (resolveStmt S.context s w) (s.occurrences S) (S.declareAll s.declared)
  | .expression e | .print e => resolveExpr_follows hS.reads h e
  | .var name initial => by
      have hdeclare := Walk.declare_follows h name
      have hinitial := resolveOption_follows (hS.initial name) hdeclare.stands initial
      rw [Surroundings.context_declare] at hinitial
      have hvar := (hdeclare.trans hinitial).trans (Walk.define_follows hinitial.stands)
      rw [List.append_nil] at hvar
      exact hvar
  | .block body =>
      Walk.within_follows S.inBlock (body.flatMap Stmt.declared) h .empty rfl rfl
        fun _ hw => resolveStmts_follows hS.hosts.inBlock hw body
  | .branch condition consequent none =>
      have hcondition := resolveExpr_follows hS.reads h condition
      hcondition.trans (resolveStmt_follows hS hcondition.stands consequent)
  | .branch condition consequent (some alternative) => by
      have hcondition := resolveExpr_follows hS.reads h condition
      have hconsequent := resolveStmt_follows hS hcondition.stands consequent
      have halternative := resolveStmt_follows (hS.declareAll consequent.declared)
        hconsequent.stands alternative
      rw [Surroundings.context_declareAll, ← Surroundings.declareAll_append] at halternative
      exact (hcondition.trans hconsequent).trans halternative
  | .loop condition body =>
      have hcondition := resolveExpr_follows hS.reads h condition
      hcondition.trans (resolveStmt_follows hS hcondition.stands body)
  | .function declaration => by
      have hname := Walk.introduce_follows h declaration.name
      have hbody := resolveFunction_follows (hS.declare declaration.name).hosts hname.stands
        .function declaration
      rw [Surroundings.context_declare] at hbody
      exact hname.trans hbody
  | .ret keyword value =>
      have hcheck := checkReturn_follows h keyword value.isSome
      hcheck.trans (resolveOption_follows hS.reads hcheck.stands value)
  | .class_ name methods => by
      have hname := Walk.introduce_follows h name
      have hclass := (hS.declare name).inClassBody
      have hcontext : (S.declare name false).inClassBody.context =
          { S.context with inClass := true } := by
        rw [← Surroundings.context_declare S name false]
        rfl
      have hmethods := Walk.within_follows (S.declare name false).inClassBody [] hname.stands
        .receiver rfl rfl fun _ hw => resolveMethods_follows hclass hw methods
      rw [hcontext] at hmethods
      exact hname.trans hmethods

theorem Resolution.resolveStmts_follows {w : Walk} {S : Surroundings} (hS : S.Settled)
    (h : w.Stands known S) :
    ∀ ss : List (Stmt NodeId),
      w.Follows known (resolveStmts S.context ss w) (Stmt.occurrencesAll S ss)
        (S.declareAll (ss.flatMap Stmt.declared))
  | [] => .refl h
  | s :: ss => by
      have hs := resolveStmt_follows hS h s
      have hss := resolveStmts_follows (hS.declareAll s.declared) hs.stands ss
      rw [Surroundings.context_declareAll, ← Surroundings.declareAll_append] at hss
      exact hs.trans hss

theorem Resolution.resolveFunction_follows {w : Walk} {S : Surroundings} (hS : S.Hosts)
    (h : w.Stands known S) (role : Role) :
    ∀ d : FunctionDecl NodeId,
      w.Follows known (resolveFunction S.context role d w) (d.occurrences role S) S
  | ⟨_, params, body⟩ => by
      rw [resolveFunction, FunctionDecl.occurrences]
      refine Walk.within_follows (S.inFunction role) (params ++ body.flatMap Stmt.declared) h
        .empty rfl rfl fun w hw => ?_
      have hparams := params_follows params hw
      have hbody := resolveStmts_follows ((hS.inFunction role).declareAll params)
        hparams.stands body
      rw [Surroundings.context_declareAll, ← Surroundings.declareAll_append] at hbody
      exact hparams.trans hbody

theorem Resolution.resolveMethods_follows {w : Walk} {S : Surroundings} (hS : S.Hosts)
    (h : w.Stands known S) :
    ∀ ms : List (FunctionDecl NodeId),
      w.Follows known (resolveMethods S.context ms w) (FunctionDecl.occurrencesAll S ms) S
  | [] => .refl h
  | m :: ms =>
      have hm := resolveFunction_follows hS h (methodRole m.name) m
      hm.trans (resolveMethods_follows hS hm.stands ms)

end

/-- The walk through a program takes each of its occurrences into account. -/
theorem Resolution.resolveStmts_topLevel (globals : List String) (program : List (Stmt NodeId)) :
    Walk.Follows globals ⟨[], globals, ∅, #[]⟩
      (resolveStmts .topLevel program ⟨[], globals, ∅, #[]⟩)
      (Stmt.occurrencesAll .outermost program)
      (Surroundings.outermost.declareAll (program.flatMap Stmt.declared)) :=
  resolveStmts_follows Surroundings.settled_outermost
    ⟨.nil, fun name => by simp [Surroundings.outermost]⟩ program

/-- The last of the occurrences that gives the node a distance gives it this one. -/
def LatestDistance (occurrences : List Occurrence) (node : NodeId) (distance : Nat) : Prop :=
  ∃ before o after, occurrences = before ++ o :: after ∧ o.HasDistance node distance ∧
    ∀ o' ∈ after, ∀ d, ¬o'.HasDistance node d

theorem LatestDistance.exists {occurrences : List Occurrence} {node : NodeId} {distance : Nat}
    (h : LatestDistance occurrences node distance) :
    ∃ o ∈ occurrences, o.HasDistance node distance := by
  obtain ⟨before, o, after, rfl, hdistance, -⟩ := h
  exact ⟨o, by simp, hdistance⟩

theorem Occurrence.HasDistance.mem_references {o : Occurrence} {node : NodeId} {distance : Nat}
    (h : o.HasDistance node distance) : ∃ r, o.reference? = some r ∧ r.label = node := by
  obtain ⟨name, use, hmention, -⟩ := h
  exact ⟨⟨node, name⟩, by rw [Occurrence.reference?, hmention], rfl⟩

theorem latestDistance_of_nodup {occurrences : List Occurrence} {node : NodeId} {distance : Nat}
    (hnodup : ((referencesIn occurrences).map Reference.label).Nodup)
    (h : ∃ o ∈ occurrences, o.HasDistance node distance) :
    LatestDistance occurrences node distance := by
  obtain ⟨o, hmem, hdistance⟩ := h
  obtain ⟨before, after, rfl⟩ := List.append_of_mem hmem
  refine ⟨before, o, after, rfl, hdistance, fun o' ho' d hd => ?_⟩
  obtain ⟨r, hr, hnode⟩ := hdistance.mem_references
  obtain ⟨r', hr', hnode'⟩ := hd.mem_references
  have hlater : r' ∈ referencesIn after := List.mem_filterMap.mpr ⟨o', ho', hr'⟩
  rw [referencesIn_append, List.map_append, List.nodup_append] at hnodup
  have hcons : referencesIn (o :: after) = r :: referencesIn after :=
    List.filterMap_cons_some hr
  rw [hcons, List.map_cons, List.nodup_cons, hnode, ← hnode'] at hnodup
  exact hnodup.2.1.1 (List.mem_map_of_mem hlater)

theorem latestDistance_concat {occurrences : List Occurrence} {o : Occurrence} {node : NodeId}
    {distance : Nat} :
    LatestDistance (occurrences ++ [o]) node distance ↔
      o.HasDistance node distance ∨
        (∀ d, ¬o.HasDistance node d) ∧ LatestDistance occurrences node distance := by
  constructor
  · rintro ⟨before, found, after, heq, hdistance, hlater⟩
    rcases after.eq_nil_or_concat' with rfl | ⟨after, last, rfl⟩
    · obtain ⟨-, ho⟩ := List.append_inj' heq rfl
      cases ho
      exact .inl hdistance
    · rw [← List.cons_append, ← List.append_assoc] at heq
      obtain ⟨hoccurrences, ho⟩ := List.append_inj' heq rfl
      cases ho
      exact .inr ⟨hlater o (by simp), before, found, after, hoccurrences, hdistance,
        fun o' ho' => hlater o' (List.mem_append_left _ ho')⟩
  · rintro (hdistance | ⟨hlast, before, found, after, rfl, hdistance, hlater⟩)
    · exact ⟨occurrences, o, [], rfl, hdistance, by simp⟩
    · refine ⟨before, found, after ++ [o], by simp, hdistance, fun o' ho' => ?_⟩
      rcases List.mem_append.mp ho' with hafter | hsame
      · exact hlater o' hafter
      · rw [List.mem_singleton.mp hsame]
        exact hlast

/-- Of the entries of several occurrences the last one for a node stays. -/
theorem getElem?_entries_eq_some {occurrences : List Occurrence} {node : NodeId}
    {distance : Nat} :
    ((occurrences.filterMap Occurrence.entry?).foldl
      (fun (all : Hops) entry => all.insert entry.1 entry.2) ∅)[node]? = some distance ↔
      LatestDistance occurrences node distance := by
  induction occurrences using List.reverseRecOn with
  | nil => simp [LatestDistance]
  | append_singleton occurrences o ih =>
      rw [latestDistance_concat, ← ih, List.filterMap_append, List.foldl_append]
      simp only [← Occurrence.entry?_eq_some]
      cases hentry : o.entry? with
      | none => simp [hentry]
      | some entry =>
          obtain ⟨n, d⟩ := entry
          rw [List.filterMap_cons_some hentry, List.filterMap_nil, List.foldl_cons,
            List.foldl_nil, Std.TreeMap.getElem?_insert]
          by_cases hnode : n = node <;> simp [hnode]

namespace Resolution

/-- The table is the function of lexical scopes. Each entry is the distance that the text gives to
a reference, the last one where a node occurs several times, and each distance of a reference is
an entry where the nodes are distinct. All references are looked at, and a part of a program leaves
nothing in the frames but the names that it declares where it stands. -/
theorem hops_resolve_iff_hasDistance (globals : List String) (program : List (Stmt NodeId)) :
    (referencesIn (Stmt.occurrencesAll .outermost program)).Perm (Stmt.referencesAll program) ∧
    (∀ node distance, (resolve globals program).hops[node]? = some distance ↔
      LatestDistance (Stmt.occurrencesAll .outermost program) node distance) ∧
    (((Stmt.referencesAll program).map Reference.label).Nodup →
      ∀ node distance, (resolve globals program).hops[node]? = some distance ↔
        ∃ o ∈ Stmt.occurrencesAll .outermost program, o.HasDistance node distance) ∧
    (∀ context s w, (resolveStmt context s w).frames = introduced s.declared w.frames) := by
  have hperm := Stmt.referencesIn_occurrencesAll .outermost program
  have hlatest : ∀ node distance, (resolve globals program).hops[node]? = some distance ↔
      LatestDistance (Stmt.occurrencesAll .outermost program) node distance := by
    intro node distance
    rw [← getElem?_entries_eq_some, ← (resolveStmts_topLevel globals program).hops]
    rfl
  refine ⟨hperm, hlatest, fun hnodup node distance => (hlatest node distance).trans ?_,
    frames_resolveStmt⟩
  have hdistinct := ((hperm.map Reference.label).nodup_iff).mpr hnodup
  exact ⟨LatestDistance.exists, latestDistance_of_nodup hdistinct⟩

/-- In `{ var a; { var a = a; a = nil; } }` the initial value is the outer variable. -/
theorem hops_resolve_in_initializer :
    let a : Token := ⟨.identifier, "a", 1⟩
    let inner : List (Stmt NodeId) :=
      [.var a (some (.var 0 a)), .expression (.assign 1 a (.literal .nil))]
    let program : List (Stmt NodeId) := [.block [.var a none, .block inner]]
    ((Stmt.referencesAll program).map Reference.label).Nodup ∧
      (resolve [] program).hops[0]? = some 1 ∧ (resolve [] program).hops[1]? = some 0 := by
  intro a inner program
  have hnodup : ((Stmt.referencesAll program).map Reference.label).Nodup := by decide
  have hiff := (hops_resolve_iff_hasDistance [] program).2.2.1 hnodup
  let frames : List (List Declaration) := [[⟨"a", true⟩], [⟨"a", false⟩]]
  let read : Occurrence := ⟨.reference 0 a .read, ⟨frames, [], none, false⟩⟩
  let write : Occurrence :=
    ⟨.reference 1 a .write, ⟨[[⟨"a", false⟩], [⟨"a", false⟩]], [], none, false⟩⟩
  have hread : read.entry? = some (0, 1) := by decide
  have hwrite : write.entry? = some (1, 0) := by decide
  have hoccurrences : Stmt.occurrencesAll .outermost program =
      [⟨.declaration a, ⟨[[]], [], none, false⟩⟩,
        ⟨.declaration a, ⟨[[], [⟨"a", false⟩]], [], none, false⟩⟩, read, write] := rfl
  rw [hoccurrences] at hiff
  exact ⟨hnodup, (hiff 0 1).mpr ⟨read, by simp, Occurrence.entry?_eq_some.mp hread⟩,
    (hiff 1 0).mpr ⟨write, by simp, Occurrence.entry?_eq_some.mp hwrite⟩⟩

/-- The reports are the faults of the occurrences, in their order. -/
theorem reports_resolve (globals : List String) (program : List (Stmt NodeId)) :
    (resolve globals program).reports =
      (Stmt.occurrencesAll .outermost program).filterMap (Occurrence.violation? globals) := by
  have hreports := (resolveStmts_topLevel globals program).reports
  rwa [List.nil_append] at hreports

end Resolution

end Lox
