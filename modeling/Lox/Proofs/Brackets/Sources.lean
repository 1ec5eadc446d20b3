import Lox.Proofs.Brackets.Decoding
import Lox.Proofs.Brackets.Legibility

/-!
Texts that determine trees.

The text of a tree that was read is a writing of its form, and the form shows the tree. So two trees
with the same text differ in their lines and labels only, whatever was read.
-/

namespace Lox

open Parsing Scan

variable {α β : Type}

/-! ### Labels -/

mutual

theorem Expr.text_relabel (f : α → β) : ∀ e : Expr α, (e.relabel f).text = e.text
  | .literal _ | .var _ _ | .this _ _ => rfl
  | .grouping inner => by rw [relabel, text, text, inner.text_relabel f]
  | .unary _ operand => by rw [relabel, text, text, operand.text_relabel f]
  | .binary left _ right | .logical left _ right => by
      rw [relabel, text, text, left.text_relabel f, right.text_relabel f]
  | .assign _ _ value => by rw [relabel, text, text, value.text_relabel f]
  | .call callee _ arguments => by
      rw [relabel, text, text, callee.text_relabel f, Expr.followingText_relabel f arguments]
  | .get object _ => by rw [relabel, text, text, object.text_relabel f]
  | .set object _ value => by
      rw [relabel, text, text, object.text_relabel f, value.text_relabel f]

theorem Expr.followingText_relabel (f : α → β) : ∀ es : List (Expr α),
    Expr.followingText (Expr.relabelAll f es) = Expr.followingText es
  | [] => rfl
  | e :: es => by
      rw [relabelAll, followingText, followingText, e.text_relabel f,
        Expr.followingText_relabel f es]

end

mutual

theorem Stmt.text_relabel (f : α → β) : ∀ s : Stmt α, (s.relabel f).text = s.text
  | .expression e | .print e => by rw [Stmt.relabel, Stmt.text, Stmt.text, e.text_relabel f]
  | .var _ none | .ret _ none => rfl
  | .var _ (some e) | .ret _ (some e) => by
      rw [Stmt.relabel, Expr.relabelOption, Stmt.text, Stmt.text, e.text_relabel f]
  | .block body => by
      rw [Stmt.relabel, Stmt.text, Stmt.text, Stmt.followingText_relabel f body]
  | .branch condition consequent none => by
      rw [Stmt.relabel, Stmt.text, Stmt.text, condition.text_relabel f, consequent.text_relabel f]
  | .branch condition consequent (some alternative) => by
      rw [Stmt.relabel, Stmt.text, Stmt.text, condition.text_relabel f, consequent.text_relabel f,
        alternative.text_relabel f]
  | .loop condition body => by
      rw [Stmt.relabel, Stmt.text, Stmt.text, condition.text_relabel f, body.text_relabel f]
  | .function declaration => declaration.text_relabel f "fun"
  | .class_ _ methods => by
      rw [Stmt.relabel, Stmt.text, Stmt.text, FunctionDecl.followingText_relabel f methods]

theorem Stmt.followingText_relabel (f : α → β) : ∀ ss : List (Stmt α),
    Stmt.followingText (Stmt.relabelAll f ss) = Stmt.followingText ss
  | [] => rfl
  | s :: ss => by
      rw [Stmt.relabelAll, Stmt.followingText, Stmt.followingText, s.text_relabel f,
        Stmt.followingText_relabel f ss]

theorem FunctionDecl.text_relabel (f : α → β) (word : String) : ∀ m : FunctionDecl α,
    (m.relabel f).text word = m.text word
  | ⟨_, _, body⟩ => by
      rw [FunctionDecl.relabel, FunctionDecl.text, FunctionDecl.text,
        Stmt.followingText_relabel f body]

theorem FunctionDecl.followingText_relabel (f : α → β) : ∀ ms : List (FunctionDecl α),
    FunctionDecl.followingText (FunctionDecl.relabelAll f ms) = FunctionDecl.followingText ms
  | [] => rfl
  | m :: ms => by
      rw [FunctionDecl.relabelAll, FunctionDecl.followingText, FunctionDecl.followingText,
        m.text_relabel f, FunctionDecl.followingText_relabel f ms]

end

theorem Stmt.map_text_shapeAll (p : List (Stmt α)) :
    (Stmt.shapeAll p).map Stmt.text = p.map Stmt.text := by
  induction p with
  | nil => rfl
  | cons s p ih => exact congrArg₂ _ (s.text_relabel _) ih

/-! ### Legible trees -/

/-- The expression without its lines. -/
def Expr.unlined (e : Expr α) : Expr α := e.respell (.everywhere Token.unlined) 0

theorem Expr.unlined_eq_of_text {e e' : Expr Unit} (h : e.IsLegible) (h' : e'.IsLegible)
    (htext : e.text = e'.text) : e.unlined = e'.unlined := by
  have hform : [e.form] = [e'.form] := (e.writes h).unique (htext ▸ e'.writes h')
  calc
    e.unlined = e.form.expr := (e.expr_form 0 h).symm
    _ = e'.form.expr := congrArg Form.expr (List.singleton_inj.mp hform)
    _ = e'.unlined := e'.expr_form 0 h'

theorem Stmt.forms_eq_of_text {p p' : List (Stmt Unit)} (h : Stmt.AreLegible p)
    (h' : Stmt.AreLegible p') (htext : p.map Stmt.text = p'.map Stmt.text) :
    Stmt.forms p = Stmt.forms p' := by
  induction p generalizing p' with
  | nil => rw [List.map_eq_nil_iff.mp htext.symm]
  | cons s p ih =>
      obtain ⟨s', q, rfl, hs, hq⟩ := List.map_eq_cons_iff.mp htext.symm
      have hform : [s.form] = [s'.form] := (s.writes h.1).unique (hs ▸ s'.writes h'.1)
      rw [Stmt.forms, Stmt.forms, List.singleton_inj.mp hform, ih h.2 h'.2 hq.symm]

theorem Stmt.unlinedAll_eq_of_text {p p' : List (Stmt Unit)} (h : Stmt.AreLegible p)
    (h' : Stmt.AreLegible p') (htext : p.map Stmt.text = p'.map Stmt.text) :
    Stmt.unlinedAll p = Stmt.unlinedAll p' := by
  calc
    Stmt.unlinedAll p = Form.stmts (Stmt.forms p) := (Stmt.stmts_forms 0 p h).symm
    _ = Form.stmts (Stmt.forms p') := congrArg Form.stmts (Stmt.forms_eq_of_text h h' htext)
    _ = Stmt.unlinedAll p' := Stmt.stmts_forms 0 p' h'

/-! ### Trees that are read -/

section

variable {source source' : String}

theorem legible_of_scans {ts : List Token} {stop : Nat}
    (h : Scans 1 source.toList ((ts ++ [Token.endOfInput stop]).map Item.token))
    (hplain : ∀ t ∈ Scan.tokens source, t.isPlain) : Legible ts := by
  have htokens := tokens_eq h
  have hcontents : contents (Scan.tokens source) = ts := contents_of_items (items_eq_iff.mpr h)
  refine fun t ht => ⟨isLegal_of_mem_contents (hcontents ▸ ht), hplain t ?_⟩
  exact htokens ▸ List.mem_append_left _ ht

theorem areLegible_of_readProgram {p : List (Stmt Unit)} (h : readProgram source = ⟨p, []⟩)
    (hplain : ∀ t ∈ Scan.tokens source, t.isPlain) : Stmt.AreLegible p := by
  obtain ⟨ts, stop, hscans, hts⟩ := readProgram_eq_iff.mp h
  exact hts.isLegible (legible_of_scans hscans hplain)

theorem isLegible_of_readExpression {e : Expr Unit} (h : readExpression source = ⟨some e, []⟩)
    (hplain : ∀ t ∈ Scan.tokens source, t.isPlain) : e.IsLegible := by
  obtain ⟨ts, stop, hscans, hts⟩ := readExpression_eq_iff.mp h
  exact hts.isLegible trivial (legible_of_scans hscans hplain)

/-- Programs that are read without a report, and in which are no strings and no infinite numbers,
are the same but for lines and labels if the texts of their statements are. So are expressions. -/
theorem text_determines_tree (hplain : ∀ t ∈ Scan.tokens source, t.isPlain)
    (hplain' : ∀ t ∈ Scan.tokens source', t.isPlain) :
    (∀ (p : List (Stmt α)) (p' : List (Stmt β)),
      readProgram source = ⟨Stmt.shapeAll p, []⟩ → readProgram source' = ⟨Stmt.shapeAll p', []⟩ →
        p.map Stmt.text = p'.map Stmt.text →
          Stmt.unlinedAll (Stmt.shapeAll p) = Stmt.unlinedAll (Stmt.shapeAll p')) ∧
      ∀ (e : Expr α) (e' : Expr β),
        readExpression source = ⟨some e.shape, []⟩ →
          readExpression source' = ⟨some e'.shape, []⟩ → e.text = e'.text →
            e.shape.unlined = e'.shape.unlined := by
  constructor
  · intro p p' h h' htext
    rw [← Stmt.map_text_shapeAll p, ← Stmt.map_text_shapeAll p'] at htext
    exact Stmt.unlinedAll_eq_of_text (areLegible_of_readProgram h hplain)
      (areLegible_of_readProgram h' hplain') htext
  · intro e e' h h' htext
    rw [← e.text_relabel fun _ => (), ← e'.text_relabel fun _ => ()] at htext
    exact Expr.unlined_eq_of_text (isLegible_of_readExpression h hplain)
      (isLegible_of_readExpression h' hplain') htext

/-- Two layouts of a program without an `else`, and two of a negated number. -/
theorem text_determines_tree_of_layouts :
    let program (first : NodeId) (line : Nat) : List (Stmt NodeId) :=
      [.branch (.var first ⟨.identifier, "a", 1⟩)
        (.expression (.set (.var (first + 1) ⟨.identifier, "b", line⟩) ⟨.identifier, "c", line⟩
          (.unary ⟨.symbol .minus, "-", line⟩ (.var (first + 2) ⟨.identifier, "a", line⟩)))) none]
    let negated (line : Nat) : Expr NodeId :=
      .unary ⟨.symbol .minus, "-", line⟩ (.literal (.number (numberOf ['7'] [])))
    readProgram "if(a)b.c=-a;" = ⟨Stmt.shapeAll (program 0 1), []⟩ ∧
      readProgram "if (a)\nb.c = -a;" = ⟨Stmt.shapeAll (program 3 2), []⟩ ∧
      Stmt.unlinedAll (Stmt.shapeAll (program 0 1)) =
        Stmt.unlinedAll (Stmt.shapeAll (program 3 2)) ∧
      readExpression "-7" = ⟨some (negated 1).shape, []⟩ ∧
      readExpression "\n-7" = ⟨some (negated 2).shape, []⟩ ∧
      (negated 1).shape.unlined = (negated 2).shape.unlined := by
  intro program negated
  have hprogram : readProgram "if(a)b.c=-a;" = ⟨Stmt.shapeAll (program 0 1), []⟩ := by cbv
  have hprogram' : readProgram "if (a)\nb.c = -a;" = ⟨Stmt.shapeAll (program 3 2), []⟩ := by cbv
  have hplain : (Scan.tokens "if(a)b.c=-a;").all Token.isPlain = true := by cbv
  have hplain' : (Scan.tokens "if (a)\nb.c = -a;").all Token.isPlain = true := by cbv
  have hprograms := (text_determines_tree (List.all_eq_true.mp hplain)
    (List.all_eq_true.mp hplain')).1 (program 0 1) (program 3 2) hprogram hprogram' (by cbv)
  have hseven : Numeral ['7'] (numberOf ['7'] []) := .whole (by decide) (List.all_eq_true.mp rfl)
  have hscans : Scans 1 "-7".toList
      ((([⟨.symbol .minus, "-", 1⟩, ⟨.number (numberOf ['7'] []), "7", 1⟩] : List Token) ++
        [Token.endOfInput 1]).map Item.token) :=
    (Number.lexes_signed true hseven).scans
  have hscans' : Scans 1 "\n-7".toList
      ((([⟨.symbol .minus, "-", 2⟩, ⟨.number (numberOf ['7'] []), "7", 2⟩] : List Token) ++
        [Token.endOfInput 2]).map Item.token) := by
    have hnothing : items "" = [.token (.endOfInput 1)] := by cbv
    have hbelow := (items_below "" "-7" (by simp [hnothing])).2
    rw [hnothing, items_eq_iff.mpr hscans] at hbelow
    exact items_eq_iff.mp hbelow
  have hreads (line : Nat) : ReadsAs [⟨.symbol .minus, "-", line⟩,
      ⟨.number (numberOf ['7'] []), "7", line⟩] (.expression (negated line).shape) := by
    refine .plain (.of_unary (.unary (.tail _ (.head _)) ?_) levels)
    exact .operand (.primary (.literal rfl))
  have hexpression := readExpression_eq_iff.mpr ⟨_, _, hscans, hreads 1⟩
  have hexpression' := readExpression_eq_iff.mpr ⟨_, _, hscans', hreads 2⟩
  have hfinite : (numberOf ['7'] []).isFinite := by decide +kernel
  have hplain : ∀ t ∈ Scan.tokens "-7", t.isPlain := by
    rw [tokens_eq hscans]
    simpa [Token.isPlain, Token.endOfInput] using hfinite
  have hplain' : ∀ t ∈ Scan.tokens "\n-7", t.isPlain := by
    rw [tokens_eq hscans']
    simpa [Token.isPlain, Token.endOfInput] using hfinite
  have hexpressions := (text_determines_tree hplain hplain').2 (negated 1) (negated 2) hexpression
    hexpression' rfl
  exact ⟨hprogram, hprogram', hprograms, hexpression, hexpression', hexpressions⟩

-- A string has the text of a name, so nothing of the kind holds of texts with strings.
example : (Expr.literal (.string "a") : Expr Unit).text =
    (Expr.var () ⟨.identifier, "a", 1⟩).text :=
  rfl

end

end Lox
