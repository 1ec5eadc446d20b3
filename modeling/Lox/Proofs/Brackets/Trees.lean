import Lox.Proofs.Brackets.Forms
import Lox.Proofs.Marks.Trees
import Lox.Proofs.Numbers.ReadingBack

namespace Lox

open Parsing Scan

variable {Label : Type}

mutual

/-- What the text of an expression is a writing of. -/
def Expr.form : Expr Label → Form
  | .literal value => .word value.text
  | .grouping inner => .group [.word "group", inner.form]
  | .unary operator operand => .group [.word operator.lexeme, operand.form]
  | .binary left operator right | .logical left operator right =>
      .group [.word operator.lexeme, left.form, right.form]
  | .var _ name => .word name.lexeme
  | .assign _ name value => .group [.word "=", .word name.lexeme, value.form]
  | .call callee _ arguments => .group (.word "call" :: callee.form :: Expr.forms arguments)
  | .get object name => .group [.word ".", object.form, .word name.lexeme]
  | .set object name value =>
      .group [.word "=", .group [.word ".", object.form, .word name.lexeme], value.form]
  | .this _ _ => .word "this"

def Expr.forms : List (Expr Label) → List Form
  | [] => []
  | e :: es => e.form :: Expr.forms es

end

mutual

def Stmt.form : Stmt Label → Form
  | .expression e => .group [.word ";", e.form]
  | .print e => .group [.word "print", e.form]
  | .var name none => .group [.word "var", .word name.lexeme]
  | .var name (some initial) =>
      .group [.word "var", .word name.lexeme, .word "=", initial.form]
  | .block body => .group (.word "block" :: Stmt.forms body)
  | .branch condition consequent none => .group [.word "if", condition.form, consequent.form]
  | .branch condition consequent (some alternative) =>
      .group [.word "if", condition.form, consequent.form, alternative.form]
  | .loop condition body => .group [.word "while", condition.form, body.form]
  | .function declaration => declaration.form "fun"
  | .ret _ none => .group [.word "return"]
  | .ret _ (some value) => .group [.word "return", value.form]
  | .class_ name methods =>
      .group (.word "class" :: .word name.lexeme :: FunctionDecl.forms methods)

def Stmt.forms : List (Stmt Label) → List Form
  | [] => []
  | s :: ss => s.form :: Stmt.forms ss

def FunctionDecl.form (word : String) : FunctionDecl Label → Form
  | ⟨name, params, body⟩ =>
      .group (.word word :: .word name.lexeme :: .group ((params.map Token.lexeme).map .word) ::
        Stmt.forms body)

def FunctionDecl.forms : List (FunctionDecl Label) → List Form
  | [] => []
  | m :: ms => m.form "method" :: FunctionDecl.forms ms

end

/-- A token of one of these kinds, spelled as such. -/
structure Token.IsAmong (t : Token) (kinds : List Kind) : Prop where
  kind : t.kind ∈ kinds
  legal : t.IsLegal

/-- The text of the literal shows what it is. -/
def Literal.IsPlain : Literal → Prop
  | .string _ => False
  | .number n => n.isFinite
  | _ => True

mutual

/-- The tokens are of kinds that belong in their places, and the literals are plain. -/
def Expr.IsLegible : Expr Label → Prop
  | .literal value => value.IsPlain
  | .grouping inner => inner.IsLegible
  | .unary operator operand => operator.IsAmong unaryOperators ∧ operand.IsLegible
  | .binary left operator right =>
      operator.IsAmong binaryOperators ∧ left.IsLegible ∧ right.IsLegible
  | .logical left operator right =>
      operator.IsAmong logicalOperators ∧ left.IsLegible ∧ right.IsLegible
  | .var _ name => name.IsAmong [.identifier]
  | .assign _ name value => name.IsAmong [.identifier] ∧ value.IsLegible
  | .call callee paren arguments =>
      paren.IsAmong [.symbol .rightParen] ∧ callee.IsLegible ∧ Expr.AreLegible arguments
  | .get object name => name.IsAmong [.identifier] ∧ object.IsLegible
  | .set object name value =>
      name.IsAmong [.identifier] ∧ object.IsLegible ∧ value.IsLegible
  | .this _ keyword => keyword.IsAmong [.keyword .this_]

def Expr.AreLegible : List (Expr Label) → Prop
  | [] => True
  | e :: es => e.IsLegible ∧ Expr.AreLegible es

end

mutual

def Stmt.IsLegible : Stmt Label → Prop
  | .expression e | .print e => e.IsLegible
  | .var name none => name.IsAmong [.identifier]
  | .var name (some initial) => name.IsAmong [.identifier] ∧ initial.IsLegible
  | .block body => Stmt.AreLegible body
  | .branch condition consequent none => condition.IsLegible ∧ consequent.IsLegible
  | .branch condition consequent (some alternative) =>
      condition.IsLegible ∧ consequent.IsLegible ∧ alternative.IsLegible
  | .loop condition body => condition.IsLegible ∧ body.IsLegible
  | .function declaration => declaration.IsLegible
  | .ret keyword none => keyword.IsAmong [.keyword .return_]
  | .ret keyword (some value) => keyword.IsAmong [.keyword .return_] ∧ value.IsLegible
  | .class_ name methods => name.IsAmong [.identifier] ∧ FunctionDecl.AreLegible methods

def Stmt.AreLegible : List (Stmt Label) → Prop
  | [] => True
  | s :: ss => s.IsLegible ∧ Stmt.AreLegible ss

def FunctionDecl.IsLegible : FunctionDecl Label → Prop
  | ⟨name, params, body⟩ =>
      name.IsAmong [.identifier] ∧ (∀ param ∈ params, param.IsAmong [.identifier]) ∧
        Stmt.AreLegible body

def FunctionDecl.AreLegible : List (FunctionDecl Label) → Prop
  | [] => True
  | m :: ms => m.IsLegible ∧ FunctionDecl.AreLegible ms

end

section

variable {t : Token} {kinds : List Kind} {w : List Char} {n : Float}

/-- How the tokens of a kind are spelled, if they are all spelled alike. -/
def Kind.spelling : Kind → String
  | .symbol s => s.spelling
  | .keyword k => k.spelling
  | _ => ""

/-- All tokens of these kinds are spelled alike. -/
def Kind.isFixed : Kind → Bool
  | .symbol _ | .keyword _ => true
  | _ => false

theorem Token.IsLegal.lexeme_eq (h : t.IsLegal) (hfixed : t.kind.isFixed) :
    t.lexeme = t.kind.spelling := by
  obtain ⟨kind, lexeme, line⟩ := t
  change Spells kind lexeme.toList at h
  rw [← String.toList_inj]
  generalize lexeme.toList = w at h
  cases h with
  | symbol | keyword => rfl
  | identifier | string | number => cases hfixed

theorem Token.IsAmong.lexeme_mem (h : t.IsAmong kinds) (hfixed : ∀ k ∈ kinds, k.isFixed) :
    t.lexeme ∈ kinds.map Kind.spelling :=
  List.mem_map.mpr ⟨t.kind, h.kind, (h.legal.lexeme_eq (hfixed _ h.kind)).symm⟩

theorem Token.IsAmong.isIdentifier (h : t.IsAmong [.identifier]) :
    IsWord t.lexeme.toList ∧ ∀ k : Keyword, k.spelling ≠ t.lexeme := by
  obtain ⟨kind, lexeme, line⟩ := t
  obtain ⟨hkind, hlegal⟩ := h
  obtain rfl : kind = .identifier := List.mem_singleton.mp hkind
  cases hlegal with
  | identifier h hword => exact ⟨h, fun k hk => hword k (congrArg String.toList hk)⟩

theorem isUnbroken_of_isWordPart {w : String} (hne : w ≠ "") (h : ∀ c ∈ w.toList, isWordPart c) :
    Form.IsUnbroken w := by
  refine ⟨hne, fun c hc => ?_⟩
  have hpart := h c hc
  refine ⟨?_, ?_, ?_⟩ <;> rintro rfl <;> cases hpart

theorem Token.IsAmong.isUnbroken (h : t.IsAmong [.identifier]) : Form.IsUnbroken t.lexeme := by
  obtain ⟨first, others, hw, hletter, hothers⟩ := h.isIdentifier.1
  refine isUnbroken_of_isWordPart ?_ ?_
  · rintro hempty
    rw [hempty] at hw
    cases hw
  · rw [hw]
    exact List.forall_mem_cons.mpr ⟨isWordPart_of_isLetter hletter, hothers⟩

theorem Scan.Numeral.letters {w : List Char} {value : Float} (h : Numeral w value) :
    w ≠ [] ∧ ∀ c ∈ w, isDigit c ∨ c = '.' := by
  cases h with
  | whole hne h => exact ⟨hne, fun c hc => .inl (h c hc)⟩
  | @fraction digits more hne h hmore h' =>
      refine ⟨by simp, fun c hc => ?_⟩
      rcases List.mem_append.mp hc with hc | hc
      · exact .inl (h c hc)
      · rcases List.mem_cons.mp hc with rfl | hc
        · exact .inr rfl
        · exact .inl (h' c hc)

/-- The text of a number starts with a digit, or with a minus, and in it are no letters. -/
theorem Number.text_letters (h : n.isFinite) :
    (Number.text n).toList ≠ [] ∧ ∀ c ∈ (Number.text n).toList, isDigit c ∨ c = '.' ∨ c = '-' := by
  obtain ⟨w, htext, hw⟩ := Number.numeral_text h
  obtain ⟨hne, hletters⟩ := hw.letters
  rw [htext, String.toList_ofList, Number.signed]
  split
  · refine ⟨List.cons_ne_nil _ _, List.forall_mem_cons.mpr ⟨.inr (.inr rfl), fun c hc => ?_⟩⟩
    exact (hletters c hc).imp_right .inl
  · exact ⟨hne, fun c hc => (hletters c hc).imp_right .inl⟩

theorem Number.isUnbroken_text (h : n.isFinite) : Form.IsUnbroken (Number.text n) := by
  obtain ⟨hne, hletters⟩ := Number.text_letters h
  refine ⟨fun hempty => hne (congrArg String.toList hempty), fun c hc => ?_⟩
  have hletter := hletters c hc
  refine ⟨?_, ?_, ?_⟩ <;> rintro rfl <;> revert hletter <;> decide

theorem Literal.isUnbroken_text : ∀ {value : Literal}, value.IsPlain → Form.IsUnbroken value.text
  | .nil, _ => by decide
  | .boolean false, _ => by decide
  | .boolean true, _ => by decide
  | .number _, h => Number.isUnbroken_text h

theorem isUnbroken_of_operator (hkinds : ∀ k ∈ kinds, k.isFixed ∧ Form.IsUnbroken k.spelling)
    (h : t.IsAmong kinds) : Form.IsUnbroken t.lexeme := by
  obtain ⟨k, hk, hlexeme⟩ := List.mem_map.mp (h.lexeme_mem fun k hk => (hkinds k hk).1)
  exact hlexeme ▸ (hkinds k hk).2

end

mutual

theorem Expr.writes : ∀ e : Expr Label, e.IsLegible → Form.Writes e.text [e.form]
  | .literal value, h => .word (Literal.isUnbroken_text h)
  | .grouping inner, h => by
      have hgroup := (Form.Opens.word "group" (by decide)).append (inner.writes h)
      exact hgroup.close
  | .unary operator operand, h => by
      have hoperator := isUnbroken_of_operator (by decide) h.1
      exact ((Form.Opens.word _ hoperator).append (operand.writes h.2)).close
  | .binary left operator right, h | .logical left operator right, h => by
      have hoperator := isUnbroken_of_operator (by decide) h.1
      have hleft := (Form.Opens.word _ hoperator).append (left.writes h.2.1)
      exact (hleft.append (right.writes h.2.2)).close
  | .var _ name, h => .word (Token.IsAmong.isUnbroken h)
  | .assign _ name value, h => by
      have hname := (Form.Opens.word "=" (by decide)).append (.word h.1.isUnbroken)
      exact (hname.append (value.writes h.2)).close
  | .call callee _ arguments, h => by
      have hcallee := (Form.Opens.word "call" (by decide)).append (callee.writes h.2.1)
      exact (Expr.opens_following arguments h.2.2 hcallee).close
  | .get object name, h => by
      have hobject := (Form.Opens.word "." (by decide)).append (object.writes h.2)
      exact (hobject.append (.word h.1.isUnbroken)).close
  | .set object name value, h => by
      have hobject := (Form.Opens.word "." (by decide)).append (object.writes h.2.1)
      have htarget := (hobject.append (.word h.1.isUnbroken)).close
      have hset : Form.Writes _ [(Expr.set object name value).form] :=
        (((Form.Opens.word "=" (by decide)).append htarget).append (value.writes h.2.2)).close
      have hopen : "(= (. " = "(" ++ "=" ++ " " ++ "(" ++ "." ++ " " := rfl
      have hclose : ") " = ")" ++ " " := rfl
      rw [Expr.text, hopen, hclose]
      simpa only [String.append_assoc] using hset
  | .this label keyword, _ => .word (show Form.IsUnbroken "this" by decide)

theorem Expr.opens_following {s : String} {fs : List Form} : ∀ es : List (Expr Label),
    Expr.AreLegible es → Form.Opens s fs →
      Form.Opens (s ++ Expr.followingText es) (fs ++ Expr.forms es)
  | [], _, hs => by rwa [Expr.followingText, Expr.forms, String.append_empty, List.append_nil]
  | e :: es, h, hs => by
      have hmore := Expr.opens_following es h.2 (hs.append (e.writes h.1))
      rw [List.append_assoc] at hmore
      rw [Expr.followingText, Expr.forms, ← String.append_assoc, ← String.append_assoc]
      exact hmore

end

theorem Token.writes_params {params : List Token}
    (h : ∀ param ∈ params, param.IsAmong [.identifier]) :
    Form.Writes (" ".intercalate (params.map Token.lexeme))
      ((params.map Token.lexeme).map .word) := by
  refine .words fun w hw => ?_
  obtain ⟨param, hparam, rfl⟩ := List.mem_map.mp hw
  exact (h param hparam).isUnbroken

mutual

theorem Stmt.writes : ∀ s : Stmt Label, s.IsLegible → Form.Writes s.text [s.form]
  | .expression e, h => by
      have hopen := (Form.Opens.word ";" (by decide)).append (e.writes h)
      exact hopen.close
  | .print e, h => by
      have hopen := (Form.Opens.word "print" (by decide)).append (e.writes h)
      exact hopen.close
  | .var name none, h => by
      have hname := (Form.Opens.word "var" (by decide)).append
        (.word (Token.IsAmong.isUnbroken h))
      exact hname.close
  | .var name (some initial), h => by
      have hname := (Form.Opens.word "var" (by decide)).append (.word h.1.isUnbroken)
      have hequals := hname.append (.word (show Form.IsUnbroken "=" by decide))
      have hinitial : Form.Writes _ [(Stmt.var name (some initial)).form] :=
        (hequals.append (initial.writes h.2)).close
      have hopen : "(var " = "(" ++ "var" ++ " " := rfl
      have hbetween : " = " = " " ++ "=" ++ " " := rfl
      rw [Stmt.text, hopen, hbetween]
      simpa only [String.append_assoc] using hinitial
  | .block body, h => (Stmt.opens_following body h (Form.Opens.word "block" (by decide))).close
  | .branch condition consequent none, h => by
      have hcondition := (Form.Opens.word "if" (by decide)).append (condition.writes h.1)
      exact (hcondition.append (consequent.writes h.2)).close
  | .branch condition consequent (some alternative), h => by
      have hcondition := (Form.Opens.word "if" (by decide)).append (condition.writes h.1)
      have hconsequent := hcondition.append (consequent.writes h.2.1)
      exact (hconsequent.append (alternative.writes h.2.2)).close
  | .loop condition body, h => by
      have hcondition := (Form.Opens.word "while" (by decide)).append (condition.writes h.1)
      exact (hcondition.append (body.writes h.2)).close
  | .function declaration, h => declaration.writes h "fun" (by decide)
  | .ret keyword none, _ => (Form.Opens.word "return" (by decide)).close
  | .ret keyword (some value), h => by
      have hvalue := (Form.Opens.word "return" (by decide)).append (value.writes h.2)
      exact hvalue.close
  | .class_ name methods, h => by
      have hname := (Form.Opens.word "class" (by decide)).append (.word h.1.isUnbroken)
      exact (FunctionDecl.opens_following methods h.2 hname).close

theorem Stmt.opens_following {s : String} {fs : List Form} : ∀ ss : List (Stmt Label),
    Stmt.AreLegible ss → Form.Opens s fs →
      Form.Opens (s ++ Stmt.followingText ss) (fs ++ Stmt.forms ss)
  | [], _, hs => by rwa [Stmt.followingText, Stmt.forms, String.append_empty, List.append_nil]
  | s' :: ss, h, hs => by
      have hmore := Stmt.opens_following ss h.2 (hs.append (s'.writes h.1))
      rw [List.append_assoc] at hmore
      rw [Stmt.followingText, Stmt.forms, ← String.append_assoc, ← String.append_assoc]
      exact hmore

theorem FunctionDecl.writes : ∀ d : FunctionDecl Label, d.IsLegible →
    ∀ word, Form.IsUnbroken word → Form.Writes (d.text word) [d.form word]
  | ⟨name, params, body⟩, h, word, hword => by
      have hname := (Form.Opens.word word hword).append (.word h.1.isUnbroken)
      have hparams := hname.append_group (Token.writes_params h.2.1)
      exact (Stmt.opens_following body h.2.2 hparams).close

theorem FunctionDecl.opens_following {s : String} {fs : List Form} :
    ∀ ms : List (FunctionDecl Label), FunctionDecl.AreLegible ms → Form.Opens s fs →
      Form.Opens (s ++ FunctionDecl.followingText ms) (fs ++ FunctionDecl.forms ms)
  | [], _, hs => by
      rwa [FunctionDecl.followingText, FunctionDecl.forms, String.append_empty, List.append_nil]
  | m :: ms, h, hs => by
      have hmore := FunctionDecl.opens_following ms h.2
        (hs.append (m.writes h.1 "method" (by decide)))
      rw [List.append_assoc] at hmore
      rw [FunctionDecl.followingText, FunctionDecl.forms, ← String.append_assoc,
        ← String.append_assoc]
      exact hmore

end

end Lox
