import Lox.Token

/-!
The grammar of the language, as it is written down.

    program     → declaration*
    declaration → classDecl | funDecl | varDecl | statement
    classDecl   → 'class' IDENTIFIER '{' function* '}'
    funDecl     → 'fun' function
    function    → IDENTIFIER '(' parameters? ')' block
    varDecl     → 'var' IDENTIFIER ('=' expression)? ';'
    statement   → exprStmt | forStmt | ifStmt | printStmt | returnStmt | whileStmt | block
    exprStmt    → expression ';'
    forStmt     → 'for' '(' (varDecl | exprStmt | ';') expression? ';' expression? ')' statement
    ifStmt      → 'if' '(' expression ')' statement ('else' statement)?
    printStmt   → 'print' expression ';'
    returnStmt  → 'return' expression? ';'
    whileStmt   → 'while' '(' expression ')' statement
    block       → '{' declaration* '}'
    parameters  → IDENTIFIER (',' IDENTIFIER)*
    expression  → assignment
    assignment  → (call '.')? IDENTIFIER '=' assignment | logicOr
    logicOr     → logicAnd ('or' logicAnd)*
    logicAnd    → equality ('and' equality)*
    equality    → comparison (('!=' | '==') comparison)*
    comparison  → term (('>' | '>=' | '<' | '<=') term)*
    term        → factor (('-' | '+') factor)*
    factor      → unary (('/' | '*') unary)*
    unary       → ('!' | '-') unary | call
    call        → primary ('(' arguments? ')' | '.' IDENTIFIER)*
    arguments   → expression (',' expression)*
    primary     → NUMBER | STRING | 'true' | 'false' | 'nil' | 'this' | IDENTIFIER
                | '(' expression ')'

`grammar` takes a limit on the entries of the two kinds of lists, parameters and arguments, which
is `none` in the grammar above.
-/

namespace Lox.Grammar

inductive Terminal
  | symbol (s : Symbol)
  | word (k : Keyword)
  | identifier
  | number
  | string

/-- The kinds of token that the grammar means by a terminal. -/
inductive Terminal.Matches : Terminal → Kind → Prop
  | symbol (s : Symbol) : Matches (.symbol s) (.symbol s)
  | word (k : Keyword) : Matches (.word k) (.keyword k)
  | identifier : Matches .identifier .identifier
  | number (value : Float) : Matches .number (.number value)
  | string (contents : String) : Matches .string (.string contents)

inductive Rule
  | program | declaration | classDecl | funDecl | function | varDecl
  | statement | exprStmt | forStmt | ifStmt | printStmt | returnStmt | whileStmt | block
  | parameters | expression | assignment | logicOr | logicAnd | equality | comparison | term
  | factor | unary | call | arguments | primary

/-- The right-hand sides of rules. -/
inductive Pattern
  | empty
  | terminal (t : Terminal)
  | rule (r : Rule)
  | sequence (first second : Pattern)
  | choice (first second : Pattern)
  | optional (p : Pattern)
  | many (most : Option Nat) (p : Pattern)

namespace Pattern

def symbol (s : Symbol) : Pattern := terminal (.symbol s)

def word (k : Keyword) : Pattern := terminal (.word k)

def identifier : Pattern := terminal .identifier

/-- Patterns one after another. -/
def all : List Pattern → Pattern
  | [] => empty
  | [p] => p
  | p :: ps => sequence p (all ps)

/-- A choice between patterns, of which there is one at least. -/
def oneOf (p : Pattern) : List Pattern → Pattern
  | [] => p
  | q :: ps => choice p (oneOf q ps)

/-- Operands with operators between them. -/
def operands (operand : Rule) (operators : Pattern) : Pattern :=
  sequence (rule operand) (many none (sequence operators (rule operand)))

/-- One entry or more, at most as many as the limit, with commas between them. -/
def entries (limit : Option Nat) (entry : Pattern) : Pattern :=
  sequence entry (many (limit.map (· - 1)) (sequence (symbol .comma) entry))

end Pattern

open Pattern in
def grammar (limit : Option Nat) : Rule → Pattern
  | .program => many none (rule .declaration)
  | .declaration => oneOf (rule .classDecl) [rule .funDecl, rule .varDecl, rule .statement]
  | .classDecl =>
      all [word .class_, identifier, symbol .leftBrace, many none (rule .function),
        symbol .rightBrace]
  | .funDecl => all [word .fun_, rule .function]
  | .function =>
      all [identifier, symbol .leftParen, optional (rule .parameters), symbol .rightParen,
        rule .block]
  | .varDecl =>
      all [word .var_, identifier, optional (sequence (symbol .equal) (rule .expression)),
        symbol .semicolon]
  | .statement =>
      oneOf (rule .exprStmt) [rule .forStmt, rule .ifStmt, rule .printStmt, rule .returnStmt,
        rule .whileStmt, rule .block]
  | .exprStmt => all [rule .expression, symbol .semicolon]
  | .forStmt =>
      all [word .for_, symbol .leftParen,
        oneOf (rule .varDecl) [rule .exprStmt, symbol .semicolon],
        optional (rule .expression), symbol .semicolon, optional (rule .expression),
        symbol .rightParen, rule .statement]
  | .ifStmt =>
      all [word .if_, symbol .leftParen, rule .expression, symbol .rightParen, rule .statement,
        optional (sequence (word .else_) (rule .statement))]
  | .printStmt => all [word .print_, rule .expression, symbol .semicolon]
  | .returnStmt => all [word .return_, optional (rule .expression), symbol .semicolon]
  | .whileStmt =>
      all [word .while_, symbol .leftParen, rule .expression, symbol .rightParen, rule .statement]
  | .block => all [symbol .leftBrace, many none (rule .declaration), symbol .rightBrace]
  | .parameters => entries limit identifier
  | .expression => rule .assignment
  | .assignment =>
      oneOf
        (all [optional (sequence (rule .call) (symbol .dot)), identifier, symbol .equal,
          rule .assignment])
        [rule .logicOr]
  | .logicOr => operands .logicAnd (word .or_)
  | .logicAnd => operands .equality (word .and_)
  | .equality => operands .comparison (oneOf (symbol .bangEqual) [symbol .equalEqual])
  | .comparison =>
      operands .term
        (oneOf (symbol .greater) [symbol .greaterEqual, symbol .less, symbol .lessEqual])
  | .term => operands .factor (oneOf (symbol .minus) [symbol .plus])
  | .factor => operands .unary (oneOf (symbol .slash) [symbol .star])
  | .unary =>
      oneOf (sequence (oneOf (symbol .bang) [symbol .minus]) (rule .unary)) [rule .call]
  | .call =>
      sequence (rule .primary) (many none (oneOf
        (all [symbol .leftParen, optional (rule .arguments), symbol .rightParen])
        [sequence (symbol .dot) identifier]))
  | .arguments => entries limit (rule .expression)
  | .primary =>
      oneOf (terminal .number) [terminal .string, word .true_, word .false_, word .nil_,
        word .this_, identifier, all [symbol .leftParen, rule .expression, symbol .rightParen]]

/-- The words that a pattern stands for in the grammar with this limit. -/
inductive Derives (limit : Option Nat) : Pattern → List Kind → Prop
  | empty : Derives limit .empty []
  | terminal {t : Terminal} {k : Kind} (h : t.Matches k) : Derives limit (.terminal t) [k]
  | rule {r : Rule} {ks : List Kind} (h : Derives limit (grammar limit r) ks) :
      Derives limit (.rule r) ks
  | sequence {p q : Pattern} {ks ls : List Kind} (hp : Derives limit p ks)
      (hq : Derives limit q ls) : Derives limit (.sequence p q) (ks ++ ls)
  | first {p q : Pattern} {ks : List Kind} (h : Derives limit p ks) :
      Derives limit (.choice p q) ks
  | second {p q : Pattern} {ks : List Kind} (h : Derives limit q ks) :
      Derives limit (.choice p q) ks
  | absent {p : Pattern} : Derives limit (.optional p) []
  | present {p : Pattern} {ks : List Kind} (h : Derives limit p ks) :
      Derives limit (.optional p) ks
  | many {most : Option Nat} {p : Pattern} {words : List (List Kind)}
      (hmost : ∀ n, most = some n → words.length ≤ n) (h : ∀ ks ∈ words, Derives limit p ks) :
      Derives limit (.many most p) words.flatten

variable {limit most : Option Nat} {p q : Pattern} {ks ls : List Kind}

@[simp] theorem matches_symbol_iff {s : Symbol} {k : Kind} :
    Terminal.Matches (.symbol s) k ↔ k = .symbol s := by
  constructor
  · intro h
    cases h
    rfl
  · rintro rfl
    exact .symbol s

@[simp] theorem matches_word_iff {w : Keyword} {k : Kind} :
    Terminal.Matches (.word w) k ↔ k = .keyword w := by
  constructor
  · intro h
    cases h
    rfl
  · rintro rfl
    exact .word w

@[simp] theorem matches_identifier_iff {k : Kind} :
    Terminal.Matches .identifier k ↔ k = .identifier := by
  constructor
  · intro h
    cases h
    rfl
  · rintro rfl
    exact .identifier

theorem derives_terminal_iff {x : Terminal} {k : Kind} :
    Derives limit (.terminal x) [k] ↔ x.Matches k := by
  constructor
  · intro h
    cases h with
    | terminal h => exact h
  · exact .terminal

theorem derives_choice_iff :
    Derives limit (.choice p q) ks ↔ Derives limit p ks ∨ Derives limit q ks := by
  constructor
  · intro h
    cases h with
    | first h => exact .inl h
    | second h => exact .inr h
  · rintro (h | h)
    · exact .first h
    · exact .second h

theorem derives_rule_iff {r : Rule} :
    Derives limit (.rule r) ks ↔ Derives limit (grammar limit r) ks := by
  constructor
  · intro h
    cases h with
    | rule h => exact h
  · exact .rule

theorem derives_sequence_iff :
    Derives limit (.sequence p q) ks ↔
      ∃ first second, ks = first ++ second ∧ Derives limit p first ∧ Derives limit q second := by
  constructor
  · intro h
    cases h with
    | sequence hp hq => exact ⟨_, _, rfl, hp, hq⟩
  · rintro ⟨first, second, rfl, hp, hq⟩
    exact .sequence hp hq

theorem derives_many_iff :
    Derives limit (.many most p) ks ↔
      ∃ words : List (List Kind), ks = words.flatten ∧ (∀ n, most = some n → words.length ≤ n) ∧
        ∀ word ∈ words, Derives limit p word := by
  constructor
  · intro h
    cases h with
    | many hmost h => exact ⟨_, rfl, hmost, h⟩
  · rintro ⟨words, rfl, hmost, h⟩
    exact .many hmost h

theorem Derives.many_nil : Derives limit (.many most p) [] :=
  derives_many_iff.mpr ⟨[], rfl, fun _ _ => Nat.zero_le _, by simp⟩

theorem Derives.many_cons (hp : Derives limit p ks) (h : Derives limit (.many none p) ls) :
    Derives limit (.many none p) (ks ++ ls) := by
  obtain ⟨words, rfl, _, hwords⟩ := derives_many_iff.mp h
  refine derives_many_iff.mpr ⟨ks :: words, rfl, by simp, ?_⟩
  intro word hword
  rcases List.mem_cons.mp hword with rfl | hword
  · exact hp
  · exact hwords word hword

theorem Derives.many_concat (h : Derives limit (.many none p) ks) (hp : Derives limit p ls) :
    Derives limit (.many none p) (ks ++ ls) := by
  obtain ⟨words, rfl, _, hwords⟩ := derives_many_iff.mp h
  refine derives_many_iff.mpr ⟨words ++ [ls], by simp, by simp, ?_⟩
  intro word hword
  rcases List.mem_append.mp hword with hword | hword
  · exact hwords word hword
  · rw [List.mem_singleton.mp hword]
    exact hp

theorem Derives.sequence_concat (h : Derives limit (.sequence q (.many none p)) ks)
    (hp : Derives limit p ls) : Derives limit (.sequence q (.many none p)) (ks ++ ls) := by
  obtain ⟨first, second, rfl, hfirst, hsecond⟩ := derives_sequence_iff.mp h
  rw [List.append_assoc]
  exact .sequence hfirst (hsecond.many_concat hp)

theorem Derives.sequence_nil (h : Derives limit p ks) :
    Derives limit (.sequence p (.many most q)) ks := by
  rw [← List.append_nil ks]
  exact .sequence h .many_nil

theorem Derives.entries_cons {n : Nat} (hn : 0 < n) (hp : Derives limit p ks)
    (h : Derives limit (.entries (some n) p) ls) :
    Derives limit (.entries (some (n + 1)) p) (ks ++ .symbol .comma :: ls) := by
  obtain ⟨first, _, rfl, hfirst, hmore⟩ := derives_sequence_iff.mp h
  obtain ⟨words, rfl, hcount, hwords⟩ := derives_many_iff.mp hmore
  have hcount : words.length ≤ n - 1 := hcount _ rfl
  refine derives_sequence_iff.mpr ⟨ks, _, rfl, hp, derives_many_iff.mpr
    ⟨(.symbol .comma :: first) :: words, rfl, ?_, ?_⟩⟩
  · intro m hm
    cases hm
    show words.length + 1 ≤ n
    omega
  · intro word hword
    rcases List.mem_cons.mp hword with rfl | hword
    · exact .sequence (.terminal (.symbol .comma)) hfirst
    · exact hwords word hword

theorem Derives.entries_mono {n m : Nat} (h : Derives limit (.entries (some n) p) ks)
    (hnm : n ≤ m) : Derives limit (.entries (some m) p) ks := by
  obtain ⟨first, _, rfl, hfirst, hmore⟩ := derives_sequence_iff.mp h
  obtain ⟨words, rfl, hcount, hwords⟩ := derives_many_iff.mp hmore
  refine .sequence hfirst (.many ?_ hwords)
  intro k hk
  cases hk
  exact Nat.le_trans (hcount _ rfl) (Nat.sub_le_sub_right hnm 1)

end Lox.Grammar
