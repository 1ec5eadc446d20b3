import Lox.Parsing.Program
import Lox.Proofs.Recovery.Statements

/-!
The places in a list of tokens that reading comes to.

Whatever the list is, reading goes forward only, from its beginning to its first token that ends the
input, or to the end of the list. No declaration stands still, and one that fails is left at a place
from which reading can go on.
-/

namespace Lox.Parsing

variable {tokens rest : List Token} {c c' c'' limit : Nat} {reports : List Diagnostic}

/-- The token at a place. Where there is none, one on the first line ends the input. -/
def tokenAt (tokens : List Token) (c : Nat) : Token := tokens[c]?.getD (.endOfInput 1)

/-- The place of the first token that ends the input. If there is none it is behind all tokens. -/
def lastPlace (tokens : List Token) : Nat := tokens.findIdx Token.isEnd

/-- The tokens that are still to be read at a place. -/
def ahead (tokens : List Token) (c : Nat) : List Token := (contents tokens).drop c

theorem contents_cons_of_isEnd {t : Token} (ht : t.isEnd) (tokens : List Token) :
    contents (t :: tokens) = [] ∧ stop (t :: tokens) = t ∧ lastPlace (t :: tokens) = 0 := by
  simp [contents, stop, lastPlace, ht, List.findIdx_cons]

theorem contents_cons_of_not_isEnd {t : Token} (ht : ¬t.isEnd) (tokens : List Token) :
    contents (t :: tokens) = t :: contents tokens ∧ stop (t :: tokens) = stop tokens ∧
      lastPlace (t :: tokens) = lastPlace tokens + 1 := by
  simp [contents, stop, lastPlace, ht, List.findIdx_cons]

theorem length_contents (tokens : List Token) : (contents tokens).length = lastPlace tokens := by
  induction tokens with
  | nil => rfl
  | cons t tokens ih =>
      by_cases ht : t.isEnd
      · obtain ⟨hcontents, -, hlast⟩ := contents_cons_of_isEnd ht tokens
        rw [hcontents, hlast]
        rfl
      · obtain ⟨hcontents, -, hlast⟩ := contents_cons_of_not_isEnd ht tokens
        rw [hcontents, hlast, List.length_cons, ih]

theorem length_ahead (tokens : List Token) (c : Nat) :
    (ahead tokens c).length = lastPlace tokens - c := by
  rw [ahead, List.length_drop, length_contents]

theorem here_ahead (hc : c ≤ lastPlace tokens) :
    here (stop tokens) (ahead tokens c) = tokenAt tokens c := by
  induction tokens generalizing c with
  | nil =>
      obtain rfl := Nat.le_zero.mp hc
      rfl
  | cons t tokens ih =>
      by_cases ht : t.isEnd
      · obtain ⟨hcontents, hstop, hlast⟩ := contents_cons_of_isEnd ht tokens
        obtain rfl := Nat.le_zero.mp (hlast ▸ hc)
        rw [ahead, hcontents, hstop]
        rfl
      · obtain ⟨hcontents, hstop, hlast⟩ := contents_cons_of_not_isEnd ht tokens
        rw [ahead, hcontents, hstop]
        rw [hlast] at hc
        cases c with
        | zero => rfl
        | succ c => exact ih (Nat.le_of_succ_le_succ hc)

theorem drop_ahead (tokens : List Token) (c k : Nat) :
    (ahead tokens c).drop k = ahead tokens (c + k) := List.drop_drop

theorem exists_place_of_isSuffix (hc : c ≤ lastPlace tokens) (h : rest <:+ ahead tokens c) :
    ∃ c', c ≤ c' ∧ c' ≤ lastPlace tokens ∧ rest = ahead tokens c' := by
  obtain ⟨before, hbefore⟩ := h
  have hlength := length_ahead tokens c
  rw [← hbefore, List.length_append] at hlength
  refine ⟨c + before.length, Nat.le_add_right _ _, by omega, ?_⟩
  rw [← drop_ahead, ← hbefore, List.drop_left]

/-- Reading can go on here after a fault: at the end, after a semicolon, or at a word that starts a
statement. -/
def AtBoundary (tokens : List Token) (c : Nat) : Prop :=
  c = lastPlace tokens ∨ (∃ k, c = k + 1 ∧ (tokenAt tokens k).kind = .symbol .semicolon) ∨
    startsStatement (tokenAt tokens c).kind

theorem Boundary.atBoundary (hle : c ≤ c') (hlast : c' ≤ lastPlace tokens)
    (h : Boundary (ahead tokens c) (ahead tokens c')) : AtBoundary tokens c' := by
  have hlength := length_ahead tokens c'
  have hbegins : c ≤ lastPlace tokens := Nat.le_trans hle hlast
  generalize hahead : ahead tokens c' = rest at h
  cases h with
  | ended =>
      rw [hahead, List.length_nil] at hlength
      exact .inl (by omega)
  | @semicolon before _ t ht htokens =>
      have hplace : c' = c + before.length + 1 := by
        have := length_ahead tokens c
        rw [htokens, List.length_append, List.length_cons, ← hahead, hlength] at this
        omega
      refine .inr (.inl ⟨c + before.length, hplace, ?_⟩)
      rw [← here_ahead (by omega), ← drop_ahead, htokens, List.drop_left]
      exact ht
  | word ht =>
      refine .inr (.inr ?_)
      rw [← here_ahead hlast, hahead]
      exact ht

/-- What comes of a declaration at a place. If it fails, it has come to a token at which it reports
a fault that stops it, after whatever else it reports. All other reports are complaints or of
declarations that begin at later places. -/
inductive DeclaresAt (tokens : List Token) (c : Nat) :
    Option (Stmt Unit) → Nat → List Diagnostic → Prop
  | read {s : Stmt Unit} {c' : Nat} {reports : List Diagnostic}
      (h : Passage (stop tokens) (ahead tokens c).length (ahead tokens c) (ahead tokens c')
        reports) :
      DeclaresAt tokens c (some s) c' reports
  | failed {c' c'' : Nat} {fault : SyntaxFault} {reports : List Diagnostic}
      (h : Passage (stop tokens) (ahead tokens c).length (ahead tokens c) (ahead tokens c'')
        reports)
      (hle : c ≤ c'') (hle' : c'' ≤ c') (hfault : fault.Fatal) (hboundary : AtBoundary tokens c') :
      DeclaresAt tokens c none c' (reports ++ [.syntactic (tokenAt tokens c'') fault])

/-- A declaration that does not begin at the end takes a token. -/
theorem exists_declaresAt (hc : c < lastPlace tokens) :
    ∃ t rest c', ahead tokens c = t :: rest ∧ c < c' ∧ c' ≤ lastPlace tokens ∧
      (declaration Reply (stop tokens) t rest).rest = ahead tokens c' ∧
      DeclaresAt tokens c (declaration Reply (stop tokens) t rest).statement c'
        (declaration Reply (stop tokens) t rest).reports := by
  have hlength := length_ahead tokens c
  cases hahead : ahead tokens c with
  | nil =>
      rw [hahead, List.length_nil] at hlength
      omega
  | cons t rest =>
      have hdeclares := declaration_declares (stop tokens) t rest
      have hsuffix := declaration_isSuffix (stop tokens) t rest
      refine ⟨t, rest, ?_⟩
      generalize declaration Reply (stop tokens) t rest = d at hdeclares hsuffix ⊢
      obtain ⟨statement, after, reports, hprogress⟩ := d
      dsimp only at hdeclares hsuffix ⊢
      rw [← hahead] at hdeclares hsuffix hprogress
      obtain ⟨c', hle, hlast, rfl⟩ := exists_place_of_isSuffix (Nat.le_of_lt hc) hsuffix
      have hlt : c < c' := by
        rw [length_ahead, length_ahead] at hprogress
        omega
      refine ⟨c', rfl, hlt, hlast, rfl, ?_⟩
      rcases hdeclares with h | ⟨h, ⟨f, hf, rfl⟩, hrest, hboundary⟩
      · exact .read h
      · obtain ⟨c'', hle', hlast', rfl⟩ := exists_place_of_isSuffix (Nat.le_of_lt hc) h.isSuffix
        have hle'' : c'' ≤ c' := by
          have := hrest.length_le
          rw [length_ahead, length_ahead] at this
          omega
        rw [here_ahead hlast']
        exact .failed h hle' hle'' hf (hboundary.atBoundary hle'' hlast)

/-- From this place one declaration after another is read, until none is left. -/
inductive ReadFrom (tokens : List Token) : Nat → List (Stmt Unit) → List Diagnostic → Prop
  | done : ReadFrom tokens (lastPlace tokens) [] []
  | declaration {c c' : Nat} {t : Token} {rest : List Token} {ss : List (Stmt Unit)}
      {reports : List Diagnostic} (hc : ahead tokens c = t :: rest)
      (hc' : (declaration Reply (stop tokens) t rest).rest = ahead tokens c') (hlt : c < c')
      (hlast : c' ≤ lastPlace tokens) (h : ReadFrom tokens c' ss reports) :
      ReadFrom tokens c ((declaration Reply (stop tokens) t rest).statement.toList ++ ss)
        ((declaration Reply (stop tokens) t rest).reports ++ reports)

theorem exists_readFrom (tokens : List Token) (c : Nat) (before : Array (Stmt Unit))
    (reports : Array Diagnostic) (hc : c ≤ lastPlace tokens) :
    ∃ ss more, declarationsAfter (stop tokens) before reports (ahead tokens c) =
      ⟨before.toList ++ ss, reports.toList ++ more⟩ ∧ ReadFrom tokens c ss more := by
  rcases Nat.eq_or_lt_of_le hc with rfl | hlt
  · have hnil : ahead tokens (lastPlace tokens) = [] := by
      rw [← List.length_eq_zero_iff, length_ahead, Nat.sub_self]
    rw [hnil, declarationsAfter]
    exact ⟨[], [], by simp, .done⟩
  · obtain ⟨t, rest, c', hahead, hlt', hlast, hrest, -⟩ := exists_declaresAt hlt
    obtain ⟨ss, more, hread, hss⟩ := exists_readFrom tokens c'
      (before ++ (declaration Reply (stop tokens) t rest).statement.toList)
      (reports ++ (declaration Reply (stop tokens) t rest).reports) hlast
    have hdeclaration := ReadFrom.declaration hahead hrest hlt' hlast hss
    refine ⟨_, _, ?_, hdeclaration⟩
    rw [hahead, declarationsAfter]
    rw [← hrest] at hread
    refine hread.trans ?_
    simp
termination_by lastPlace tokens - c

/-- A single expression is read up to a place, at which a token that is left over is reported if it
is not the end, or else the fault at which the expression fails. -/
theorem exists_singleExpression (tokens : List Token) :
    ∃ c reports, c ≤ lastPlace tokens ∧
      Passage (stop tokens) 0 (ahead tokens 0) (ahead tokens c) reports ∧
      ((∃ e, singleExpression tokens = ⟨some e, reports ++
          if c = lastPlace tokens then [] else [.syntactic (tokenAt tokens c) .missingEnd]⟩) ∨
        ∃ fault : SyntaxFault, fault.Fatal ∧ singleExpression tokens =
          ⟨none, reports ++ [.syntactic (tokenAt tokens c) fault]⟩) := by
  have hproceeds : (expression Reply (stop tokens) (ahead tokens 0)).Proceeds (stop tokens) 0 :=
    expression_proceeds _
  have hplace : ∀ {rest reports}, Passage (stop tokens) 0 (ahead tokens 0) rest reports →
      ∃ c, c ≤ lastPlace tokens ∧ rest = ahead tokens c := by
    intro rest reports h
    obtain ⟨c, -, hlast, hrest⟩ := exists_place_of_isSuffix (Nat.zero_le _) h.isSuffix
    exact ⟨c, hlast, hrest⟩
  unfold singleExpression
  rw [Reply.Proceeds, ahead, List.drop_zero] at hproceeds
  cases houtcome : (expression Reply (stop tokens) (contents tokens)).val with
  | refused fault rest reports =>
      rw [houtcome] at hproceeds
      obtain ⟨hpassage, f, hf, rfl⟩ := hproceeds
      obtain ⟨c, hlast, rfl⟩ := hplace hpassage
      refine ⟨c, reports, hlast, hpassage, .inr ⟨f, hf, ?_⟩⟩
      rw [here_ahead hlast]
  | accepted e rest reports =>
      rw [houtcome] at hproceeds
      obtain ⟨c, hlast, rfl⟩ := hplace hproceeds
      refine ⟨c, reports, hlast, hproceeds, .inl ⟨e, ?_⟩⟩
      have hlength := length_ahead tokens c
      have hhere := here_ahead hlast
      cases hahead : ahead tokens c with
      | nil =>
          rw [hahead, List.length_nil] at hlength
          rw [if_pos (by omega), List.append_nil]
      | cons t rest =>
          rw [hahead, List.length_cons] at hlength
          rw [hahead] at hhere
          rw [if_neg (by omega), ← hhere]
          rfl

section

variable {before : List Token} {last : Token}

theorem contents_append_of_not_isEnd (hbefore : ∀ t ∈ before, ¬t.isEnd) (after : List Token) :
    contents (before ++ after) = before ++ contents after ∧
      stop (before ++ after) = stop after := by
  constructor
  · exact List.takeWhile_append_of_pos (by simpa using hbefore)
  · rw [stop, stop, List.find?_append, List.find?_eq_none.mpr hbefore, Option.none_or]

theorem contents_append_cons (hbefore : ∀ t ∈ before, ¬t.isEnd) (hlast : last.isEnd)
    (after : List Token) :
    contents (before ++ last :: after) = before ∧ stop (before ++ last :: after) = last := by
  obtain ⟨hcontents, hstop⟩ := contents_append_of_not_isEnd hbefore (last :: after)
  obtain ⟨hnone, hlast, -⟩ := contents_cons_of_isEnd hlast after
  rw [hcontents, hstop, hnone, hlast, List.append_nil]
  exact ⟨rfl, rfl⟩

theorem contents_of_not_isEnd (h : ∀ t ∈ tokens, ¬t.isEnd) :
    contents tokens = tokens ∧ stop tokens = .endOfInput 1 := by
  obtain ⟨hcontents, hstop⟩ := contents_append_of_not_isEnd h []
  rw [List.append_nil] at hcontents hstop
  exact ⟨hcontents.trans (List.append_nil tokens), hstop⟩

end

theorem program_eq_of_contents {tokens' : List Token}
    (hcontents : contents tokens = contents tokens') (hstop : stop tokens = stop tokens') :
    program tokens = program tokens' ∧ singleExpression tokens = singleExpression tokens' := by
  unfold program singleExpression
  rw [hcontents, hstop]
  exact ⟨rfl, rfl⟩

/-- In any list of tokens reading goes forward only, and no further than to the first token that
ends the input. A declaration that does not begin there takes a token. If it fails, it reports one
fault that stops it, and goes on at a boundary. Programs and single expressions are read to an end,
from the tokens up to the first that ends the input, and without one as if one of the first line
followed. -/
theorem recovery_progresses (tokens : List Token) :
    (∀ c limit rest reports, c ≤ lastPlace tokens →
      Passage (stop tokens) limit (ahead tokens c) rest reports →
        ∃ c', c ≤ c' ∧ c' ≤ lastPlace tokens ∧ rest = ahead tokens c') ∧
    (∀ c, c < lastPlace tokens →
      ∃ t rest c', ahead tokens c = t :: rest ∧ c < c' ∧ c' ≤ lastPlace tokens ∧
        (declaration Reply (stop tokens) t rest).rest = ahead tokens c' ∧
        DeclaresAt tokens c (declaration Reply (stop tokens) t rest).statement c'
          (declaration Reply (stop tokens) t rest).reports) ∧
    ReadFrom tokens 0 (program tokens).value (program tokens).reports ∧
    (∃ c reports, c ≤ lastPlace tokens ∧
      Passage (stop tokens) 0 (ahead tokens 0) (ahead tokens c) reports ∧
      ((∃ e, singleExpression tokens = ⟨some e, reports ++
          if c = lastPlace tokens then [] else [.syntactic (tokenAt tokens c) .missingEnd]⟩) ∨
        ∃ fault : SyntaxFault, fault.Fatal ∧ singleExpression tokens =
          ⟨none, reports ++ [.syntactic (tokenAt tokens c) fault]⟩)) ∧
    (∀ before last after after', tokens = before ++ last :: after →
      (∀ t ∈ before, ¬t.isEnd) → last.isEnd →
        program tokens = program (before ++ last :: after') ∧
          singleExpression tokens = singleExpression (before ++ last :: after')) ∧
    ((∀ t ∈ tokens, ¬t.isEnd) →
      program tokens = program (tokens ++ [.endOfInput 1]) ∧
        singleExpression tokens = singleExpression (tokens ++ [.endOfInput 1])) := by
  refine ⟨?_, ?_, ?_, exists_singleExpression tokens, ?_, ?_⟩
  · intro c limit rest reports hc h
    exact exists_place_of_isSuffix hc h.isSuffix
  · intro c hc
    exact exists_declaresAt hc
  · obtain ⟨ss, more, hread, hss⟩ := exists_readFrom tokens 0 #[] #[] (Nat.zero_le _)
    rw [ahead, List.drop_zero] at hread
    rw [program, hread]
    exact hss
  · rintro before last after after' rfl hbefore hlast
    obtain ⟨hcontents, hstop⟩ := contents_append_cons hbefore hlast after
    obtain ⟨hcontents', hstop'⟩ := contents_append_cons hbefore hlast after'
    exact program_eq_of_contents (hcontents.trans hcontents'.symm) (hstop.trans hstop'.symm)
  · intro h
    obtain ⟨hcontents, hstop⟩ := contents_of_not_isEnd h
    have hend : (Token.endOfInput 1).isEnd := rfl
    obtain ⟨hcontents', hstop'⟩ := contents_append_cons h hend []
    exact program_eq_of_contents (hcontents.trans hcontents'.symm) (hstop.trans hstop'.symm)

/-- A word alone does not make a declaration, and it does not matter what follows the end. -/
theorem recovery_progresses_of_word :
    (∃ c' reports, 0 < c' ∧ DeclaresAt [⟨.keyword .print_, "print", 1⟩] 0 none c' reports) ∧
    program [⟨.keyword .print_, "print", 1⟩] =
      program [⟨.keyword .print_, "print", 1⟩, .endOfInput 1] ∧
    program [.endOfInput 1] = program [.endOfInput 1, ⟨.keyword .print_, "print", 1⟩] := by
  let word : Token := ⟨.keyword .print_, "print", 1⟩
  have hword : ∀ t ∈ [word], ¬t.isEnd := by decide
  obtain ⟨-, hdeclares, -, -, -, hclosed⟩ := recovery_progresses [word]
  obtain ⟨-, -, -, -, hignored, -⟩ := recovery_progresses [.endOfInput 1]
  obtain ⟨t, rest, c', hahead, hlt, -, -, hdeclares⟩ := hdeclares 0 (by decide)
  have hahead' : ahead [word] 0 = [word] := rfl
  obtain ⟨rfl, rfl⟩ := List.cons.inj (hahead'.symm.trans hahead)
  have hstatement : (declaration Reply (stop [word]) word []).statement = none := by cbv
  rw [hstatement] at hdeclares
  exact ⟨⟨c', _, hlt, hdeclares⟩, (hclosed hword).1,
    (hignored [] _ [] [word] rfl (List.forall_mem_nil _) rfl).1⟩

end Lox.Parsing
