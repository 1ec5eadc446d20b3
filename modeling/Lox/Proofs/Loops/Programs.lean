import Lox.Proofs.Loops.Reading
import Lox.Proofs.Recovery.Cursors
import Lox.Proofs.Relining.Resolver

/-!
Programs that are read without a report, with a `while` for each `for`.

They are read as before. So what is found when their names are resolved is the same, on whatever
lines the new text stands and whatever labels its tree is given.
-/

namespace Lox

open Resolution

namespace Parsing

variable {tokens : List Token} {ss : List (Stmt Unit)}

theorem contents_withoutFor_of_isEnd (h : ∀ t ∈ tokens.head?, t.isEnd) :
    contents (withoutFor tokens) = [] := by
  cases tokens with
  | nil =>
      rw [withoutFor_nil]
      rfl
  | cons t tokens =>
      have ht : t.isEnd := h t rfl
      have hfor : t.kind ≠ .keyword .for_ := by
        rw [of_decide_eq_true ht]
        decide
      rw [withoutFor_cons hfor]
      simp [contents, ht]

theorem exists_contents_append (tokens : List Token) :
    ∃ tail, tokens = contents tokens ++ tail ∧ ∀ t ∈ tail.head?, t.isEnd := by
  refine ⟨tokens.dropWhile fun t => !t.isEnd, List.takeWhile_append_dropWhile.symm, fun t ht => ?_⟩
  have hstops := List.head?_dropWhile_not (fun t => !t.isEnd) tokens
  rw [ht] at hstops
  simpa using hstops

/-- The same declarations are there, without a `for`. -/
theorem ReadsAsStmt.contents_withoutFor (h : ReadsAsStmt (contents tokens) (.declarations ss)) :
    ReadsAsStmt (contents (withoutFor tokens)) (.declarations ss) ∧
      ∀ t ∈ contents (withoutFor tokens), t.kind ≠ .keyword .for_ := by
  obtain ⟨us, hus, hstands⟩ := h.exists_becomes
  obtain ⟨tail, htokens, htail⟩ := exists_contents_append tokens
  have hnoElse : NoElse tail := by
    intro t ht
    rw [of_decide_eq_true (htail t ht)]
    decide
  have hkinds {t : Token} (ht : t ∈ us) : t.kind ≠ .keyword .for_ ∧ ¬t.isEnd := by
    have hkept := hus.kept t ht
    constructor
    · intro hkind
      rw [hkind] at hkept
      cases hkept
    · intro hend
      rw [of_decide_eq_true hend] at hkept
      cases hkept
  have hcontents : contents (withoutFor tokens) = us := by
    rw [htokens, hus.eq tail hnoElse,
      (contents_append_of_not_isEnd (fun t ht => (hkinds ht).2) _).1,
      contents_withoutFor_of_isEnd htail, List.append_nil]
  rw [hcontents]
  exact ⟨hstands, fun t ht => (hkinds ht).1⟩

/-- A program that is read without a report is read as the same program with a `while` for each
`for`. If the tokens are moved to other lines, that changes lines only: with whatever labels, both
programs have the same distances at the same references, and the same reports on their names. -/
theorem program_withoutFor (h : (program tokens).reports = []) :
    (∀ t ∈ contents (withoutFor tokens), t.kind ≠ .keyword .for_) ∧
      program (withoutFor tokens) = program tokens ∧
      ∀ tokens' : List Token,
        tokens'.map Token.unlined = (withoutFor tokens).map Token.unlined →
          (program tokens').reports = [] ∧
          Stmt.unlinedAll (program tokens').value = Stmt.unlinedAll (program tokens).value ∧
          ∀ (globals : List String) (p p' : List (Stmt NodeId)),
            Stmt.shapeAll p = (program tokens).value →
            Stmt.shapeAll p' = (program tokens').value →
            ((Stmt.referencesAll p).map Reference.label).Nodup →
            ((Stmt.referencesAll p').map Reference.label).Nodup →
              (resolve globals p').reports.map Diagnostic.unlined =
                (resolve globals p).reports.map Diagnostic.unlined ∧
              ∃ f : NodeId → NodeId, (Stmt.referencesAll p').map Reference.label =
                  ((Stmt.referencesAll p).map Reference.label).map f ∧
                ∀ node distance, (resolve globals p').hops[node]? = some distance ↔
                  ∃ n, f n = node ∧ (resolve globals p).hops[n]? = some distance := by
  have hprogram : program tokens = ⟨(program tokens).value, []⟩ := by rw [← h]
  obtain ⟨hreads, hfor⟩ := (program_eq_iff.mp hprogram).contents_withoutFor
  have hsame : program (withoutFor tokens) = program tokens :=
    (program_eq_iff.mpr hreads).trans hprogram.symm
  refine ⟨hfor, hsame, fun tokens' htokens => ?_⟩
  obtain ⟨hreports, hvalue⟩ := program_relined (hsame ▸ h) htokens
  rw [hsame] at hvalue
  refine ⟨hreports, hvalue, fun globals p p' hp hp' hnodup hnodup' => ?_⟩
  refine resolve_relined ?_ hnodup hnodup'
  rw [hp, hp', hvalue]

/-- `for (var i = nil; i; i = true) print i;` and its `while`. Labels in the order of the text go to
other references, and the distances go with them. -/
theorem program_withoutFor_of_loop :
    let tree (condition read write : NodeId) (line : Nat) : List (Stmt NodeId) :=
      [.block [.var ⟨.identifier, "i", 1⟩ (some (.literal .nil)),
        .loop (.var condition ⟨.identifier, "i", line⟩)
          (.block [.print (.var read ⟨.identifier, "i", line⟩),
            .expression (.assign write ⟨.identifier, "i", line⟩ (.literal (.boolean true)))])]]
    (program [.mark .leftBrace, .word .var_, ⟨.identifier, "i", 1⟩, .mark .equal, .word .nil_,
        .mark .semicolon, .word .while_, .mark .leftParen, ⟨.identifier, "i", 2⟩, .mark .rightParen,
        .mark .leftBrace, .word .print_, ⟨.identifier, "i", 2⟩, .mark .semicolon,
        ⟨.identifier, "i", 2⟩, .mark .equal, .word .true_, .mark .semicolon, .mark .rightBrace,
        .mark .rightBrace, .endOfInput 2]).reports = [] ∧
      (resolve [] (tree 0 1 2 2)).reports = [] ∧
      ∃ f : NodeId → NodeId, [0, 1, 2] = [0, 2, 1].map f ∧
        ∀ node distance, (resolve [] (tree 0 1 2 2)).hops[node]? = some distance ↔
          ∃ n, f n = node ∧ (resolve [] (tree 0 2 1 1)).hops[n]? = some distance := by
  intro tree
  have hread : program [.word .for_, .mark .leftParen, .word .var_, ⟨.identifier, "i", 1⟩,
      .mark .equal, .word .nil_, .mark .semicolon, ⟨.identifier, "i", 1⟩, .mark .semicolon,
      ⟨.identifier, "i", 1⟩, .mark .equal, .word .true_, .mark .rightParen, .word .print_,
      ⟨.identifier, "i", 1⟩, .mark .semicolon, .endOfInput 1] =
      ⟨Stmt.shapeAll (tree 0 2 1 1), []⟩ := by cbv
  obtain ⟨-, -, hlines⟩ := program_withoutFor (congrArg Parsed.reports hread)
  obtain ⟨hreports, -, hnames⟩ := hlines
    [.mark .leftBrace, .word .var_, ⟨.identifier, "i", 1⟩, .mark .equal, .word .nil_,
      .mark .semicolon, .word .while_, .mark .leftParen, ⟨.identifier, "i", 2⟩, .mark .rightParen,
      .mark .leftBrace, .word .print_, ⟨.identifier, "i", 2⟩, .mark .semicolon,
      ⟨.identifier, "i", 2⟩, .mark .equal, .word .true_, .mark .semicolon, .mark .rightBrace,
      .mark .rightBrace, .endOfInput 2] (by cbv)
  obtain ⟨hfaults, hhops⟩ := hnames [] (tree 0 2 1 1) (tree 0 1 2 2)
    (congrArg Parsed.value hread).symm (by cbv) (by decide) (by decide)
  have hnone : (resolve [] (tree 0 2 1 1)).reports = [] := by decide
  rw [hnone] at hfaults
  exact ⟨hreports, List.map_eq_nil_iff.mp hfaults, hhops⟩

end Parsing

end Lox
