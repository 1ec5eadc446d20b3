import Lox.Proofs.Loops.Rewriting
import Lox.Proofs.Syntax.Linearization

namespace Lox.Parsing

variable {ts us ts' us' is cs ns : List Token} {next next' : List Token → Prop}

/-- Replacing the loops among the tokens `ts` gives `us`, where what comes next allows it. -/
structure Becomes (ts us : List Token) (next : List Token → Prop) : Prop where
  kept : ∀ t ∈ us, isKept t.kind
  eq : ∀ rest, next rest → withoutFor (ts ++ rest) = us ++ withoutFor rest

namespace Becomes

theorem nil : Becomes [] [] next := ⟨by simp, fun _ _ => rfl⟩

theorem cons {t : Token} {k : Kind} (ht : t.kind = k) (hk : isKept k) (h : Becomes ts us next) :
    Becomes (t :: ts) (t :: us) next := by
  subst ht
  refine ⟨List.forall_mem_cons.mpr ⟨hk, h.kept⟩, fun rest hrest => ?_⟩
  have hfor : t.kind ≠ .keyword .for_ := by
    intro hkind
    rw [hkind] at hk
    cases hk
  rw [List.cons_append, withoutFor_cons hfor, h.eq rest hrest, List.cons_append]

theorem append (h : Becomes ts us next) (h' : Becomes ts' us' next')
    (hnext : ∀ rest, next' rest → next (ts' ++ rest)) :
    Becomes (ts ++ ts') (us ++ us') next' := by
  refine ⟨List.forall_mem_append.mpr ⟨h.kept, h'.kept⟩, fun rest hrest => ?_⟩
  rw [List.append_assoc, h.eq _ (hnext rest hrest), h'.eq rest hrest, List.append_assoc]

theorem mono (h : Becomes ts us next) (hnext : ∀ rest, next' rest → next rest) :
    Becomes ts us next' :=
  ⟨h.kept, fun rest hrest => h.eq rest (hnext rest hrest)⟩

theorem after (hts : ∀ t ∈ ts, isKept t.kind) (h : Becomes ts' us' next) :
    Becomes (ts ++ ts') (ts ++ us') next := by
  induction ts with
  | nil => exact h
  | cons t ts ih =>
      obtain ⟨ht, hts⟩ := List.forall_mem_cons.mp hts
      exact .cons rfl ht (ih hts)

theorem of_kept (hts : ∀ t ∈ ts, isKept t.kind) : Becomes ts ts next := by
  have h : Becomes (ts ++ []) (ts ++ []) next := after hts nil
  rwa [List.append_nil] at h

end Becomes

theorem ReadsAs.kept {e : Expr Unit} (h : ReadsAs ts (.expression e)) :
    ∀ t ∈ ts, isKept t.kind := by
  intro t ht
  have hkind := h.kinds_inExpressions List.nil_suffix t ht
  unfold isKept
  split
  · rename_i hfor
    rw [hfor] at hkind
    exact absurd hkind (by decide)
  · rename_i hend
    rw [hend] at hkind
    exact absurd hkind (by decide)
  · rfl

theorem ReadsAsOption.kept {e : Option (Expr Unit)} (h : ReadsAsOption ts e) :
    ∀ t ∈ ts, isKept t.kind := by
  cases e with
  | none =>
      cases h
      simp
  | some e => exact ReadsAs.kept h

theorem ReadsAsVariable.kept {s : Stmt Unit} (h : ReadsAsVariable ts s) :
    ∀ t ∈ ts, isKept t.kind := by
  cases h with
  | bare hname hsemicolon => simp [hname, hsemicolon, isKept]
  | initial hname hequals he hsemicolon =>
      simp only [List.forall_mem_cons, List.forall_mem_append, hname, hequals, hsemicolon]
      exact ⟨rfl, rfl, he.kept, rfl, by simp⟩

theorem ReadsAsInitial.kept {s : Option (Stmt Unit)} (h : ReadsAsInitial ts s) :
    ∀ t ∈ ts, isKept t.kind := by
  cases h with
  | none h => simp [h, isKept]
  | var_ hword h =>
      rw [List.forall_mem_cons, hword]
      exact ⟨rfl, h.kept⟩
  | expression h hsemicolon =>
      rw [List.forall_mem_append, List.forall_mem_singleton, hsemicolon]
      exact ⟨h.kept, rfl⟩

theorem ReadsAsNames.kept {names : List Token} (h : ReadsAsNames ts names) :
    ∀ t ∈ ts, isKept t.kind := by
  induction h with
  | last hname => simp [hname, isKept]
  | more hname hcomma _ ih => simpa [hname, hcomma, isKept] using ih

theorem ReadsAsParameters.kept {names : List Token} (h : ReadsAsParameters ts names) :
    ∀ t ∈ ts, isKept t.kind := by
  cases h with
  | none => simp
  | some h _ => exact h.kept

theorem ReadsAsInitial.declaration {s : Stmt Unit} (h : ReadsAsInitial is (some s)) :
    is.length ≠ 1 ∧ ReadsAsStmt is (.declaration s) := by
  cases h with
  | var_ hword h =>
      obtain ⟨name, rest, rfl, -⟩ := h.cons
      exact ⟨by simp, .var_ hword h⟩
  | expression h hsemicolon =>
      obtain ⟨t, rest, rfl, -⟩ := h.starts (by simp)
      exact ⟨by simp, .statement (.expression h hsemicolon)⟩

theorem readsAs_true : ReadsAs [Token.word .true_] (.expression (.literal (.boolean true))) :=
  (readsAs_yield (.literal (.boolean true) : Expr Unit) rfl).descend (Nat.zero_le _)

theorem ReadsAsOption.givenCondition {condition : Option (Expr Unit)}
    (h : ReadsAsOption cs condition) :
    ReadsAs (givenCondition cs) (.expression (condition.getD (.literal (.boolean true)))) := by
  cases condition with
  | none =>
      cases h
      exact readsAs_true
  | some e =>
      obtain ⟨t, more, rfl, -⟩ := ReadsAs.starts h (by simp)
      exact h

theorem ReadsAsStmt.braced {ss : List (Stmt Unit)} (h : ReadsAsStmt ts (.declarations ss)) :
    ReadsAsStmt (braced ts) (.statement true (.block ss)) :=
  .block rfl h rfl

theorem exists_readsAs_body {condition : Expr Unit} {increment : Option (Expr Unit)} {closed : Bool}
    {body : Stmt Unit} (hcondition : ReadsAs cs (.expression condition))
    (hincrement : ReadsAsOption ns increment) (hbody : ReadsAsStmt us (.statement closed body)) :
    ∃ closed' : Bool, (closed → closed') ∧
      ReadsAsStmt (.word .while_ :: .mark .leftParen ::
          (cs ++ .mark .rightParen :: wholeBody ns us))
        (.statement closed' (forLoop none (some condition) increment body)) := by
  cases increment with
  | none =>
      cases hincrement
      exact ⟨closed, id, .loop rfl rfl hcondition rfl hbody⟩
  | some e =>
      obtain ⟨t, more, rfl, -⟩ := ReadsAs.starts hincrement (by simp)
      have hlast : ReadsAsStmt (t :: more ++ [.mark .semicolon])
          (.statement true (.expression e)) := .expression hincrement rfl
      have hboth := ReadsAsStmt.declarations (.statement hbody)
        (.declarations (.statement hlast) .noDeclarations)
      rw [List.append_nil] at hboth
      exact ⟨true, fun _ => rfl, .loop rfl rfl hcondition rfl hboth.braced⟩

/-- The loop stands for what a `for` with its clauses stands for. -/
theorem exists_readsAs_whileLoop {initial : Option (Stmt Unit)}
    {condition increment : Option (Expr Unit)} {closed : Bool} {body : Stmt Unit}
    (hinitial : ReadsAsInitial is initial) (hcondition : ReadsAsOption cs condition)
    (hincrement : ReadsAsOption ns increment) (hbody : ReadsAsStmt us (.statement closed body)) :
    ∃ closed' : Bool, (closed → closed') ∧ ReadsAsStmt (whileLoop is cs ns us)
      (.statement closed' (forLoop initial condition increment body)) := by
  obtain ⟨closed', hclosed, hloop⟩ :=
    exists_readsAs_body hcondition.givenCondition hincrement hbody
  cases initial with
  | none =>
      cases hinitial
      exact ⟨closed', hclosed, hloop⟩
  | some s =>
      obtain ⟨hlength, hs⟩ := hinitial.declaration
      have hboth := ReadsAsStmt.declarations hs
        (.declarations (.statement hloop) .noDeclarations)
      rw [List.append_nil] at hboth
      rw [whileLoop, if_neg hlength]
      exact ⟨true, fun _ => rfl, hboth.braced⟩

theorem kept_braced (hts : ∀ t ∈ ts, isKept t.kind) : ∀ t ∈ braced ts, isKept t.kind := by
  rw [braced, List.forall_mem_cons, List.forall_mem_append, List.forall_mem_singleton]
  exact ⟨rfl, hts, rfl⟩

theorem kept_whileLoop (his : ∀ t ∈ is, isKept t.kind) (hcs : ∀ t ∈ cs, isKept t.kind)
    (hns : ∀ t ∈ ns, isKept t.kind) (hus : ∀ t ∈ us, isKept t.kind) :
    ∀ t ∈ whileLoop is cs ns us, isKept t.kind := by
  have hcondition : ∀ t ∈ givenCondition cs, isKept t.kind := by
    unfold givenCondition
    split
    · simp [Token.word, isKept]
    · exact hcs
  have hbody : ∀ t ∈ wholeBody ns us, isKept t.kind := by
    unfold wholeBody
    split
    · exact hus
    · refine kept_braced ?_
      simp only [List.forall_mem_append, List.forall_mem_singleton]
      exact ⟨hus, hns, rfl⟩
  have hloop : ∀ t ∈ Token.word .while_ :: .mark .leftParen ::
      (givenCondition cs ++ .mark .rightParen :: wholeBody ns us), isKept t.kind := by
    simp only [List.forall_mem_cons, List.forall_mem_append]
    exact ⟨rfl, rfl, hcondition, rfl, hbody⟩
  unfold whileLoop
  split
  · exact hloop
  · exact kept_braced (List.forall_mem_append.mpr ⟨his, hloop⟩)

theorem Becomes.forLoop {word l semicolon r : Token} {initial : Option (Stmt Unit)}
    {condition increment : Option (Expr Unit)} {closed : Bool} {body : Stmt Unit}
    (hword : word.kind = .keyword .for_) (hl : l.kind = .symbol .leftParen)
    (hinitial : ReadsAsInitial is initial) (hcondition : ReadsAsOption cs condition)
    (hsemicolon : semicolon.kind = .symbol .semicolon) (hincrement : ReadsAsOption ns increment)
    (hr : r.kind = .symbol .rightParen) (hbody : ReadsAsStmt us (.statement closed body))
    (h : Becomes us us' fun rest => closed = false → NoElse rest) :
    Becomes (word :: l :: (is ++ (cs ++ semicolon :: (ns ++ r :: us)))) (whileLoop is cs ns us')
      fun rest => closed = false → NoElse rest := by
  have hus := h.eq [] fun _ => by simp [NoElse]
  rw [withoutFor_nil, List.append_nil, List.append_nil] at hus
  refine ⟨kept_whileLoop hinitial.kept hcondition.kept hincrement.kept h.kept,
    fun rest hrest => ?_⟩
  have hfor := withoutFor_for hl hinitial hcondition hsemicolon hincrement hr hbody hrest hword
  rw [hus] at hfor
  simpa using hfor

/-- What may come after a phrase. An `else` would belong to a statement that is not closed. -/
def StmtPhrase.MayPrecede (rest : List Token) : StmtPhrase → Prop
  | .declaration _ => NoElse rest
  | .statement closed _ => closed = false → NoElse rest
  | .declarations _ => NoElse rest
  | _ => True

/-- The tokens stand for the phrase, or for a closed statement where another would do. -/
def StandsFor (ts : List Token) : StmtPhrase → Prop
  | .statement closed s =>
      ∃ closed' : Bool, (closed → closed') ∧ ReadsAsStmt ts (.statement closed' s)
  | p => ReadsAsStmt ts p

/-- A loop inside the phrase is read as it is after its own body has been replaced. So the induction
is on the reading, and what may come after a part is what the parts around it put there. -/
theorem ReadsAsStmt.exists_becomes {p : StmtPhrase} (h : ReadsAsStmt ts p) :
    ∃ us, Becomes ts us (fun rest => p.MayPrecede rest) ∧ StandsFor us p := by
  induction h with
  | expression he hsemicolon =>
      exact ⟨_, .after he.kept (.cons hsemicolon rfl .nil), true, id,
        .expression he hsemicolon⟩
  | print hword he hsemicolon =>
      exact ⟨_, .cons hword rfl
        (.after he.kept (.cons hsemicolon rfl .nil)), true, id,
        .print hword he hsemicolon⟩
  | ret hword hvalue hsemicolon =>
      exact ⟨_, .cons hword rfl
        (.after hvalue.kept (.cons hsemicolon rfl .nil)), true, id,
        .ret hword hvalue hsemicolon⟩
  | block hl _ hr ih =>
      obtain ⟨us, hus, hstands⟩ := ih
      exact ⟨_, .cons hl rfl (hus.append
        (.cons hr rfl .nil) fun _ _ => NoElse.of_rightBrace hr), true, id,
        .block hl hstands hr⟩
  | branch hword hl hcondition hr _ ih =>
      obtain ⟨us, hus, closed', -, hstands⟩ := ih
      exact ⟨_, .cons hword rfl (.cons hl rfl
        (.after hcondition.kept (.cons hr rfl
          (hus.mono fun _ h _ => h rfl)))), false, id, .branch hword hl hcondition hr hstands⟩
  | branches hword hl hcondition hr _ hother _ ih ihother =>
      obtain ⟨us, hus, closed', hclosed, hstands⟩ := ih
      obtain ⟨vs, hvs, closed'', hclosed', hstands'⟩ := ihother
      -- an `else` comes after the first part, which is closed and has stayed so
      rw [hclosed rfl] at hstands
      exact ⟨_, .cons hword rfl (.cons hl rfl
        (.after hcondition.kept (.cons hr rfl
          (hus.append (.cons hother rfl hvs) fun _ _ h => by cases h)))),
        closed'', hclosed', .branches hword hl hcondition hr hstands hother hstands'⟩
  | loop hword hl hcondition hr _ ih =>
      obtain ⟨us, hus, closed', hclosed, hstands⟩ := ih
      exact ⟨_, .cons hword rfl (.cons hl rfl
        (.after hcondition.kept (.cons hr rfl hus))), closed', hclosed,
        .loop hword hl hcondition hr hstands⟩
  | forLoop hword hl hinitial hcondition hsemicolon hincrement hr hbody ih =>
      obtain ⟨us, hus, closed', hclosed, hstands⟩ := ih
      obtain ⟨closed'', hclosed', hloop⟩ :=
        exists_readsAs_whileLoop hinitial hcondition hincrement hstands
      exact ⟨_, hus.forLoop hword hl hinitial hcondition hsemicolon hincrement hr hbody,
        closed'', fun h => hclosed' (hclosed h), hloop⟩
  | statement _ ih =>
      obtain ⟨us, hus, closed', -, hstands⟩ := ih
      exact ⟨us, hus.mono fun _ h _ => h, .statement hstands⟩
  | var_ hword h =>
      exact ⟨_, .cons hword rfl (.of_kept h.kept), .var_ hword h⟩
  | function hword _ ih =>
      obtain ⟨us, hus, hstands⟩ := ih
      exact ⟨_, .cons hword rfl (hus.mono fun _ _ => trivial),
        .function hword hstands⟩
  | class_ hword hname hl _ hr ih =>
      obtain ⟨us, hus, hstands⟩ := ih
      exact ⟨_, .cons hword rfl (.cons hname rfl
        (.cons hl rfl (hus.append (.cons hr rfl .nil)
          fun _ _ => trivial))), .class_ hword hname hl hstands hr⟩
  | noDeclarations => exact ⟨[], .nil, .noDeclarations⟩
  | declarations _ hss ih ihss =>
      obtain ⟨us, hus, hstands⟩ := ih
      obtain ⟨vs, hvs, hstands'⟩ := ihss
      exact ⟨_, hus.append hvs fun _ => hss.noElse_append, .declarations hstands hstands'⟩
  | noMethods => exact ⟨[], .nil, .noMethods⟩
  | methods _ _ ih ihds =>
      obtain ⟨us, hus, hstands⟩ := ih
      obtain ⟨vs, hvs, hstands'⟩ := ihds
      exact ⟨_, hus.append hvs fun _ _ => trivial, .methods hstands hstands'⟩
  | body hname hl hparams hr hopen _ hclose ih =>
      obtain ⟨us, hus, hstands⟩ := ih
      exact ⟨_, .cons hname rfl (.cons hl rfl
        (.after hparams.kept (.cons hr rfl (.cons hopen rfl
          (hus.append (.cons hclose rfl .nil)
            fun _ _ => NoElse.of_rightBrace hclose))))),
        .body hname hl hparams hr hopen hstands hclose⟩

end Lox.Parsing
