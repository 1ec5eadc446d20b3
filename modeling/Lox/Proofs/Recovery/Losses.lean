import Lox.Proofs.Recovery.Statements
import Lox.Proofs.Recovery.Weights

namespace Lox.Parsing

variable {w : Weights} {t : Token} {ts us rest : List Token}

/-- There is nothing after a semicolon. -/
def StopsAtSemicolon (tokens : List Token) : Prop :=
  ∀ before t after, tokens = before ++ t :: after → t.kind = .symbol .semicolon → after = []

theorem StopsAtSemicolon.cons (h : StopsAtSemicolon ts)
    (ht : t.kind = .symbol .semicolon → ts = []) : StopsAtSemicolon (t :: ts) := by
  intro before u after hsplit hu
  rcases List.cons_eq_append_iff.mp hsplit with ⟨rfl, hnil⟩ | ⟨before', rfl, hmore⟩
  · obtain ⟨rfl, rfl⟩ := List.cons.inj hnil
    exact ht hu
  · exact h before' u after hmore hu

theorem exists_skipped (previous : Kind) (tokens : List Token) :
    ∃ skipped, tokens = skipped ++ resume previous tokens ∧
      (previous = .symbol .semicolon → skipped = []) ∧ StopsAtSemicolon skipped := by
  have hnil : StopsAtSemicolon [] := fun _ _ _ h => by simp at h
  induction tokens generalizing previous with
  | nil => exact ⟨[], rfl, fun _ => rfl, hnil⟩
  | cons t tokens ih =>
      rw [resume]
      split
      · exact ⟨[], rfl, fun _ => rfl, hnil⟩
      · rename_i hskip
        obtain ⟨skipped, htokens, hnone, hstops⟩ := ih t.kind
        exact ⟨t :: skipped, congrArg (t :: ·) htokens, fun h => absurd (.inl h) hskip,
          hstops.cons hnone⟩

/-- The first token is dropped, and no token after a semicolon. -/
theorem exists_dropped (t : Token) (tokens : List Token) :
    ∃ dropped, t :: tokens = t :: dropped ++ synchronize (t :: tokens) ∧
      StopsAtSemicolon (t :: dropped) := by
  obtain ⟨skipped, htokens, hnone, hstops⟩ := exists_skipped t.kind tokens
  exact ⟨skipped, congrArg (t :: ·) htokens, hstops.cons hnone⟩

theorem ReadsAs.exists_leaf {ph : ExprPhrase} (h : ReadsAs ts ph) (hph : ∀ es, ph ≠ .arguments es) :
    ∃ t ∈ ts, isLeaf t.kind := by
  induction h with
  | literal h => exact ⟨_, List.mem_singleton_self _, by simp [isLeaf, h]⟩
  | name h | this h => exact ⟨_, List.mem_singleton_self _, by simp [isLeaf, h]⟩
  | grouping _ _ _ ih | call _ _ _ _ ih _ | get _ _ _ ih | entry _ _ _ ih _ | join _ _ _ ih _
  | assign _ _ _ _ ih _ | unary _ _ ih =>
      obtain ⟨t, ht, hleaf⟩ := ih (by simp)
      exact ⟨t, by simp [ht], hleaf⟩
  | noArguments | arguments _ _ _ => exact absurd rfl (hph _)
  | primary _ ih | lastEntry _ ih | operand _ ih | tightest _ ih | tighter _ ih | plain _ ih =>
      exact ih (by simp)

def isBrace (k : Kind) : Bool := k = .symbol .leftBrace || k = .symbol .rightBrace

theorem not_isBrace_of_not_separates (h : ∀ t ∈ ts, ¬separates t.kind) :
    ∀ t ∈ ts, ¬isBrace t.kind := by
  intro t ht hbrace
  refine h t ht ?_
  rcases (by simpa [isBrace] using hbrace : _ ∨ _) with hkind | hkind <;> rw [hkind] <;> decide

theorem not_isBrace_of_kind {k : Kind} (ht : t.kind = k) (hk : isBrace k = false) :
    ¬isBrace t.kind := by
  rw [ht, hk]
  exact Bool.false_ne_true

theorem ReadsAsVariable.not_isBrace {s : Stmt Unit} (h : ReadsAsVariable ts s) :
    ∀ t ∈ ts, ¬isBrace t.kind := by
  cases h with
  | bare hname hsemicolon =>
      exact List.forall_mem_cons.mpr ⟨not_isBrace_of_kind hname rfl,
        List.forall_mem_singleton.mpr (not_isBrace_of_kind hsemicolon rfl)⟩
  | initial hname hequals he hsemicolon =>
      refine List.forall_mem_cons.mpr ⟨not_isBrace_of_kind hname rfl,
        List.forall_mem_cons.mpr ⟨not_isBrace_of_kind hequals rfl, ?_⟩⟩
      exact List.forall_mem_append.mpr ⟨not_isBrace_of_not_separates he.not_separates,
        List.forall_mem_singleton.mpr (not_isBrace_of_kind hsemicolon rfl)⟩

theorem ReadsAsInitial.not_isBrace {s : Option (Stmt Unit)} (h : ReadsAsInitial ts s) :
    ∀ t ∈ ts, ¬isBrace t.kind := by
  cases h with
  | none hsemicolon => exact List.forall_mem_singleton.mpr (not_isBrace_of_kind hsemicolon rfl)
  | var_ hword h =>
      exact List.forall_mem_cons.mpr ⟨not_isBrace_of_kind hword rfl, h.not_isBrace⟩
  | expression he hsemicolon =>
      exact List.forall_mem_append.mpr ⟨not_isBrace_of_not_separates he.not_separates,
        List.forall_mem_singleton.mpr (not_isBrace_of_kind hsemicolon rfl)⟩

/-- The tokens end with some that have no braces among them, but a leaf or a word that starts a
statement. -/
def EndsWithLeaf (tokens : List Token) : Prop :=
  ∃ before near, tokens = before ++ near ∧ (∀ t ∈ near, ¬isBrace t.kind) ∧
    ∃ t ∈ near, isLeaf t.kind ∨ startsStatement t.kind

theorem EndsWithLeaf.append (h : EndsWithLeaf us) (ts : List Token) : EndsWithLeaf (ts ++ us) := by
  obtain ⟨before, near, rfl, hnear⟩ := h
  exact ⟨ts ++ before, near, (List.append_assoc ..).symm, hnear⟩

theorem endsWithLeaf_of_word {word : Token} (hword : startsStatement word.kind)
    (hts : ∀ t ∈ ts, ¬isBrace t.kind) : EndsWithLeaf (word :: ts) := by
  have hbrace : ¬isBrace word.kind := by
    intro hbrace
    rcases (by simpa [isBrace] using hbrace : _ ∨ _) with hkind | hkind <;>
      · rw [hkind] at hword
        cases hword
  exact ⟨[], word :: ts, rfl, List.forall_mem_cons.mpr ⟨hbrace, hts⟩, word,
    List.mem_cons_self, .inr hword⟩

theorem endsWithLeaf_of_mem {word semicolon : Token} {pre post : List Token}
    (hsemicolon : semicolon.kind = .symbol .semicolon) (hword : startsStatement word.kind)
    (hts : ∀ t ∈ ts, ¬isBrace t.kind) (h : word :: ts = pre ++ semicolon :: post) :
    EndsWithLeaf pre := by
  have hne : word.kind ≠ .symbol .semicolon := by
    intro hkind
    rw [hkind] at hword
    cases hword
  obtain ⟨more, rfl, hmore⟩ := skip_token hsemicolon hne h
  exact endsWithLeaf_of_word hword fun t ht => hts t (by simp [hmore, ht])

/-- Before each semicolon there is a leaf or a word, and no brace comes in between. -/
theorem ReadsAsStmt.endsWithLeaf {semicolon : Token} {pre post : List Token} {p : StmtPhrase}
    (h : ReadsAsStmt ts p) (hsemicolon : semicolon.kind = .symbol .semicolon)
    (hts : ts = pre ++ semicolon :: post) : EndsWithLeaf pre := by
  induction h generalizing pre post with
  | @expression last us e he _ =>
      obtain ⟨more, rfl, hlast⟩ := skip_tokens hsemicolon he.not_separates hts
      obtain rfl : more = [] := by
        cases more with
        | nil => rfl
        | cons t more => simp at hlast
      obtain ⟨t, ht, hleaf⟩ := he.exists_leaf (by simp)
      exact ⟨[], us, by simp, not_isBrace_of_not_separates he.not_separates, t, ht, .inl hleaf⟩
  | print hword he hlast =>
      refine endsWithLeaf_of_mem hsemicolon (by rw [hword]; decide) ?_ hts
      exact List.forall_mem_append.mpr ⟨not_isBrace_of_not_separates he.not_separates,
        List.forall_mem_singleton.mpr (not_isBrace_of_kind hlast rfl)⟩
  | ret hword hvalue hlast =>
      refine endsWithLeaf_of_mem hsemicolon (by rw [hword]; decide) ?_ hts
      exact List.forall_mem_append.mpr ⟨not_isBrace_of_not_separates hvalue.not_separates,
        List.forall_mem_singleton.mpr (not_isBrace_of_kind hlast rfl)⟩
  | @block l r us ss hl _ hr ih =>
      obtain ⟨more, rfl, hmore⟩ := skip_token hsemicolon (by rw [hl]; decide) hts
      obtain ⟨m, hbody, rfl⟩ := split_before_last hsemicolon (by rw [hr]; decide) hmore
      exact (ih hbody).append [l]
  | @branch word l r us vs condition closed s hword hl hcondition hr _ ih =>
      obtain ⟨more, rfl, hmore⟩ := skip_condition hsemicolon hword hl hcondition hr hts
      simpa using (ih hmore).append (word :: l :: (us ++ [r]))
  | @branches word l r other us vs ws condition closed s alternative hword hl hcondition hr _
      hother _ ih ihAlternative =>
      obtain ⟨more, rfl, hmore⟩ := skip_condition hsemicolon hword hl hcondition hr hts
      have hbranches : EndsWithLeaf more := by
        rcases mem_append_split hmore with ⟨m, hvs, -⟩ | ⟨m, rfl, hlater⟩
        · exact ih hvs
        · obtain ⟨m', rfl, hlast⟩ := skip_token hsemicolon (by rw [hother]; decide) hlater
          simpa using (ihAlternative hlast).append (vs ++ [other])
      simpa using hbranches.append (word :: l :: (us ++ [r]))
  | @loop word l r us vs condition closed s hword hl hcondition hr _ ih =>
      obtain ⟨more, rfl, hmore⟩ := skip_condition hsemicolon hword hl hcondition hr hts
      simpa using (ih hmore).append (word :: l :: (us ++ [r]))
  | @forLoop word l second r is cs ns us initial condition increment closed s hword hl hinitial
      hcondition hsecond hincrement hr _ ih =>
      have hincrement' : ∀ t ∈ ns ++ [r], ¬isBrace t.kind :=
        List.forall_mem_append.mpr ⟨not_isBrace_of_not_separates hincrement.not_separates,
          List.forall_mem_singleton.mpr (not_isBrace_of_kind hr rfl)⟩
      have hcondition' : ∀ t ∈ cs ++ second :: (ns ++ [r]), ¬isBrace t.kind :=
        List.forall_mem_append.mpr ⟨not_isBrace_of_not_separates hcondition.not_separates,
          List.forall_mem_cons.mpr ⟨not_isBrace_of_kind hsecond rfl, hincrement'⟩⟩
      have hclauses : ∀ t ∈ l :: (is ++ (cs ++ second :: (ns ++ [r]))), ¬isBrace t.kind :=
        List.forall_mem_cons.mpr ⟨not_isBrace_of_kind hl rfl,
          List.forall_mem_append.mpr ⟨hinitial.not_isBrace, hcondition'⟩⟩
      have hheader : word :: (l :: (is ++ (cs ++ second :: (ns ++ [r])))) ++ us =
          pre ++ semicolon :: post := by simpa using hts
      rcases mem_append_split hheader with ⟨m, hmore, -⟩ | ⟨m, rfl, hmore⟩
      · exact endsWithLeaf_of_mem hsemicolon (by rw [hword]; decide) hclauses hmore
      · exact (ih hmore).append _
  | statement _ ih => exact ih hts
  | var_ hword h =>
      exact endsWithLeaf_of_mem hsemicolon (by rw [hword]; decide) h.not_isBrace hts
  | @function word _ _ hword _ ih =>
      obtain ⟨more, rfl, hmore⟩ := skip_token hsemicolon (by rw [hword]; decide) hts
      exact (ih hmore).append [word]
  | @class_ word name l r _ ds hword hname hl _ hr ih =>
      obtain ⟨_, _, rfl, hmethods, rfl⟩ := skip_class hsemicolon hword hname hl hr hts
      exact (ih hmethods).append [word, name, l]
  | noDeclarations | noMethods => simp at hts
  | @declarations us vs s ss _ _ ih ihRest =>
      rcases mem_append_split hts with ⟨m, hus, -⟩ | ⟨m, rfl, hvs⟩
      · exact ih hus
      · exact (ihRest hvs).append us
  | @methods us vs d ds _ _ ih ihRest =>
      rcases mem_append_split hts with ⟨m, hus, -⟩ | ⟨m, rfl, hvs⟩
      · exact ih hus
      · exact (ihRest hvs).append us
  | @body name l r open_ close ps us params ss hname hl hparams hr hopen _ hclose ih =>
      obtain ⟨_, _, rfl, hbody, rfl⟩ :=
        skip_body hsemicolon hname hl hparams hr hopen hclose hts
      simpa using (ih hbody).append (name :: l :: (ps ++ [r, open_]))

/-- Where lists are put together there may be one more pair of semicolons, which is there as well if
a semicolon comes before the second list. -/
theorem emptyClauses_append_bounds (hts : t.kind = .symbol .semicolon) (ts us : List Token) :
    emptyClauses ts + emptyClauses us ≤ emptyClauses (ts ++ us) ∧
      emptyClauses (ts ++ us) ≤ emptyClauses ts + emptyClauses (t :: us) := by
  have hle (u : Token) (us : List Token) : emptyClauses us ≤ emptyClauses (u :: us) :=
    Nat.le_add_right _ _
  induction ts with
  | nil => simp [emptyClauses]
  | cons u ts ih =>
      cases ts with
      | nil =>
          have hcons := hle u us
          have hpairs : emptyClauses (u :: us) ≤ emptyClauses (t :: us) := by
            simp only [emptyClauses, hts, true_and]
            split <;> split <;> simp_all
          simpa [emptyClauses] using And.intro hcons hpairs
      | cons v ts =>
          have hleft := emptyClauses_cons_cons u v ts
          rw [List.cons_append, List.cons_append, emptyClauses_cons_cons u v (ts ++ us),
            ← List.cons_append]
          omega

theorem sum_eq_countP_sub {f : Kind → Int} (more less : Kind → Bool)
    (h : ∀ t ∈ ts, f t.kind = (more t.kind).toNat - (less t.kind).toNat) :
    (ts.map fun t => f t.kind).sum =
      ts.countP (fun t => more t.kind) - ts.countP (fun t => less t.kind) := by
  induction ts with
  | nil => rfl
  | cons t ts ih =>
      obtain ⟨ht, hts⟩ := List.forall_mem_cons.mp h
      rw [List.map_cons, List.sum_cons, ih hts, ht, List.countP_cons, List.countP_cons]
      cases more t.kind <;> cases less t.kind <;> simp <;> omega

section

variable {before dropped next : List Token} {p : StmtPhrase}
  (h : ReadsAsStmt (before ++ (dropped ++ next)) p) (h' : ReadsAsStmt (before ++ next) p)
include h h'

/-- What lies between two ends that make the same program of a beginning weighs nothing, unless
leaves weigh something. Kinds that count for one are as many as those that count against it. -/
theorem countP_eq_of_dropped (w : Weights) (hw : w.leaf = 0) (more less : Kind → Bool)
    (hkinds : ∀ t ∈ dropped, w.of t.kind = (more t.kind).toNat - (less t.kind).toNat) :
    dropped.countP (fun t => more t.kind) = dropped.countP (fun t => less t.kind) := by
  have htotal := (h.total_eq w).trans (h'.total_eq w).symm
  simp only [Weights.total, hw, List.map_append, List.sum_append] at htotal
  have hsum := sum_eq_countP_sub more less hkinds
  omega

theorem not_startsStatement_of_dropped : ∀ t ∈ dropped, ¬startsStatement t.kind := by
  have hkinds (k : Kind) : (⟨0, 1, 0, 0⟩ : Weights).of k =
      (startsStatement k).toNat - false.toNat := by
    cases k with
    | symbol s => cases s <;> rfl
    | keyword k => cases k <;> rfl
    | _ => rfl
  have hcount := countP_eq_of_dropped h h' ⟨0, 1, 0, 0⟩ rfl startsStatement (fun _ => false)
    fun t _ => hkinds t.kind
  simpa [List.countP_eq_zero] using hcount

theorem countP_braces_of_dropped :
    dropped.countP (fun t => t.kind = .symbol .rightBrace) =
      dropped.countP (fun t => t.kind = .symbol .leftBrace) := by
  have hkinds (k : Kind) : (⟨0, 0, 0, 1⟩ : Weights).of k =
      (decide (k = .symbol .rightBrace)).toNat - (decide (k = .symbol .leftBrace)).toNat := by
    cases k with
    | symbol s => cases s <;> rfl
    | keyword k => cases k <;> rfl
    | _ => rfl
  exact countP_eq_of_dropped h h' ⟨0, 0, 0, 1⟩ rfl (fun k => k = .symbol .rightBrace)
    (fun k => k = .symbol .leftBrace) fun t _ => hkinds t.kind

theorem countP_semicolons_of_dropped :
    dropped.countP (fun t => t.kind = .symbol .semicolon) =
      dropped.countP (fun t => t.kind = .symbol .leftBrace) := by
  have hkinds (k : Kind) (hk : ¬startsStatement k) : (⟨0, 0, 1, 0⟩ : Weights).of k =
      (decide (k = .symbol .semicolon)).toNat - (decide (k = .symbol .leftBrace)).toNat := by
    cases k with
    | symbol s => cases s <;> rfl
    | keyword k => cases k <;> first | rfl | exact absurd rfl hk
    | _ => rfl
  exact countP_eq_of_dropped h h' ⟨0, 0, 1, 0⟩ rfl (fun k => k = .symbol .semicolon)
    (fun k => k = .symbol .leftBrace) fun t ht =>
      hkinds t.kind (not_startsStatement_of_dropped h h' t ht)

end

/-- No leaf is dropped before a semicolon. -/
theorem not_isLeaf_of_dropped {before front next : List Token} {semicolon : Token}
    {p : StmtPhrase} (hsemicolon : semicolon.kind = .symbol .semicolon)
    (h : ReadsAsStmt (before ++ (front ++ semicolon :: next)) p)
    (h' : ReadsAsStmt (before ++ next) p) : ∀ t ∈ front, ¬isLeaf t.kind := by
  let w : Weights := ⟨1, 0, 0, 0⟩
  have hkinds (k : Kind) : w.of k = (isLeaf k).toNat - false.toNat := by
    cases k with
    | symbol s => cases s <;> rfl
    | keyword k => cases k <;> rfl
    | _ => rfl
  have hsum := sum_eq_countP_sub isLeaf (fun _ => false)
    fun t (_ : t ∈ front) => hkinds t.kind
  have hnone : front.countP (fun _ => false) = 0 := List.countP_eq_zero.mpr (by simp)
  have htotal := (h.total_eq w).trans (h'.total_eq w).symm
  have hzero : w.of semicolon.kind = 0 := by
    rw [hsemicolon]
    rfl
  have hone : w.leaf = 1 := rfl
  simp only [Weights.total, List.map_append, List.map_cons, List.sum_append, List.sum_cons,
    hzero, hone, Int.one_mul] at htotal
  obtain ⟨-, hnext⟩ := emptyClauses_append_bounds hsemicolon before next
  obtain ⟨hbefore, -⟩ :=
    emptyClauses_append_bounds hsemicolon before (front ++ semicolon :: next)
  obtain ⟨hfront, -⟩ := emptyClauses_append_bounds hsemicolon front (semicolon :: next)
  have hcount : front.countP (fun t => isLeaf t.kind) = 0 := by omega
  simpa [List.countP_eq_zero] using hcount

/-- Where something is left, what reading drops makes a difference to the program. -/
theorem eq_nil_of_readsAs {before : List Token} {p : StmtPhrase} (hrest : Follows rest)
    (h : ReadsAsStmt (before ++ rest) p) (h' : ReadsAsStmt (before ++ synchronize rest) p) :
    rest = [] := by
  cases rest with
  | nil => rfl
  | cons t tokens =>
      exfalso
      obtain ⟨dropped, hdropped, hstops⟩ := exists_dropped t tokens
      generalize synchronize (t :: tokens) = next at h' hdropped
      rw [hdropped] at h
      have hwords := not_startsStatement_of_dropped h h'
      have hbrace : t.kind = .symbol .rightBrace :=
        (hrest t rfl).resolve_right (hwords t List.mem_cons_self)
      have hclosing : 0 < (t :: dropped).countP fun t => t.kind = .symbol .rightBrace :=
        List.countP_pos_iff.mpr ⟨t, List.mem_cons_self, by simpa using hbrace⟩
      rw [countP_braces_of_dropped h h', ← countP_semicolons_of_dropped h h'] at hclosing
      obtain ⟨semicolon, hmem, hsemicolon⟩ := List.countP_pos_iff.mp hclosing
      have hsemicolon : semicolon.kind = .symbol .semicolon := by simpa using hsemicolon
      obtain ⟨front, after, hsplit⟩ := List.append_of_mem hmem
      obtain rfl := hstops front semicolon after hsplit hsemicolon
      have hfirst : t ∈ front := by
        cases front with
        | nil =>
            obtain rfl := (List.cons.inj hsplit).1
            cases hbrace.symm.trans hsemicolon
        | cons u front =>
            obtain rfl := (List.cons.inj hsplit).1
            exact List.mem_cons_self
      rw [hsplit, List.append_assoc, List.singleton_append] at h
      obtain ⟨outer, near, hnear, hbraces, u, hu, hkind⟩ :=
        h.endsWithLeaf hsemicolon (List.append_assoc before front (semicolon :: next)).symm
      have hfront : u ∈ front := by
        rcases List.append_eq_append_iff.mp hnear with ⟨more, -, rfl⟩ | ⟨more, -, rfl⟩
        · exact List.mem_append_right more hu
        · exact absurd (by rw [hbrace]; rfl) (hbraces t (List.mem_append_right more hfirst))
      rcases hkind with hleaf | hword
      · exact not_isLeaf_of_dropped hsemicolon h h' u hfront hleaf
      · exact hwords u (hsplit ▸ List.mem_append_left _ hfront) hword

end Lox.Parsing
