import Lox.Command.Response

/-!
Which command lines ask for a task.

After the verb the options may stand in any order and anywhere around the file, each at most once.
After two dashes there are only files. So a command line asks for a task just if it consists of
these words, and then it asks for no other.
-/

namespace Lox.Command

/-- A word that names a file, also without two dashes before it. -/
def isFile (word : String) : Bool := !word.isEmpty && !isOption word

theorem isOption_of_isHelp {word : String} (h : isHelp word = true) : isOption word = true := by
  simp only [isHelp, Bool.or_eq_true, decide_eq_true_eq] at h
  rcases h with rfl | rfl <;> decide +kernel

theorem not_isFile_of_isOption {word : String} (h : isOption word = true) :
    isFile word = false := by
  rw [isFile, h, Bool.not_true, Bool.and_false]

theorem isOption_log : isOption "--log" = true := by decide +kernel

theorem isOption_json : isOption "--json" = true := by decide +kernel

theorem isOption_dashes : isOption "--" = true := by decide +kernel

namespace Partial

variable {verb : Verb} {p p' : Partial} {word file : String} {words files rest : List String}

theorem addFile?_eq_some_iff :
    p.addFile? verb file = some p' ↔
      verb ≠ .repl ∧ p.file = none ∧ file ≠ "" ∧ { p with file := some file } = p' := by
  simp [addFile?, and_assoc]

/-- What has been read after more words, and after files behind two dashes. -/
structure Takes (verb : Verb) (p : Partial) (words rest : List String) (p' : Partial) : Prop where
  log : p'.logging.toNat = p.logging.toNat + words.count "--log"
  json : p'.json.toNat = p.json.toNat + words.count "--json"
  file : p'.file.toList = p.file.toList ++ (words.filter isFile ++ rest)
  words : ∀ w ∈ words, w = "--log" ∨ verb = .tokenize ∧ w = "--json" ∨ verb ≠ .repl ∧ isFile w
  rest : ∀ file ∈ rest, verb ≠ .repl ∧ file ≠ ""

theorem Takes.nil : p.Takes verb [] [] p where
  log := rfl
  json := rfl
  file := by simp
  words := by simp
  rest := by simp

theorem Takes.eq (h : p.Takes verb [] [] p') : p' = p := by
  obtain ⟨file, json, logging⟩ := p
  obtain ⟨file', json', logging'⟩ := p'
  obtain ⟨hlog, hjson, hfile, -, -⟩ := h
  have hbool : ∀ {a b : Bool}, a.toNat = b.toNat → a = b := by decide
  have hoption : file' = file := by
    cases file <;> cases file' <;> simp_all
  cases hbool hlog
  cases hbool hjson
  cases hoption
  rfl

theorem toNat_eq_add_one_iff {b b' : Bool} {n : Nat} :
    b'.toNat = b.toNat + (n + 1) ↔ b = false ∧ b'.toNat = true.toNat + n := by
  cases b <;> cases b' <;> simp [Nat.add_comm]

theorem toList_eq_append_cons_iff {file file' : Option String} :
    file'.toList = file.toList ++ word :: words ↔
      file = none ∧ file'.toList = (some word).toList ++ words := by
  cases file <;> cases file' <;> simp

theorem takes_log_iff :
    p.Takes verb ("--log" :: words) rest p' ↔
      p.logging = false ∧ ({ p with logging := true } : Partial).Takes verb words rest p' := by
  have hlogs : ("--log" :: words).count "--log" = words.count "--log" + 1 := List.count_cons_self
  have hjsons : ("--log" :: words).count "--json" = words.count "--json" :=
    List.count_cons_of_ne (by decide)
  have hfiles : ("--log" :: words).filter isFile = words.filter isFile :=
    List.filter_cons_of_neg (by simp [not_isFile_of_isOption isOption_log])
  constructor
  · rintro ⟨hlog, hjson, hfile, hwords, hrest⟩
    rw [hlogs] at hlog
    obtain ⟨hfirst, hlog⟩ := toNat_eq_add_one_iff.mp hlog
    exact ⟨hfirst, hlog, hjsons ▸ hjson, hfiles ▸ hfile, (List.forall_mem_cons.mp hwords).2, hrest⟩
  · rintro ⟨hfirst, hlog, hjson, hfile, hwords, hrest⟩
    refine ⟨?_, hjsons ▸ hjson, hfiles ▸ hfile, List.forall_mem_cons.mpr ⟨.inl rfl, hwords⟩, hrest⟩
    rw [hlogs]
    exact toNat_eq_add_one_iff.mpr ⟨hfirst, hlog⟩

theorem takes_json_iff :
    p.Takes verb ("--json" :: words) rest p' ↔
      verb = .tokenize ∧ p.json = false ∧
        ({ p with json := true } : Partial).Takes verb words rest p' := by
  have hlogs : ("--json" :: words).count "--log" = words.count "--log" :=
    List.count_cons_of_ne (by decide)
  have hjsons : ("--json" :: words).count "--json" = words.count "--json" + 1 :=
    List.count_cons_self
  have hnot : isFile "--json" = false := not_isFile_of_isOption isOption_json
  have hfiles : ("--json" :: words).filter isFile = words.filter isFile :=
    List.filter_cons_of_neg (by simp [hnot])
  constructor
  · rintro ⟨hlog, hjson, hfile, hwords, hrest⟩
    rw [hjsons] at hjson
    obtain ⟨hfirst, hjson⟩ := toNat_eq_add_one_iff.mp hjson
    obtain ⟨hword, hwords⟩ := List.forall_mem_cons.mp hwords
    have hverb : verb = .tokenize := by
      rcases hword with hword | ⟨hverb, -⟩ | ⟨-, hword⟩
      · exact absurd hword (by decide)
      · exact hverb
      · rw [hnot] at hword
        cases hword
    exact ⟨hverb, hfirst, hlogs ▸ hlog, hjson, hfiles ▸ hfile, hwords, hrest⟩
  · rintro ⟨hverb, hfirst, hlog, hjson, hfile, hwords, hrest⟩
    refine ⟨hlogs ▸ hlog, ?_, hfiles ▸ hfile,
      List.forall_mem_cons.mpr ⟨.inr (.inl ⟨hverb, rfl⟩), hwords⟩, hrest⟩
    rw [hjsons]
    exact toNat_eq_add_one_iff.mpr ⟨hfirst, hjson⟩

theorem takes_file_iff (hword : isFile word = true) :
    p.Takes verb (word :: words) rest p' ↔
      verb ≠ .repl ∧ p.file = none ∧
        ({ p with file := some word } : Partial).Takes verb words rest p' := by
  have hne {option : String} (h : isOption option = true) : word ≠ option := by
    rintro rfl
    rw [not_isFile_of_isOption h] at hword
    cases hword
  have hlogs : (word :: words).count "--log" = words.count "--log" :=
    List.count_cons_of_ne (hne isOption_log)
  have hjsons : (word :: words).count "--json" = words.count "--json" :=
    List.count_cons_of_ne (hne isOption_json)
  have hfiles : (word :: words).filter isFile = word :: words.filter isFile :=
    List.filter_cons_of_pos hword
  constructor
  · rintro ⟨hlog, hjson, hfile, hwords, hrest⟩
    rw [hfiles, List.cons_append] at hfile
    obtain ⟨hfirst, hfile⟩ := toList_eq_append_cons_iff.mp hfile
    obtain ⟨h, hwords⟩ := List.forall_mem_cons.mp hwords
    have hverb : verb ≠ .repl := by
      rcases h with h | ⟨-, h⟩ | ⟨hverb, -⟩
      · exact absurd h (hne isOption_log)
      · exact absurd h (hne isOption_json)
      · exact hverb
    exact ⟨hverb, hfirst, hlogs ▸ hlog, hjsons ▸ hjson, hfile, hwords, hrest⟩
  · rintro ⟨hverb, hfirst, hlog, hjson, hfile, hwords, hrest⟩
    refine ⟨hlogs ▸ hlog, hjsons ▸ hjson, ?_,
      List.forall_mem_cons.mpr ⟨.inr (.inr ⟨hverb, hword⟩), hwords⟩, hrest⟩
    rw [hfiles, List.cons_append]
    exact toList_eq_append_cons_iff.mpr ⟨hfirst, hfile⟩

/-- Behind two dashes any word that is not empty is a file. -/
theorem addFiles?_eq_some_iff :
    p.addFiles? verb files = some p' ↔ p.Takes verb [] files p' := by
  induction files generalizing p with
  | nil =>
      constructor
      · rintro ⟨⟩
        exact .nil
      · intro h
        cases h.eq
        rfl
  | cons file files ih =>
      simp only [addFiles?, Option.bind_eq_some_iff, addFile?_eq_some_iff, ih]
      constructor
      · rintro ⟨_, ⟨hverb, hfirst, hne, rfl⟩, hlog, hjson, hfile, hwords, hrest⟩
        exact ⟨hlog, hjson, toList_eq_append_cons_iff.mpr ⟨hfirst, hfile⟩, hwords,
          List.forall_mem_cons.mpr ⟨⟨hverb, hne⟩, hrest⟩⟩
      · rintro ⟨hlog, hjson, hfile, hwords, hrest⟩
        obtain ⟨hfirst, hfile⟩ := toList_eq_append_cons_iff.mp hfile
        obtain ⟨⟨hverb, hne⟩, hrest⟩ := List.forall_mem_cons.mp hrest
        exact ⟨_, ⟨hverb, hfirst, hne, rfl⟩, hlog, hjson, hfile, hwords, hrest⟩

end Partial

/-- The arguments behind a verb lead from what has been read to a task. Two dashes may stand before
the last of them, which are files then. -/
def Partial.Leads (verb : Verb) (logging : Bool) (p : Partial) (arguments : List String)
    (task : Task) (l : Bool) : Prop :=
  ∃ words closing rest p', arguments = words ++ closing ∧
    (closing = [] ∧ rest = [] ∨ closing = "--" :: rest) ∧ p.Takes verb words rest p' ∧
      p'.task? verb = some task ∧ l = (logging || p'.logging)

section

variable {verb : Verb} {logging l : Bool} {p : Partial} {argument : String}
  {arguments : List String} {task : Task}

theorem leads_nil_iff :
    p.Leads verb logging [] task l ↔ p.task? verb = some task ∧ l = (logging || p.logging) := by
  constructor
  · rintro ⟨words, closing, rest, p', hwords, hclosing, htakes, htask, hl⟩
    obtain ⟨rfl, rfl⟩ := List.append_eq_nil_iff.mp hwords.symm
    obtain ⟨-, rfl⟩ | h := hclosing
    · cases htakes.eq
      exact ⟨htask, hl⟩
    · cases h
  · rintro ⟨htask, hl⟩
    exact ⟨[], [], [], p, rfl, .inl ⟨rfl, rfl⟩, .nil, htask, hl⟩

theorem not_takes_dashes {words rest : List String} {p' : Partial} :
    ¬p.Takes verb ("--" :: words) rest p' := by
  rintro ⟨-, -, -, hwords, -⟩
  rcases (List.forall_mem_cons.mp hwords).1 with h | ⟨-, h⟩ | ⟨-, h⟩
  · exact absurd h (by decide)
  · exact absurd h (by decide)
  · rw [not_isFile_of_isOption isOption_dashes] at h
    cases h

theorem leads_dashes_iff :
    p.Leads verb logging ("--" :: arguments) task l ↔
      ∃ p', p.addFiles? verb arguments = some p' ∧ p'.task? verb = some task ∧
        l = (logging || p'.logging) := by
  simp only [Partial.addFiles?_eq_some_iff]
  constructor
  · rintro ⟨words, closing, rest, p', hwords, hclosing, htakes, htask, hl⟩
    cases words with
    | nil =>
        obtain ⟨rfl, -⟩ | rfl := hclosing
        · cases hwords
        · cases hwords
          exact ⟨p', htakes, htask, hl⟩
    | cons w words =>
        obtain ⟨rfl, -⟩ := List.cons.inj hwords
        exact absurd htakes not_takes_dashes
  · rintro ⟨p', htakes, htask, hl⟩
    exact ⟨[], _, arguments, p', rfl, .inr rfl, htakes, htask, hl⟩

theorem leads_cons_iff (h : argument ≠ "--") :
    p.Leads verb logging (argument :: arguments) task l ↔
      ∃ words closing rest p', arguments = words ++ closing ∧
        (closing = [] ∧ rest = [] ∨ closing = "--" :: rest) ∧
          p.Takes verb (argument :: words) rest p' ∧ p'.task? verb = some task ∧
            l = (logging || p'.logging) := by
  constructor
  · rintro ⟨words, closing, rest, p', hwords, hclosing, htakes, htask, hl⟩
    cases words with
    | nil =>
        obtain ⟨rfl, -⟩ | rfl := hclosing
        · cases hwords
        · exact absurd (List.cons.inj hwords).1 h
    | cons w words =>
        obtain ⟨rfl, rfl⟩ := List.cons.inj hwords
        exact ⟨words, closing, rest, p', rfl, hclosing, htakes, htask, hl⟩
  · rintro ⟨words, closing, rest, p', rfl, hclosing, htakes, htask, hl⟩
    exact ⟨argument :: words, closing, rest, p', rfl, hclosing, htakes, htask, hl⟩

theorem leads_cons_iff_of_takes {allowed : Prop} {q : Partial} (h : argument ≠ "--")
    (htakes : ∀ words rest p',
      p.Takes verb (argument :: words) rest p' ↔ allowed ∧ q.Takes verb words rest p') :
    p.Leads verb logging (argument :: arguments) task l ↔
      allowed ∧ q.Leads verb logging arguments task l := by
  rw [leads_cons_iff h]
  constructor
  · rintro ⟨words, closing, rest, p', hwords, hclosing, hp, htask⟩
    obtain ⟨hallowed, hq⟩ := (htakes _ _ _).mp hp
    exact ⟨hallowed, words, closing, rest, p', hwords, hclosing, hq, htask⟩
  · rintro ⟨hallowed, words, closing, rest, p', hwords, hclosing, hq, htask⟩
    exact ⟨words, closing, rest, p', hwords, hclosing, (htakes _ _ _).mpr ⟨hallowed, hq⟩, htask⟩

theorem leads_log_iff :
    p.Leads verb logging ("--log" :: arguments) task l ↔
      p.logging = false ∧
        ({ p with logging := true } : Partial).Leads verb logging arguments task l :=
  leads_cons_iff_of_takes (by decide) fun _ _ _ => Partial.takes_log_iff

theorem leads_json_iff :
    p.Leads verb logging ("--json" :: arguments) task l ↔
      (verb = .tokenize ∧ p.json = false) ∧
        ({ p with json := true } : Partial).Leads verb logging arguments task l :=
  leads_cons_iff_of_takes (by decide) fun _ _ _ => Partial.takes_json_iff.trans and_assoc.symm

theorem leads_file_iff (hword : isFile argument = true) :
    p.Leads verb logging (argument :: arguments) task l ↔
      (verb ≠ .repl ∧ p.file = none) ∧
        ({ p with file := some argument } : Partial).Leads verb logging arguments task l := by
  refine leads_cons_iff_of_takes ?_ fun _ _ _ => (Partial.takes_file_iff hword).trans and_assoc.symm
  rintro rfl
  rw [not_isFile_of_isOption isOption_dashes] at hword
  cases hword

theorem not_leads (hdashes : argument ≠ "--") (hlog : argument ≠ "--log")
    (hjson : argument ≠ "--json") (hfile : isFile argument = false) :
    ¬p.Leads verb logging (argument :: arguments) task l := by
  rw [leads_cons_iff hdashes]
  rintro ⟨words, closing, rest, p', -, -, ⟨-, -, -, hwords, -⟩, -⟩
  rcases (List.forall_mem_cons.mp hwords).1 with h | ⟨-, h⟩ | ⟨-, h⟩
  · exact hlog h
  · exact hjson h
  · rw [hfile] at h
    cases h

theorem readArguments_eq_perform_iff :
    readArguments verb logging p arguments = .perform task l ↔
      p.Leads verb logging arguments task l := by
  induction arguments generalizing p with
  | nil =>
      rw [readArguments, leads_nil_iff]
      cases p.task? verb with
      | none => simp
      | some t => simp [eq_comm]
  | cons argument arguments ih =>
      rw [readArguments]
      split
      · subst_vars
        rw [leads_dashes_iff]
        cases hfiles : p.addFiles? verb arguments with
        | none => simp
        | some p' =>
            cases htask : p'.task? verb with
            | none => simp [htask]
            | some t => simp [htask, eq_comm]
      rename_i hdashes
      split
      · rename_i hhelp
        have hfile := not_isFile_of_isOption (isOption_of_isHelp hhelp)
        refine iff_of_false (by simp) (not_leads hdashes ?_ ?_ hfile)
        · rintro rfl
          cases hhelp
        · rintro rfl
          cases hhelp
      split
      · subst_vars
        rw [leads_log_iff, ← ih]
        split
        · rename_i hgiven
          simp [hgiven]
        · rename_i hgiven
          simp [hgiven]
      rename_i hlog
      split
      · subst_vars
        rw [leads_json_iff, ← ih]
        split
        · rename_i hgiven
          refine iff_of_false (by simp) ?_
          rintro ⟨⟨rfl, hfirst⟩, -⟩
          simp [hfirst] at hgiven
        · rename_i hgiven
          have hallowed : verb = .tokenize ∧ p.json = false := by
            simpa [and_comm] using hgiven
          exact (and_iff_right hallowed).symm
      rename_i hjson
      split
      · rename_i hoption
        exact iff_of_false (by simp)
          (not_leads hdashes hlog hjson (not_isFile_of_isOption hoption))
      rename_i hoption
      by_cases hempty : argument = ""
      · subst hempty
        refine iff_of_false ?_ (not_leads hdashes hlog hjson rfl)
        simp [Partial.addFile?]
      · have hfile : isFile argument = true := by simp [isFile, hempty, hoption]
        rw [leads_file_iff hfile, ← ih]
        cases hadd : p.addFile? verb argument with
        | none =>
            refine iff_of_false (by simp) ?_
            rintro ⟨⟨hverb, hfirst⟩, -⟩
            cases hadd.symm.trans
              (Partial.addFile?_eq_some_iff.mpr ⟨hverb, hfirst, hempty, rfl⟩)
        | some p' =>
            obtain ⟨hverb, hfirst, -, rfl⟩ := Partial.addFile?_eq_some_iff.mp hadd
            simp [hverb, hfirst]

end

/-! ### Whole command lines -/

def Task.verb : Task → Verb
  | tokenize _ _ => .tokenize
  | parse _ => .parse
  | evaluate _ => .evaluate
  | run _ => .run
  | repl => .repl

def Task.json : Task → Bool
  | tokenize _ json => json
  | _ => false

/-- These words behind the verb of a task, and these files behind two dashes, ask for the rest of
the task, whatever their order. -/
structure Asks (words rest : List String) (task : Task) (logging : Bool) : Prop where
  log : words.count "--log" = logging.toNat
  json : words.count "--json" = task.json.toNat
  file : words.filter isFile ++ rest = task.file?.toList
  words : ∀ w ∈ words, w = "--log" ∨ w = "--json" ∨ isFile w
  rest : "" ∉ rest

/-- Nothing has been read. -/
def Partial.start : Partial := ⟨none, false, false⟩

theorem takes_of_asks {words rest : List String} {task : Task} {logging : Bool}
    (h : Asks words rest task logging) :
    Partial.start.Takes task.verb words rest ⟨task.file?, task.json, logging⟩ := by
  obtain ⟨hlog, hjson, hfile, hwords, hrest⟩ := h
  have hrepl {file : String} (hmem : file ∈ words.filter isFile ++ rest) : task.verb ≠ .repl := by
    rw [hfile] at hmem
    cases task with
    | repl => cases hmem
    | _ => exact Verb.noConfusion
  refine ⟨?_, ?_, hfile.symm, fun w hw => ?_, fun file hmem => ?_⟩
  · exact hlog.symm.trans (Nat.zero_add _).symm
  · exact hjson.symm.trans (Nat.zero_add _).symm
  · rcases hwords w hw with h | rfl | h
    · exact .inl h
    · have hpos := List.count_pos_iff.mpr hw
      rw [hjson] at hpos
      cases task with
      | tokenize => exact .inr (.inl ⟨rfl, rfl⟩)
      | _ => cases hpos
    · exact .inr (.inr ⟨hrepl (List.mem_append_left _ (List.mem_filter.mpr ⟨hw, h⟩)), h⟩)
  · refine ⟨hrepl (List.mem_append_right _ hmem), ?_⟩
    rintro rfl
    exact hrest hmem

theorem exists_takes_iff {verb : Verb} {words rest : List String} {task : Task} {logging : Bool} :
    (∃ p', Partial.start.Takes verb words rest p' ∧ p'.task? verb = some task ∧
      logging = p'.logging) ↔ verb = task.verb ∧ Asks words rest task logging := by
  constructor
  · rintro ⟨⟨file, json, inner⟩, ⟨hlogs, hjsons, hfiles, hwords, hrest⟩, htask, hlogging⟩
    obtain rfl : logging = inner := hlogging
    have hlog : logging.toNat = words.count "--log" := hlogs.trans (Nat.zero_add _)
    have hjson : json.toNat = words.count "--json" := hjsons.trans (Nat.zero_add _)
    have hfile : file.toList = words.filter isFile ++ rest := hfiles
    have hwords' : ∀ w ∈ words, w = "--log" ∨ w = "--json" ∨ isFile w := fun w hw =>
      (hwords w hw).imp id (Or.imp And.right And.right)
    have hnojson (hverb : verb ≠ .tokenize) : words.count "--json" = 0 := by
      refine List.count_eq_zero.mpr fun hmem => ?_
      rcases hwords _ hmem with h | ⟨h, -⟩ | ⟨-, h⟩
      · exact absurd h (by decide)
      · exact hverb h
      · rw [not_isFile_of_isOption isOption_json] at h
        cases h
    have hrest' : "" ∉ rest := fun hmem => (hrest "" hmem).2 rfl
    cases verb with
    | tokenize =>
        obtain ⟨f, rfl, rfl⟩ := Option.map_eq_some_iff.mp htask
        exact ⟨rfl, hlog.symm, hjson.symm, hfile.symm, hwords', hrest'⟩
    | parse | evaluate | run =>
        obtain ⟨f, rfl, rfl⟩ := Option.map_eq_some_iff.mp htask
        exact ⟨rfl, hlog.symm, hnojson Verb.noConfusion, hfile.symm, hwords', hrest'⟩
    | repl =>
        cases htask
        have hnofile : words.filter isFile ++ rest = [] := by
          refine List.append_eq_nil_iff.mpr ⟨List.filter_eq_nil_iff.mpr fun w hw hfile => ?_,
            List.eq_nil_iff_forall_not_mem.mpr fun f hf => (hrest f hf).1 rfl⟩
          rcases hwords w hw with rfl | ⟨h, -⟩ | ⟨h, -⟩
          · rw [not_isFile_of_isOption isOption_log] at hfile
            cases hfile
          · cases h
          · exact h rfl
        exact ⟨rfl, hlog.symm, hnojson Verb.noConfusion, hnofile, hwords', hrest'⟩
  · rintro ⟨rfl, h⟩
    refine ⟨_, takes_of_asks h, ?_, rfl⟩
    cases task <;> rfl

theorem Verb.ofWord?_eq_some_iff {word : String} {v : Verb} :
    Verb.ofWord? word = some v ↔ v.word = word := by
  constructor
  · intro h
    simpa using List.find?_some h
  · rintro rfl
    cases v <;> decide

theorem readRequest_word (logging : Bool) (verb : Verb) (arguments : List String) :
    readRequest logging (verb.word :: arguments) =
      readArguments verb logging .start arguments := by
  cases verb <;> rfl

theorem readRequest_eq_perform_iff {logging l : Bool} {argument : String}
    {arguments : List String} {task : Task} (h : argument ≠ "--log") :
    readRequest logging (argument :: arguments) = .perform task l ↔
      ∃ verb : Verb, argument = verb.word ∧
        readArguments verb logging .start arguments = .perform task l := by
  constructor
  · intro hperform
    unfold readRequest at hperform
    rw [if_neg h] at hperform
    split at hperform
    · cases hperform
    split at hperform
    · split at hperform
      · cases hperform
      · split at hperform <;> cases hperform
      · cases hperform
    cases hverb : Verb.ofWord? argument with
    | none =>
        rw [hverb] at hperform
        cases hperform
    | some verb =>
        rw [hverb] at hperform
        exact ⟨verb, (Verb.ofWord?_eq_some_iff.mp hverb).symm, hperform⟩
  · rintro ⟨verb, rfl, hperform⟩
    rwa [readRequest_word]

theorem readRequest_eq_perform_iff_asks {outer l : Bool} {arguments : List String} {task : Task}
    (h : arguments.head? ≠ some "--log") :
    readRequest outer arguments = .perform task l ↔
      ∃ (inner : Bool) (words closing rest : List String),
        arguments = task.verb.word :: (words ++ closing) ∧
          (closing = [] ∧ rest = [] ∨ closing = "--" :: rest) ∧ Asks words rest task inner ∧
            l = (outer || inner) := by
  cases arguments with
  | nil => simp [readRequest]
  | cons argument arguments =>
      have hne : argument ≠ "--log" := fun heq => h (congrArg some heq)
      simp only [readRequest_eq_perform_iff hne, readArguments_eq_perform_iff]
      constructor
      · rintro ⟨verb, rfl, words, closing, rest, p', rfl, hclosing, htakes, htask, hl⟩
        obtain ⟨rfl, hasks⟩ := exists_takes_iff.mp ⟨p', htakes, htask, rfl⟩
        exact ⟨_, words, closing, rest, rfl, hclosing, hasks, hl⟩
      · rintro ⟨inner, words, closing, rest, heq, hclosing, hasks, hl⟩
        obtain ⟨rfl, rfl⟩ := List.cons.inj heq
        obtain ⟨p', htakes, htask, rfl⟩ := exists_takes_iff.mpr ⟨rfl, hasks⟩
        exact ⟨task.verb, rfl, words, closing, rest, p', rfl, hclosing, htakes, htask, hl⟩

theorem Verb.word_ne_log (v : Verb) : v.word ≠ "--log" := by
  cases v <;> decide

/-- A command line asks for a task just if it consists of the verb of the task and of words that ask
for the rest of it, with one more option before the verb at most. -/
theorem ofArguments_eq_perform_iff {arguments : List String} {task : Task} {logging : Bool} :
    Request.ofArguments arguments = .perform task logging ↔
      ∃ (outer inner : Bool) (words closing rest : List String),
        arguments = (if outer then ["--log"] else []) ++ task.verb.word :: (words ++ closing) ∧
          (closing = [] ∧ rest = [] ∨ closing = "--" :: rest) ∧ Asks words rest task inner ∧
            logging = (outer || inner) := by
  rw [Request.ofArguments]
  constructor
  · intro h
    rcases arguments with _ | ⟨argument, arguments⟩
    · cases h
    by_cases hlog : argument = "--log"
    · subst hlog
      have h : readRequest true arguments = .perform task logging := h
      have hhead : arguments.head? ≠ some "--log" := by
        intro hhead
        rcases arguments with _ | ⟨argument, arguments⟩
        · cases hhead
        · cases hhead
          cases h
      obtain ⟨inner, words, closing, rest, rfl, hclosing, hasks, hl⟩ :=
        (readRequest_eq_perform_iff_asks hhead).mp h
      exact ⟨true, inner, words, closing, rest, rfl, hclosing, hasks, hl⟩
    · obtain ⟨inner, words, closing, rest, heq, hclosing, hasks, hl⟩ :=
        (readRequest_eq_perform_iff_asks (by simpa using hlog)).mp h
      exact ⟨false, inner, words, closing, rest, heq, hclosing, hasks, hl⟩
  · rintro ⟨outer, inner, words, closing, rest, rfl, hclosing, hasks, hl⟩
    have hhead : (task.verb.word :: (words ++ closing)).head? ≠ some "--log" := by
      simpa using task.verb.word_ne_log
    have hread := (readRequest_eq_perform_iff_asks hhead).mpr
      ⟨inner, words, closing, rest, rfl, hclosing, hasks, hl⟩
    cases outer with
    | false => exact hread
    | true => exact hread

/-- The order of the words behind the verb makes no difference. -/
theorem Asks.perm {words words' rest : List String} {task : Task} {logging : Bool}
    (h : Asks words rest task logging) (hperm : words.Perm words') :
    Asks words' rest task logging := by
  refine ⟨hperm.count_eq _ ▸ h.log, hperm.count_eq _ ▸ h.json, ?_,
    fun w hw => h.words w (hperm.mem_iff.mpr hw), h.rest⟩
  -- There is one file at most, so there is nothing to put in order.
  have hfiles := (hperm.filter isFile).append_right rest
  rw [h.file] at hfiles
  cases hfile : task.file? with
  | none =>
      rw [hfile] at hfiles
      exact hfiles.symm.eq_nil
  | some file =>
      rw [hfile] at hfiles
      exact List.perm_singleton.mp hfiles.symm

/-- A task is asked for by its verb, its options and, behind two dashes, its file. -/
def Task.commandLine (task : Task) (logging : Bool) : List String :=
  task.verb.word ::
    ((if logging then ["--log"] else []) ++ (if task.json then ["--json"] else []) ++
      task.file?.elim [] fun file => ["--", file])

/-- Every task whose file has a name can be asked for. -/
theorem ofArguments_commandLine {task : Task} (logging : Bool) (h : task.file? ≠ some "") :
    Request.ofArguments (task.commandLine logging) = .perform task logging := by
  refine ofArguments_eq_perform_iff.mpr ⟨false, logging, _, _, task.file?.toList, rfl, ?_, ?_, rfl⟩
  · cases task.file? with
    | none => exact .inl ⟨rfl, rfl⟩
    | some file => exact .inr rfl
  · have hlog := not_isFile_of_isOption isOption_log
    have hjson := not_isFile_of_isOption isOption_json
    refine ⟨?_, ?_, ?_, ?_, ?_⟩
    · cases logging <;> cases task.json <;> rfl
    · cases logging <;> cases task.json <;> rfl
    · cases logging <;> cases task.json <;> simp [hlog, hjson]
    · cases logging <;> cases task.json <;> simp
    · cases hfile : task.file? with
      | none => simp
      | some file =>
          rw [hfile] at h
          simpa [eq_comm] using h

end Lox.Command
