import Lox.Proofs.Commands.Listing
import Lox.Proofs.Commands.Utf8

namespace Lox

namespace Utf8.Fault

theorem toList_message_invalid (length index : Nat) :
    (invalid length index).message.toList =
      "invalid utf-8 sequence of ".toList ++
        (Nat.toDigits 10 length ++ ' ' ::
          ("bytes from index ".toList ++ Nat.toDigits 10 index)) := by
  unfold message
  simp

theorem toList_message_incomplete (index : Nat) :
    (incomplete index).message.toList =
      "incomplete utf-8 byte sequence from index ".toList ++ Nat.toDigits 10 index := by
  unfold message
  simp

theorem toDigits_inj {m n : Nat} (h : Nat.toDigits 10 m = Nat.toDigits 10 n) : m = n := by
  rw [← Number.digitsValue_toDigits m, h, Number.digitsValue_toDigits]

theorem message_inj {fault fault' : Fault} (h : fault.message = fault'.message) :
    fault = fault' := by
  have hspace (n : Nat) : ' ' ∉ Nat.toDigits 10 n := fun hmem =>
    absurd (Number.isDigit_of_mem_toDigits hmem) (by decide)
  rw [← String.toList_inj] at h
  cases fault with
  | invalid length index =>
      rw [toList_message_invalid] at h
      cases fault' with
      | invalid length' index' =>
          rw [toList_message_invalid] at h
          obtain ⟨hlength, hrest⟩ :=
            append_cons_inj (hspace _) (hspace _) (List.append_cancel_left h)
          rw [toDigits_inj hlength, toDigits_inj (List.append_cancel_left hrest)]
      | incomplete index' =>
          rw [toList_message_incomplete] at h
          simp at h
  | incomplete index =>
      rw [toList_message_incomplete] at h
      cases fault' with
      | invalid length' index' =>
          rw [toList_message_invalid] at h
          simp at h
      | incomplete index' =>
          rw [toList_message_incomplete] at h
          rw [toDigits_inj (List.append_cancel_left h)]

end Utf8.Fault

namespace Command

/-! ### Files -/

/-- A file can be read just if its bytes are those of a text. -/
theorem readText_eq_ok_iff {bytes : Except FileFault (List UInt8)} {text : String} :
    readText bytes = .ok text ↔ ∃ bs, bytes = .ok bs ∧ bs.toByteArray = text.toByteArray := by
  cases bytes with
  | error fault => simp [readText, Except.bind]
  | ok bs =>
      simp only [Except.ok.injEq, exists_eq_left', ← Utf8.decode_eq_ok_iff]
      rw [readText, Except.bind]
      cases Utf8.decode bs <;> simp [Except.mapError]

namespace FileFault

/-- What could not be done with the file, and the cause, unless the fault lies with its bytes. -/
def wording? : FileFault → Option (String × String)
  | absent => some ("open", "No such file or directory (os error 2)")
  | notDirectory => some ("open", "Not a directory (os error 20)")
  | denied => some ("open", "Permission denied (os error 13)")
  | nameTooLong => some ("open", "File name too long (os error 36)")
  | directory => some ("map", "No such device (os error 19)")
  | notText _ => none

variable {fault fault' : FileFault} {file file' verb verb' cause cause' : String}

theorem eq_of_wording?_eq (h : fault.wording? = some (verb, cause))
    (h' : fault'.wording? = some (verb, cause)) : fault = fault' := by
  rw [← h'] at h
  cases fault <;> cases fault' <;> simp [wording?] at h h' ⊢

theorem wording?_eq_none_iff : fault.wording? = none ↔ ∃ f, fault = .notText f := by
  cases fault <;> simp [wording?]

theorem space_not_mem_of_wording? (h : fault.wording? = some (verb, cause)) :
    ' ' ∉ verb.toList := by
  cases fault <;> cases h <;> decide

theorem toList_message_of_wording? (h : fault.wording? = some (verb, cause)) :
    (fault.message file).toList =
      "Failed to ".toList ++ (verb.toList ++ ' ' :: ("file ".toList ++
        ((Quoted.quote file).toList ++ ("\n\nCaused by:\n    ".toList ++ cause.toList)))) := by
  cases fault <;> cases h <;> simp [message, message.cannotOpen, withCause]

theorem head?_message_notText (f : Utf8.Fault) (file : String) :
    ((notText f).message file).toList.head? = some 'i' := by
  cases f with
  | invalid length index =>
      rw [message, Utf8.Fault.toList_message_invalid]
      rfl
  | incomplete index =>
      rw [message, Utf8.Fault.toList_message_incomplete]
      rfl

theorem head?_message_of_wording? (h : fault.wording? = some (verb, cause)) :
    (fault.message file).toList.head? = some 'F' := by
  rw [toList_message_of_wording? h]
  rfl

/-- The message of a fault tells it and, unless it lies with the bytes, the file. -/
theorem message_eq_iff :
    fault.message file = fault'.message file' ↔
      fault = fault' ∧ (file = file' ∨ ∃ f, fault = .notText f) := by
  constructor
  · intro h
    rw [← wording?_eq_none_iff]
    cases hw : fault.wording? with
    | none =>
        obtain ⟨f, rfl⟩ := wording?_eq_none_iff.mp hw
        cases hw' : fault'.wording? with
        | none =>
            obtain ⟨f', rfl⟩ := wording?_eq_none_iff.mp hw'
            exact ⟨congrArg _ (Utf8.Fault.message_inj h), .inr rfl⟩
        | some w =>
            have hhead := head?_message_notText f file
            rw [h, head?_message_of_wording? hw'] at hhead
            cases hhead
    | some w =>
        cases hw' : fault'.wording? with
        | none =>
            obtain ⟨f', rfl⟩ := wording?_eq_none_iff.mp hw'
            have hhead := head?_message_notText f' file'
            rw [← h, head?_message_of_wording? hw] at hhead
            cases hhead
        | some w' =>
            obtain ⟨verb, cause⟩ := w
            obtain ⟨verb', cause'⟩ := w'
            rw [← String.toList_inj, toList_message_of_wording? hw,
              toList_message_of_wording? hw'] at h
            obtain ⟨hverb, hrest⟩ := append_cons_inj (space_not_mem_of_wording? hw)
              (space_not_mem_of_wording? hw') (List.append_cancel_left h)
            obtain ⟨rfl, hcause⟩ := Quoted.quote_append_inj (List.append_cancel_left hrest)
            rw [← String.toList_inj.mp hverb,
              ← String.toList_inj.mp (List.append_cancel_left hcause)] at hw'
            exact ⟨eq_of_wording?_eq hw hw', .inl rfl⟩
  · rintro ⟨rfl, rfl | ⟨f, rfl⟩⟩
    · rfl
    · rfl

end FileFault

/-! ### Exit codes -/

section

variable {fuel : Nat} {clock : Nat → Float} {typed source file : String} {task : Task}
  {bytes : Except FileFault (List UInt8)}

theorem Task.respond_of_error {fault : FileFault} (hfile : task.file? = some file)
    (h : readText bytes = .error fault) :
    task.respond fuel clock bytes typed =
      ⟨fileErrorCode, "", "Error: " ++ fault.message file ++ "\n"⟩ := by
  cases task <;> cases hfile <;> simp [Task.respond, withFile, h]

/-- A response to a text. Without a fault there is nothing to tell about one. -/
def Response.Regular (r : Response) : Prop :=
  r.code = 0 ∧ r.stderr = "" ∨ r.code = staticErrorCode ∨ r.code = runtimeErrorCode

theorem regular_tokenize (source : String) (json : Bool) : (tokenize source json).Regular := by
  dsimp only [tokenize, staticCode, Response.Regular]
  split
  · rename_i h
    rw [List.isEmpty_iff] at h
    exact .inl ⟨rfl, by rw [h]; rfl⟩
  · exact .inr (.inl rfl)

theorem regular_parse (source : String) : (parse source).Regular := by
  dsimp only [parse]
  split
  · exact .inl ⟨rfl, rfl⟩
  · exact .inr (.inl rfl)

theorem regular_ofAnswer (output : String) (answer : Answer) :
    (Response.ofAnswer output answer).Regular := by
  cases answer with
  | completed | value _ => exact .inl ⟨rfl, rfl⟩
  | staticErrors _ => exact .inr (.inl rfl)
  | runtimeError _ | unfinished => exact .inr (.inr rfl)

theorem Task.regular_respond (hfile : task.file? = some file) (h : readText bytes = .ok source) :
    (task.respond fuel clock bytes typed).Regular := by
  cases task with
  | tokenize file json =>
      simp only [Task.respond, withFile, h]
      exact regular_tokenize source json
  | parse file =>
      simp only [Task.respond, withFile, h]
      exact regular_parse source
  | evaluate file | run file =>
      simp only [Task.respond, withFile, h]
      exact regular_ofAnswer _ _
  | repl => cases hfile

end

section

variable {fuel : Nat} {clock : Nat → Float} {typed : String} {request : Request}
  {contents : String → Except FileFault (List UInt8)}

/-- A request is help, misuse, the prompt, or a task on a file, which may be unreadable. -/
theorem Request.respond_cases (fuel : Nat) (clock : Nat → Float)
    (contents : String → Except FileFault (List UInt8)) (typed : String) (request : Request) :
    request = .help ∨ request = .misuse ∨ (∃ logging, request = .perform .repl logging) ∨
      ∃ task logging file, request = .perform task logging ∧ task.file? = some file ∧
        ((∃ fault, readText (contents file) = .error fault ∧
            request.respond fuel clock contents typed =
              ⟨fileErrorCode, "", "Error: " ++ fault.message file ++ "\n"⟩) ∨
          ∃ source, readText (contents file) = .ok source ∧
            (request.respond fuel clock contents typed).Regular) := by
  cases request with
  | help => exact .inl rfl
  | misuse => exact .inr (.inl rfl)
  | perform task logging =>
      cases hfile : task.file? with
      | none =>
          cases task with
          | repl => exact .inr (.inr (.inl ⟨logging, rfl⟩))
          | _ => cases hfile
      | some file =>
          refine .inr (.inr (.inr ⟨task, logging, file, rfl, hfile, ?_⟩))
          simp only [respond, hfile, Option.map_some, Option.getD_some]
          cases hread : readText (contents file) with
          | error fault => exact .inl ⟨fault, rfl, Task.respond_of_error hfile hread⟩
          | ok source => exact .inr ⟨source, rfl, Task.regular_respond hfile hread⟩

/-- Only a command line that is no request ends with the code of misuse. -/
theorem Request.code_respond_eq_misuseCode_iff :
    (request.respond fuel clock contents typed).code = misuseCode ↔ request = .misuse := by
  constructor
  · intro h
    obtain rfl | rfl | ⟨logging, rfl⟩ | ⟨task, logging, file, rfl, -, hrespond⟩ :=
      request.respond_cases fuel clock contents typed
    · cases h
    · rfl
    · cases h
    · obtain ⟨fault, -, hrespond⟩ | ⟨source, -, hregular⟩ := hrespond
      · rw [hrespond] at h
        cases h
      · obtain ⟨hcode, -⟩ | hcode | hcode := hregular
        all_goals
          rw [hcode] at h
          cases h
  · rintro rfl
    rfl

/-- Only a file that cannot be read ends with the code of its faults. -/
theorem Request.code_respond_eq_fileErrorCode_iff :
    (request.respond fuel clock contents typed).code = fileErrorCode ↔
      ∃ task logging file fault, request = .perform task logging ∧ task.file? = some file ∧
        readText (contents file) = .error fault := by
  constructor
  · intro h
    obtain rfl | rfl | ⟨logging, rfl⟩ | ⟨task, logging, file, rfl, hfile, hrespond⟩ :=
      request.respond_cases fuel clock contents typed
    · cases h
    · cases h
    · cases h
    · obtain ⟨fault, hread, -⟩ | ⟨source, -, hregular⟩ := hrespond
      · exact ⟨task, logging, file, fault, rfl, hfile, hread⟩
      · obtain ⟨hcode, -⟩ | hcode | hcode := hregular
        all_goals
          rw [hcode] at h
          cases h
  · rintro ⟨task, logging, file, fault, rfl, hfile, hread⟩
    simp only [respond, hfile, Option.map_some, Option.getD_some]
    rw [Task.respond_of_error hfile hread]

/-- Away from the prompt, a response that tells of a fault has another code than zero. -/
theorem Request.stderr_respond_eq_empty (hrepl : ∀ logging, request ≠ .perform .repl logging)
    (h : (request.respond fuel clock contents typed).code = 0) :
    (request.respond fuel clock contents typed).stderr = "" := by
  obtain rfl | rfl | ⟨logging, rfl⟩ | ⟨task, logging, file, rfl, -, hrespond⟩ :=
    request.respond_cases fuel clock contents typed
  · rfl
  · cases h
  · exact absurd rfl (hrepl logging)
  · obtain ⟨fault, -, hrespond⟩ | ⟨source, -, ⟨-, hstderr⟩ | hcode | hcode⟩ := hrespond
    · rw [hrespond] at h
      cases h
    · exact hstderr
    all_goals
      rw [hcode] at h
      cases h

end

/-! ### Tasks on one file -/

section

variable {fuel : Nat} {clock : Nat → Float} {typed source file : String} {task : Task}
  {json : Bool} {bytes : Except FileFault (List UInt8)}

theorem faultLines_append (faults faults' : List Diagnostic) :
    faultLines (faults ++ faults') = faultLines faults ++ faultLines faults' := by
  simp [faultLines, lines]

theorem run_of_reports {s : Session} (h : (readProgram source).reports ≠ []) :
    s.run fuel source = (.staticErrors (readProgram source).reports, s) := by
  simp [Session.run, h]

theorem evaluate_of_reports {s : Session} (h : (readExpression source).reports ≠ []) :
    s.evaluate fuel source = (.staticErrors (readExpression source).reports, s) := by
  simp only [Session.evaluate]
  split
  · rename_i hnil
    exact absurd hnil h
  · rfl

theorem tokenize_of_diagnostics (h : Scan.diagnostics source ≠ []) :
    (tokenize source json).code = staticErrorCode ∧
      (tokenize source json).stderr = faultLines (Scan.diagnostics source) := by
  rw [Scan.diagnostics] at h ⊢
  dsimp only [tokenize, staticCode]
  rw [if_neg (by rwa [List.isEmpty_iff])]
  exact ⟨rfl, rfl⟩

theorem parse_of_reports (h : (readProgram source).reports ≠ []) :
    parse source = ⟨staticErrorCode, "", faultLines (readProgram source).reports⟩ := by
  simp [parse, h]

/-- A text that `parse` refuses is refused by `run` with the same response. -/
theorem respond_run_of_parse
    (h : ((Task.parse file).respond fuel clock bytes typed).code ≠ 0) :
    (Task.run file).respond fuel clock bytes typed =
      (Task.parse file).respond fuel clock bytes typed := by
  simp only [Task.respond, withFile] at h ⊢
  cases hread : readText bytes with
  | error fault => rfl
  | ok source =>
      rw [hread] at h
      have hreports : (readProgram source).reports ≠ [] := by
        intro hnil
        simp [parse, hnil] at h
      simp only [run_of_reports hreports, parse_of_reports hreports]
      rfl

theorem respond_of_diagnostics (hfile : task.file? = some file)
    (hread : readText bytes = .ok source) (hne : Scan.diagnostics source ≠ []) :
    ∃ later, (task.respond fuel clock bytes typed).code = staticErrorCode ∧
      (task.respond fuel clock bytes typed).stderr =
        faultLines (Scan.diagnostics source) ++ faultLines later := by
  cases task with
  | tokenize file json =>
      simp only [Task.respond, withFile, hread]
      obtain ⟨hcode, hstderr⟩ := tokenize_of_diagnostics hne
      exact ⟨[], hcode, by rw [hstderr, ← faultLines_append, List.append_nil]⟩
  | parse file =>
      have hreports : (readProgram source).reports ≠ [] := List.append_ne_nil_of_left_ne_nil hne _
      simp only [Task.respond, withFile, hread, parse_of_reports hreports]
      exact ⟨_, trivial, faultLines_append _ _⟩
  | evaluate file =>
      have hreports : (readExpression source).reports ≠ [] :=
        List.append_ne_nil_of_left_ne_nil hne _
      simp only [Task.respond, withFile, hread, evaluate_of_reports hreports]
      exact ⟨_, rfl, faultLines_append _ _⟩
  | run file =>
      have hreports : (readProgram source).reports ≠ [] := List.append_ne_nil_of_left_ne_nil hne _
      simp only [Task.respond, withFile, hread, run_of_reports hreports]
      exact ⟨_, rfl, faultLines_append _ _⟩
  | repl => cases hfile

/-- What `tokenize` refuses, every other task refuses as well, and tells the same first. -/
theorem respond_of_tokenize (hfile : task.file? = some file)
    (h : ((Task.tokenize file json).respond fuel clock bytes typed).code ≠ 0) :
    ∃ later, (task.respond fuel clock bytes typed).code =
        ((Task.tokenize file json).respond fuel clock bytes typed).code ∧
      (task.respond fuel clock bytes typed).stderr =
        ((Task.tokenize file json).respond fuel clock bytes typed).stderr ++ later := by
  cases hread : readText bytes with
  | error fault =>
      rw [Task.respond_of_error hfile hread, Task.respond_of_error rfl hread]
      exact ⟨"", rfl, (String.append_empty).symm⟩
  | ok source =>
      have htokenize :
          (Task.tokenize file json).respond fuel clock bytes typed = tokenize source json := by
        simp only [Task.respond, withFile, hread]
      rw [htokenize] at h ⊢
      have hne : Scan.diagnostics source ≠ [] := by
        intro hnil
        rw [Scan.diagnostics] at hnil
        simp [tokenize, staticCode, hnil] at h
      obtain ⟨later, hcode, hstderr⟩ := respond_of_diagnostics hfile hread hne
      obtain ⟨hcode', hstderr'⟩ := tokenize_of_diagnostics hne
      rw [hcode', hstderr']
      exact ⟨_, hcode, hstderr⟩

/-- Texts with the same listing have the same tokens. -/
theorem tokens_eq_of_tokenize_eq {source' : String}
    (h : (tokenize source true).stdout = (tokenize source' true).stdout) :
    Scan.tokens source = Scan.tokens source' := by
  have hlisting (source : String) :
      (tokenize source true).stdout = Token.listing (Scan.tokens source) ++ "\n" := by
    simp [tokenize, lines, Scan.tokens]
  rw [hlisting, hlisting, ← String.toList_inj, String.toList_append, String.toList_append] at h
  exact Scan.tokens_eq_of_listing_eq (String.toList_inj.mp (List.append_cancel_right h))

end

end Command

end Lox
