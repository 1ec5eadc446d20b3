import Lox.Proofs.Commands.Responses
import Lox.Proofs.Identities.Rejections

/-!
The dialogue at the prompt.

Each typed line is a unit of one session, and the dialogue shows what each of them writes. A line
that is refused shows its faults and does nothing else.
-/

namespace Lox

namespace Command

/-! ### Lines -/

theorem trimReturn_of_ne {line : List Char} (h : line.getLast? ≠ some '\r') :
    trimReturn line = line := by
  unfold trimReturn
  split
  · rename_i rest hrest
    rw [← List.head?_reverse, hrest] at h
    exact absurd rfl h
  · rfl

theorem typedLines_append_cons {line : List Char} (h : '\n' ∉ line) (rest : List Char) :
    typedLines (.ofList (line ++ '\n' :: rest)) =
      .ofList (trimReturn line) :: typedLines (.ofList rest) := by
  have hne := List.splitOn_ne_nil '\n' rest
  obtain ⟨first, parts, hparts⟩ := List.exists_cons_of_ne_nil hne
  unfold typedLines
  simp only [String.toList_ofList, List.splitOn_append_cons_self_of_not_mem h, hparts,
    List.getLast?_cons_cons]
  split
  · rename_i hnone
    simp at hnone
  · split <;> simp

theorem typedLines_of_not_mem {line : List Char} (h : '\n' ∉ line) :
    typedLines (.ofList line) = if line = [] then [] else [.ofList line] := by
  unfold typedLines
  rw [String.toList_ofList, List.splitOn_eq_singleton h]
  cases line <;> simp

theorem lines_cons (text : String) (texts : List String) :
    lines (text :: texts) = text ++ "\n" ++ lines texts := by
  simp [lines]

/-- Lines are read as they were typed. -/
theorem typedLines_lines_append {texts : List String}
    (h : ∀ text ∈ texts, '\n' ∉ text.toList ∧ text.toList.getLast? ≠ some '\r') (rest : String) :
    typedLines (lines texts ++ rest) = texts ++ typedLines rest := by
  induction texts with
  | nil => simp [lines]
  | cons text texts ih =>
      obtain ⟨⟨hbreak, hreturn⟩, htexts⟩ := List.forall_mem_cons.mp h
      have htext : lines (text :: texts) ++ rest =
          .ofList (text.toList ++ '\n' :: (lines texts ++ rest).toList) := by
        rw [← String.toList_inj, lines_cons]
        simp
      rw [htext, typedLines_append_cons hbreak, trimReturn_of_ne hreturn, String.ofList_toList,
        String.ofList_toList, ih htexts, List.cons_append]

/-! ### Replies -/

section

variable {fuel : Nat} {s : Session}

/-- The lines with the responses to them. -/
def replies (fuel : Nat) (s : Session) : List String → List (String × Response)
  | [] => []
  | line :: lines =>
      (line, (replLine fuel s line).1) :: replies fuel (replLine fuel s line).2 lines

theorem exists_foldl_eq (fuel : Nat) (s : Session) (stdout stderr : String)
    (typed : List String) :
    ∃ s', typed.foldl (fun (stdout, stderr, s) line =>
        let (r, s) := replLine fuel s line
        (stdout ++ prompt ++ r.stdout, stderr ++ r.stderr, s)) (stdout, stderr, s) =
      (stdout ++ String.join ((replies fuel s typed).map fun r => prompt ++ r.2.stdout),
        stderr ++ String.join ((replies fuel s typed).map fun r => r.2.stderr), s') := by
  induction typed generalizing stdout stderr s with
  | nil => exact ⟨s, by simp [replies]⟩
  | cons line typed ih =>
      obtain ⟨s', hfold⟩ := ih (replLine fuel s line).2
        (stdout ++ prompt ++ (replLine fuel s line).1.stdout)
        (stderr ++ (replLine fuel s line).1.stderr)
      refine ⟨s', ?_⟩
      rw [List.foldl_cons]
      refine hfold.trans ?_
      simp [replies, String.append_assoc]

/-- A dialogue shows each reply after a prompt, and one more prompt at the end. -/
theorem repl_eq (typed : String) :
    repl fuel s typed =
      ⟨0, String.join ((replies fuel s (typedLines typed)).map fun r => prompt ++ r.2.stdout) ++
          prompt ++ "\n",
        String.join ((replies fuel s (typedLines typed)).map fun r => r.2.stderr)⟩ := by
  obtain ⟨s', hfold⟩ := exists_foldl_eq fuel s "" "" (typedLines typed)
  rw [repl, hfold]
  simp

/-- A text of one line writes the same at the prompt and from a file. -/
theorem repl_eq_of_run {clock : Nat → Float} {line file typed : String}
    {bytes : Except FileFault (List UInt8)} (hline : line ≠ "") (hbreak : '\n' ∉ line.toList)
    (hbytes : readText bytes = .ok line) :
    repl fuel (.new clock) line =
      ⟨0, prompt ++ ((Task.run file).respond fuel clock bytes typed).stdout ++ prompt ++ "\n",
        ((Task.run file).respond fuel clock bytes typed).stderr⟩ := by
  have hlines : typedLines line = [line] := by
    have htyped := typedLines_of_not_mem hbreak
    rwa [String.ofList_toList, if_neg (by simpa using hline)] at htyped
  have hreply : (replLine fuel (.new clock) line).1 =
      (Task.run file).respond fuel clock bytes typed := by
    simp only [Task.respond, withFile, hbytes]
    rfl
  rw [repl_eq, hlines, replies, replies, List.map_cons, List.map_cons, hreply]
  simp

end

/-! ### Refused lines -/

theorem ofAnswer_relabel (output : String) (answer : Answer) (f : NodeId → NodeId) :
    Response.ofAnswer output (answer.relabel f) = .ofAnswer output answer := by
  cases answer with
  | value v =>
      have htext : (v.relabel f).text = v.text := by
        rw [← Value.join_pieces, Value.pieces_relabel, Value.join_pieces]
      simp only [Answer.relabel, Response.ofAnswer, htext]
  | _ => rfl

theorem code_ofAnswer_eq_staticErrorCode_iff {output : String} {answer : Answer} :
    (Response.ofAnswer output answer).code = staticErrorCode ↔ answer.isRejection := by
  cases answer <;> simp [Response.ofAnswer, Answer.isRejection, staticErrorCode, runtimeErrorCode]

/-- The replies to lines that were not refused. -/
def unrefused (replies : List (String × Response)) : List (String × Response) :=
  replies.filter fun r => r.2.code ≠ staticErrorCode

end Command

namespace Twins

open Command

variable {known : List NodeId} {f : NodeId → NodeId} {s s' : Session} {fuel : Nat}

theorem replLine (h : Twins known f (s.writingTo .endless) (s'.writingTo .endless)) (fuel : Nat)
    (line : String) :
    (replLine fuel s' line).1 = (replLine fuel s line).1 ∧
      ∃ known' f', Twins known' f' ((replLine fuel s line).2.writingTo .endless)
        ((replLine fuel s' line).2.writingTo .endless) := by
  obtain ⟨known', f', hanswer, htwins⟩ := h.take .numbering .numbering (.run fuel line)
  rw [Reader.take_numbering] at hanswer htwins
  obtain ⟨known'', f'', -, hnext⟩ := htwins.take .numbering .numbering (.writeTo .endless)
  refine ⟨?_, known'', f'', hnext⟩
  have houtput := htwins.output
  simp only [Session.take] at hanswer houtput
  simp only [Command.replLine]
  rw [hanswer, houtput, ofAnswer_relabel]

theorem replies_unrefused (h : Twins known f (s.writingTo .endless) (s'.writingTo .endless))
    (typed : List String) :
    replies fuel s' ((unrefused (replies fuel s typed)).map Prod.fst) =
      unrefused (replies fuel s typed) := by
  induction typed generalizing known f s s' with
  | nil => rfl
  | cons line typed ih =>
      rw [replies, unrefused, List.filter_cons]
      by_cases hcode : (Command.replLine fuel s line).1.code = staticErrorCode
      -- the other session goes past the references of the line, and has its sink as before
      · have hrejected :
            (Reader.numbering.take (s.writingTo .endless) (.run fuel line)).1.isRejection := by
          rw [Reader.take_numbering]
          exact code_ofAnswer_eq_staticErrorCode_iff.mp hcode
        obtain ⟨built, hpast⟩ := Reader.numbering.take_of_rejected hrejected
        rw [Reader.take_numbering] at hpast
        have hnext : (Command.replLine fuel s line).2 = (s.writingTo .endless).past built := hpast
        rw [if_neg (by simp [hcode]), hnext]
        exact ih (h.past built [])
      · obtain ⟨hreply, known', f', htwins⟩ := h.replLine fuel line
        rw [if_pos (by simp [hcode]), List.map_cons, replies, hreply]
        exact congrArg _ (ih htwins)

end Twins

namespace Command

/-- The lines of a dialogue that are not refused get the same replies without the others. -/
theorem replies_unrefused (fuel : Nat) (clock : Nat → Float) (typed : List String) :
    replies fuel (.new clock) ((unrefused (replies fuel (.new clock) typed)).map Prod.fst) =
      unrefused (replies fuel (.new clock) typed) :=
  have htwins : Twins [] id ((Session.new clock).writingTo .endless)
      ((Session.new clock).writingTo .endless) := twins_new clock 0 0
  htwins.replies_unrefused typed

end Command

end Lox
