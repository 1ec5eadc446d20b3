import Lox.Tree.Text

/-!
Bracketed texts.

A form is a word or a group of forms in brackets. Of a text that is made of words, spaces and
brackets a reader finds out the forms, one character after the other, so a text is the writing of
one list of forms at most.
-/

namespace Lox

inductive Form
  | word (w : String)
  | group (parts : List Form)

namespace Form

/-- What has been read of a text: the letters of the word that is not ended yet, the parts of the
innermost group that is open, and those of the groups around it, all of them last first. -/
structure Reader where
  letters : List Char
  parts : List Form
  outer : List (List Form)

namespace Reader

/-- A word ends where something else begins. -/
def endWord : Reader → Reader
  | ⟨[], parts, outer⟩ => ⟨[], parts, outer⟩
  | ⟨letters, parts, outer⟩ => ⟨[], .word (String.ofList letters.reverse) :: parts, outer⟩

def opened (r : Reader) : Reader := ⟨[], [], r.parts :: r.outer⟩

def closed : Reader → Reader
  | ⟨_, parts, around :: outer⟩ => ⟨[], .group parts.reverse :: around, outer⟩
  | r => r

def step (r : Reader) (c : Char) : Reader :=
  if c = '(' then r.endWord.opened
  else if c = ')' then r.endWord.closed
  else if c = ' ' then r.endWord
  else { r with letters := c :: r.letters }

def read (r : Reader) (text : String) : Reader := text.toList.foldl step r

theorem read_append (r : Reader) (s t : String) : r.read (s ++ t) = (r.read s).read t := by
  rw [read, String.toList_append, List.foldl_append]
  rfl

theorem read_space (r : Reader) : r.read " " = r.endWord := rfl

theorem read_close (r : Reader) : r.read ")" = r.endWord.closed := rfl

theorem read_open (parts : List Form) (outer : List (List Form)) :
    (Reader.mk [] parts outer).read "(" = ⟨[], [], parts :: outer⟩ := rfl

end Reader

/-- The text is a writing of the forms. -/
def Writes (text : String) (fs : List Form) : Prop :=
  ∀ parts outer, ((Reader.mk [] parts outer).read text).endWord = ⟨[], fs.reverse ++ parts, outer⟩

/-- The text opens a group that begins with the forms. -/
def Opens (text : String) (fs : List Form) : Prop :=
  ∀ parts outer, ((Reader.mk [] parts outer).read text).endWord = ⟨[], fs.reverse, parts :: outer⟩

variable {s t w : String} {fs gs : List Form} {f : Form}

theorem Writes.unique (h : Writes s fs) (h' : Writes s gs) : fs = gs := by
  have heq := (h [] []).symm.trans (h' [] [])
  simpa using heq

/-- A word is not empty, and in it stands nothing that ends a word. -/
structure IsUnbroken (w : String) : Prop where
  ne_empty : w ≠ ""
  letters : ∀ c ∈ w.toList, c ≠ '(' ∧ c ≠ ')' ∧ c ≠ ' '

theorem isUnbroken_iff :
    IsUnbroken w ↔ w ≠ "" ∧ w.toList.all (fun c => c != '(' && c != ')' && c != ' ') = true := by
  simp only [List.all_eq_true, Bool.and_eq_true, bne_iff_ne, and_assoc]
  exact ⟨fun h => ⟨h.ne_empty, h.letters⟩, fun h => ⟨h.1, h.2⟩⟩

instance (w : String) : Decidable (IsUnbroken w) := decidable_of_iff _ isUnbroken_iff.symm

theorem Reader.foldl_letters {cs : List Char} (h : ∀ c ∈ cs, c ≠ '(' ∧ c ≠ ')' ∧ c ≠ ' ')
    (r : Reader) : cs.foldl step r = { r with letters := cs.reverse ++ r.letters } := by
  induction cs generalizing r with
  | nil => rfl
  | cons c cs ih =>
      obtain ⟨⟨hopen, hclose, hspace⟩, hcs⟩ := List.forall_mem_cons.mp h
      rw [List.foldl_cons, ih hcs, step, if_neg hopen, if_neg hclose, if_neg hspace]
      simp

theorem Writes.nil : Writes "" [] := fun _ _ => rfl

theorem Writes.word (hw : IsUnbroken w) : Writes w [.word w] := by
  intro parts outer
  have hread := Reader.foldl_letters hw.letters ⟨[], parts, outer⟩
  rw [Reader.read, hread]
  dsimp only
  rw [List.append_nil]
  have hne : w.toList.reverse ≠ [] := by simpa using hw.ne_empty
  obtain ⟨c, cs, hletters⟩ := List.exists_cons_of_ne_nil hne
  have hword : String.ofList (c :: cs).reverse = w := by
    rw [← hletters, List.reverse_reverse, String.ofList_toList]
  rw [hletters, Reader.endWord, hword]
  · rfl
  · exact fun h => List.cons_ne_nil _ _ h

theorem Writes.append (hs : Writes s fs) (ht : Writes t gs) :
    Writes (s ++ " " ++ t) (fs ++ gs) := by
  intro parts outer
  rw [Reader.read_append, Reader.read_append, Reader.read_space, hs, ht, List.reverse_append,
    List.append_assoc]

theorem Writes.words {ws : List String} (h : ∀ w ∈ ws, IsUnbroken w) :
    Writes (" ".intercalate ws) (ws.map .word) := by
  induction ws with
  | nil => exact .nil
  | cons w ws ih =>
      obtain ⟨hw, hws⟩ := List.forall_mem_cons.mp h
      cases ws with
      | nil => exact .word hw
      | cons v ws =>
          rw [String.intercalate_cons_cons]
          exact (Writes.word hw).append (ih hws)

theorem Writes.opens (h : Writes t fs) : Opens ("(" ++ t) fs := by
  intro parts outer
  rw [Reader.read_append, Reader.read_open, h, List.append_nil]

theorem Opens.word (w : String) (hw : IsUnbroken w) : Opens ("(" ++ w) [.word w] :=
  (Writes.word hw).opens

theorem Opens.append (h : Opens s fs) (ht : Writes t gs) : Opens (s ++ " " ++ t) (fs ++ gs) := by
  intro parts outer
  rw [Reader.read_append, Reader.read_append, Reader.read_space, h, ht, List.reverse_append]

theorem Opens.close (h : Opens s fs) : Writes (s ++ ")") [.group fs] := by
  intro parts outer
  rw [Reader.read_append, Reader.read_close, h]
  simp [Reader.closed, Reader.endWord]

/-- A bracket ends a word, so no space has to stand before a group. -/
theorem Opens.append_group (h : Opens s fs) (ht : Writes t gs) :
    Opens (s ++ ("(" ++ t ++ ")")) (fs ++ [.group gs]) := by
  intro parts outer
  rw [Reader.read_append, Reader.read_append, Reader.read_append, Reader.read_close]
  have hopen (r : Reader) : r.read "(" = r.endWord.opened := rfl
  rw [hopen, h, Reader.opened, ht]
  simp [Reader.closed, Reader.endWord]

end Form

end Lox
