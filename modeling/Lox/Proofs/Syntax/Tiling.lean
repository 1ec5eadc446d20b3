import Lox.Proofs.Syntax.Lexemes
import Mathlib.Data.List.Forall2

/-!
The items of a text and the stretches that they stand for.

Every item stands for a stretch of the text between two boundaries of its characters. Between the
stretches lie gaps and comments and nothing else, and the line of an item is the one on which its
stretch ends.
-/

namespace Lox.Scan

/-- A stretch of a text. Both ends are boundaries of characters in the bytes of the text. -/
structure Span (source : String) where
  start : source.Pos
  stop : source.Pos
  start_le_stop : start ≤ stop

namespace Span

variable {source : String}

def text (s : Span source) : String := source.extract s.start s.stop

/-- The line on which the stretch ends, counted in line breaks. -/
def lastLine (s : Span source) : Nat := 1 + (source.sliceTo s.stop).copy.toList.count '\n'

/-- The character at `p` belongs to the stretch. -/
def Contains (s : Span source) (p : source.Pos) : Prop := s.start ≤ p ∧ p < s.stop

end Span

/-- The line that an item carries. -/
def Item.line : Item → Nat
  | token t => t.line
  | fault line _ => line

/-- The item is the token for the end of the input. -/
def Item.isEnd : Item → Bool
  | token t => t.isEnd
  | fault _ _ => false

/-- The item stands for this stretch: a token for the one that its lexeme spells, and a fault for
the one that is wrong. -/
structure Item.Fills {source : String} (item : Item) (s : Span source) : Prop where
  lexeme : ∀ t, item = .token t → t.lexeme = s.text
  fault : ∀ line f, item = .fault line f →
    IsFault f s.text.toList (source.sliceFrom s.stop).copy.toList
  line : item.line = s.lastLine
  isEnd_iff : item.isEnd ↔ s.start = s.stop

/-- All that lies between two places is gaps and comments, and none comes next. -/
structure OnlyTrivia {source : String} (p q : source.Pos) : Prop where
  le : p ≤ q
  skipped : Skipped (source.extract p q).toList (source.sliceFrom q).copy.toList

/-- The places between which nothing is covered: before each stretch, back to the one before it. -/
def gapsFrom {source : String} (p : source.Pos) :
    List (Span source) → List (source.Pos × source.Pos)
  | [] => []
  | s :: spans => (p, s.start) :: gapsFrom s.stop spans

/-- From `p` on the items stand for these stretches of the text, one after the other. -/
structure Tiles {source : String} (p : source.Pos) (items : List Item)
    (spans : List (Span source)) : Prop where
  fills : List.Forall₂ Item.Fills items spans
  ordered : spans.Pairwise fun s s' => s.stop ≤ s'.start
  trivia : ∀ gap ∈ gapsFrom p spans, OnlyTrivia gap.1 gap.2
  covered : ∀ q, p ≤ q → q < source.endPos →
    (∃! s, s ∈ spans ∧ s.Contains q) ∨
      (∀ s ∈ spans, ¬s.Contains q) ∧ ∃ gap ∈ gapsFrom p spans, gap.1 ≤ q ∧ q < gap.2

section

variable {source : String} {p q : source.Pos} {before : String} {w v rest : List Char}
  {spans : List (Span source)} {item : Item} {items : List Item} {line : Nat} {text : List Char}

theorem extract_of_splits {left middle right : String} (hp : p.Splits left (middle ++ right))
    (hq : q.Splits (left ++ middle) right) : p ≤ q ∧ source.extract p q = middle := by
  obtain ⟨hle, hmiddle⟩ := String.copy_slice_eq_iff_splits.mpr ⟨left, right, hp, hq⟩
  exact ⟨hle, by rw [String.extract_eq_copy_slice p q hle, hmiddle]⟩

theorem extract_self (p : source.Pos) : source.extract p p = "" :=
  (extract_of_splits (by simpa using p.splits) (by simpa using p.splits)).2

theorem exists_splits (hp : p.Splits before (String.ofList (w ++ rest))) :
    ∃ q : source.Pos, p ≤ q ∧ q.Splits (before ++ String.ofList w) (String.ofList rest) ∧
      source.extract p q = String.ofList w := by
  rw [String.ofList_append] at hp
  obtain ⟨hle, hextract⟩ := extract_of_splits hp hp.splits_rotateRight
  exact ⟨hp.rotateRight, hle, hp.splits_rotateRight, hextract⟩

theorem OnlyTrivia.of_skipped (h : Skipped w rest) (hle : p ≤ q)
    (hq : q.Splits before (String.ofList rest)) (hextract : source.extract p q = String.ofList w) :
    OnlyTrivia p q := by
  refine ⟨hle, ?_⟩
  rwa [hextract, hq.copy_sliceFrom_eq, String.toList_ofList, String.toList_ofList]

theorem lastLine_of_splits {s : Span source} {left right : String}
    (h : s.stop.Splits left right) : s.lastLine = 1 + left.toList.count '\n' := by
  rw [Span.lastLine, h.copy_sliceTo_eq]

theorem le_start_of_trivia (h : ∀ gap ∈ gapsFrom p spans, OnlyTrivia gap.1 gap.2) :
    ∀ s ∈ spans, p ≤ s.start := by
  induction spans generalizing p with
  | nil => simp
  | cons first spans ih =>
      rw [gapsFrom, List.forall_mem_cons] at h
      have hfirst : p ≤ first.start := h.1.le
      rintro s (_ | ⟨_, hs⟩)
      · exact hfirst
      · exact String.Pos.le_trans hfirst (String.Pos.le_trans first.start_le_stop (ih h.2 s hs))

theorem Tiles.le_start (h : Tiles p items spans) : ∀ s ∈ spans, p ≤ s.start :=
  le_start_of_trivia h.trivia

theorem Tiles.cons {s : Span source} (h : Tiles s.stop items spans) (hitem : item.Fills s)
    (htrivia : OnlyTrivia p s.start) : Tiles p (item :: items) (s :: spans) := by
  have hlater := h.le_start
  refine ⟨.cons hitem h.fills, List.pairwise_cons.mpr ⟨hlater, h.ordered⟩, ?_, ?_⟩
  · rw [gapsFrom, List.forall_mem_cons]
    exact ⟨htrivia, h.trivia⟩
  · intro q hpq hq
    have houtside : ∀ s' ∈ spans, q < s.stop → ¬s'.Contains q := fun s' hs' hlt hcontains =>
      Std.not_le.mpr (String.Pos.lt_of_lt_of_le hlt (hlater s' hs')) hcontains.1
    by_cases hstop : q < s.stop
    · by_cases hgap : q < s.start
      · -- `q` lies in the gap before the new stretch
        refine .inr ⟨?_, (p, s.start), List.mem_cons_self, hpq, hgap⟩
        rw [List.forall_mem_cons]
        exact ⟨fun hcontains => Std.not_le.mpr hgap hcontains.1,
          fun s' hs' => houtside s' hs' hstop⟩
      · -- `q` lies in the new stretch
        refine .inl ⟨s, ⟨List.mem_cons_self, Std.not_lt.mp hgap, hstop⟩, ?_⟩
        rintro s' ⟨_ | ⟨_, hs'⟩, hcontains⟩
        · rfl
        · exact absurd hcontains (houtside s' hs' hstop)
    · have hnot : ¬s.Contains q := fun hcontains => hstop hcontains.2
      rcases h.covered q (Std.not_lt.mp hstop) hq with
        ⟨s', ⟨hs', hcontains⟩, hunique⟩ | ⟨hnone, gap, hgap, hin⟩
      · refine .inl ⟨s', ⟨List.mem_cons_of_mem _ hs', hcontains⟩, ?_⟩
        rintro s'' ⟨_ | ⟨_, hs''⟩, hcontains''⟩
        · exact absurd hcontains'' hnot
        · exact hunique s'' ⟨hs'', hcontains''⟩
      · refine .inr ⟨?_, gap, List.mem_cons_of_mem _ hgap, hin⟩
        rw [List.forall_mem_cons]
        exact ⟨hnot, hnone⟩

theorem Tiles.last (htrivia : OnlyTrivia p source.endPos)
    (hline : line = 1 + source.toList.count '\n') :
    Tiles p [.token (.endOfInput line)]
      [⟨source.endPos, source.endPos, String.Pos.le_refl _⟩] := by
  have hsplits := String.splits_endPos source
  have hempty : Tiles source.endPos [] [] :=
    ⟨.nil, .nil, by simp [gapsFrom], fun q hle hlt => absurd hlt (Std.not_lt.mpr hle)⟩
  refine Tiles.cons (s := ⟨_, _, String.Pos.le_refl _⟩) hempty ⟨?_, nofun, ?_, ?_⟩ htrivia
  · rintro _ ⟨⟩
    exact (extract_self source.endPos).symm
  · rw [lastLine_of_splits hsplits, Item.line, hline]
    rfl
  · simp [Item.isEnd, Token.isEnd, Token.endOfInput]

theorem exists_tiles_cons (hp : p.Splits before (String.ofList (w ++ (v ++ rest))))
    (hskip : Skipped w (v ++ rest)) (hv : v ≠ [])
    (hlexeme : ∀ t, item = .token t → t.lexeme = String.ofList v)
    (hfault : ∀ line f, item = .fault line f → IsFault f v rest)
    (hline : item.line = 1 + before.toList.count '\n' + (w ++ v).count '\n')
    (hend : item.isEnd = false)
    (hrest : ∀ stop : source.Pos, stop.Splits (before ++ String.ofList w ++ String.ofList v)
      (String.ofList rest) → ∃ spans, Tiles stop items spans) :
    ∃ spans, Tiles p (item :: items) spans := by
  obtain ⟨start, hle, hstart, hgap⟩ := exists_splits hp
  obtain ⟨stop, hle', hstop, htext⟩ := exists_splits hstart
  obtain ⟨spans, htiles⟩ := hrest stop hstop
  have htrivia : OnlyTrivia p start := .of_skipped hskip hle hstart hgap
  refine ⟨⟨start, stop, hle'⟩ :: spans, htiles.cons ⟨?_, ?_, ?_, ?_⟩ htrivia⟩
  · rintro t rfl
    rw [hlexeme t rfl, Span.text, htext]
  · rintro line f rfl
    rw [Span.text, htext, hstop.copy_sliceFrom_eq, String.toList_ofList, String.toList_ofList]
    exact hfault line f rfl
  · rw [hline, lastLine_of_splits hstop, Nat.add_assoc]
    simp
  · rw [hend]
    refine ⟨nofun, fun heq => ?_⟩
    have hempty : String.ofList v = "" := by
      rw [← htext, show start = stop from heq, extract_self]
    exact absurd (by simpa using congrArg String.toList hempty) hv

/-- What is left of a text is tiled by its items. -/
theorem Lexes.exists_tiles (h : Lexes line text items) (hp : p.Splits before (String.ofList text))
    (hline : line = 1 + before.toList.count '\n') : ∃ spans, Tiles p items spans := by
  induction h generalizing p before with
  | @done line w h =>
      have hall : p.Splits before (String.ofList (w ++ [])) := by rwa [List.append_nil]
      obtain ⟨q, hle, hq, hextract⟩ := exists_splits hall
      obtain rfl : q = source.endPos := (hq.eq_endPos_iff).mpr rfl
      refine ⟨_, .last (.of_skipped h hle hq hextract) ?_⟩
      have hsource : source = before ++ String.ofList w := by simpa using hq.eq_append
      rw [hline, hsource]
      simp [Nat.add_assoc]
  | @token line w v rest k items hskip h _ ih =>
      refine exists_tiles_cons hp hskip h.ne_nil ?_ nofun ?_ ?_ fun stop hstop => ih hstop ?_
      · rintro _ ⟨⟩
        rfl
      · rw [Item.line, hline]
      · exact decide_eq_false h.kind_ne_end
      · simp [hline, Nat.add_assoc]
  | @fault line w v rest f items hskip h _ ih =>
      refine exists_tiles_cons hp hskip h.ne_nil nofun ?_ ?_ rfl fun stop hstop => ih hstop ?_
      · rintro _ _ ⟨⟩
        exact h
      · rw [Item.line, hline]
      · simp [hline, Nat.add_assoc]

theorem Span.lastLine_mono {s s' : Span source} (h : s.stop ≤ s'.stop) :
    s.lastLine ≤ s'.lastLine := by
  obtain ⟨between, hbetween, -⟩ := (s.stop.splits.le_iff_exists_eq_append s'.stop.splits).mp h
  rw [Span.lastLine, Span.lastLine, hbetween]
  simp

/-- Stretches in order end on lines in order. -/
theorem Tiles.lines_sorted (h : Tiles p items spans) :
    (items.map Item.line).Pairwise (· ≤ ·) := by
  have hlines : items.map Item.line = spans.map Span.lastLine := by
    rw [← List.forall₂_eq_eq_eq, List.forall₂_map_left_iff, List.forall₂_map_right_iff]
    exact h.fills.imp fun _ _ hfills => hfills.line
  rw [hlines, List.pairwise_map]
  exact h.ordered.imp fun hle => Span.lastLine_mono (String.Pos.le_trans hle (Span.start_le_stop _))

end

/-- The items of a text stand for stretches that follow each other, each item on the line on which
its stretch ends. Every character belongs to exactly one of them, but for the gaps and comments
between them, which belong to none. The end of the input comes last, and nowhere else. -/
theorem exists_tiles_items (source : String) :
    (∃ spans : List (Span source), Tiles source.startPos (items source) spans) ∧
      ((items source).map Item.line).Pairwise (· ≤ ·) ∧
      ∃ before last, items source = before ++ [last] ∧ last.isEnd ∧
        ∀ item ∈ before, item.isEnd = false := by
  have hlexes : Lexes 1 source.toList (items source) := items_eq_iff_lexes.mp rfl
  have hstart : source.startPos.Splits "" (String.ofList source.toList) := by simp
  obtain ⟨spans, htiles⟩ := hlexes.exists_tiles hstart rfl
  obtain ⟨before, stop, hitems, hbefore⟩ := hlexes.ends
  refine ⟨⟨spans, htiles⟩, htiles.lines_sorted, before, .token (.endOfInput stop), hitems, rfl, ?_⟩
  intro item hitem
  cases item with
  | token t => exact hbefore t hitem
  | fault line f => rfl

end Lox.Scan
