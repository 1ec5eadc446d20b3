import Lox.Proofs.Scoping.Occurrences
import Mathlib.Data.List.Basic

/-!
The surroundings of a place and the frames of a walk.

A declaration is unfinished only in the initial value of its own variable, and it is the latest one
there. `FrameHolds` relates a frame of a walk to the declarations of the text, and by it the search
through the frames of a walk is the search for the nearest binding in the text.
-/

namespace Lox

open Resolution

namespace Surroundings

variable {S : Surroundings}

/-- What the walk knows of the functions and classes around a place. -/
def context (S : Surroundings) : Context := ⟨S.role, S.inClass⟩

@[simp] theorem context_declare (S : Surroundings) (name : Token) (unfinished : Bool) :
    (S.declare name unfinished).context = S.context := by
  unfold declare
  split <;> rfl

@[simp] theorem inClass_declare (S : Surroundings) (name : Token) (unfinished : Bool) :
    (S.declare name unfinished).inClass = S.inClass := by
  unfold declare
  split <;> rfl

@[simp] theorem tail_declare (S : Surroundings) (name : Token) (unfinished : Bool) :
    (S.declare name unfinished).frames.tail = S.frames.tail := by
  unfold declare
  split
  · rfl
  · rename_i hframes
    rw [hframes]
    rfl

theorem globals_declare (h : S.frames ≠ []) (name : Token) (unfinished : Bool) :
    (S.declare name unfinished).frames ≠ [] ∧
      (S.declare name unfinished).globals = S.globals := by
  unfold declare
  split
  · contradiction
  · simp

@[simp] theorem context_declareAll (S : Surroundings) (names : List Token) :
    (S.declareAll names).context = S.context := by
  induction names generalizing S with
  | nil => rfl
  | cons name names ih => exact (ih _).trans (context_declare S name false)

@[simp] theorem tail_declareAll (S : Surroundings) (names : List Token) :
    (S.declareAll names).frames.tail = S.frames.tail := by
  induction names generalizing S with
  | nil => rfl
  | cons name names ih => exact (ih _).trans (tail_declare S name false)

theorem globals_declareAll (names : List Token) (h : S.frames ≠ []) :
    (S.declareAll names).globals = S.globals := by
  induction names generalizing S with
  | nil => rfl
  | cons name names ih =>
      obtain ⟨hframes, hglobals⟩ := globals_declare h name false
      exact (ih hframes).trans hglobals

theorem declareAll_append (S : Surroundings) (names more : List Token) :
    S.declareAll (names ++ more) = (S.declareAll names).declareAll more :=
  List.foldl_append

/-- No declaration is unfinished where a function may stand, and a class body keeps its receiver
in a frame. -/
structure Hosts (S : Surroundings) : Prop where
  finished : ∀ frame ∈ S.frames, ∀ d ∈ frame, d.unfinished = false
  receiver : S.inClass → [⟨thisName, false⟩] ∈ S.frames

/-- Where a statement stands the receiver is further out than the innermost frame, so that no
declaration can take its place. -/
structure Settled (S : Surroundings) : Prop where
  finished : ∀ frame ∈ S.frames, ∀ d ∈ frame, d.unfinished = false
  receiver : S.inClass → [⟨thisName, false⟩] ∈ S.frames.tail

/-- Where an expression stands only the latest declaration may be unfinished. -/
structure Reads (S : Surroundings) : Prop where
  outer : ∀ frame ∈ S.frames.tail, ∀ d ∈ frame, d.unfinished = false
  innermost : ∀ frame ∈ S.frames.head?, ∀ d ∈ frame.tail, d.unfinished = false
  receiver : S.inClass → [⟨thisName, false⟩] ∈ S.frames.tail

theorem settled_outermost : outermost.Settled := by
  constructor <;> simp [outermost]

theorem Settled.hosts (h : S.Settled) : S.Hosts :=
  ⟨h.finished, fun hclass => List.mem_of_mem_tail (h.receiver hclass)⟩

theorem Settled.reads (h : S.Settled) : S.Reads where
  outer frame hframe := h.finished frame (List.mem_of_mem_tail hframe)
  innermost frame hframe d hd :=
    h.finished frame (List.mem_of_mem_head? hframe) d (List.mem_of_mem_tail hd)
  receiver := h.receiver

theorem Settled.declare (h : S.Settled) (name : Token) : (S.declare name false).Settled := by
  refine ⟨?_, by simpa using h.receiver⟩
  have hfinished := h.finished
  unfold Surroundings.declare
  split
  · exact hfinished
  · rename_i frame outer hframes
    rw [hframes] at hfinished
    intro frame' hframe' d hd
    rcases List.mem_cons.mp hframe' with rfl | houter
    · rcases List.mem_cons.mp hd with rfl | hd
      · rfl
      · exact hfinished frame List.mem_cons_self d hd
    · exact hfinished frame' (List.mem_cons_of_mem _ houter) d hd

theorem Settled.initial (h : S.Settled) (name : Token) : (S.declare name true).Reads := by
  refine ⟨?_, ?_, by simpa using h.receiver⟩
  · rw [tail_declare]
    exact h.reads.outer
  · have hfinished := h.finished
    unfold Surroundings.declare
    split
    · rename_i hframes
      simp [hframes]
    · rename_i frame outer hframes
      rw [hframes] at hfinished
      rintro _ ⟨⟩
      exact hfinished frame List.mem_cons_self

theorem Settled.declareAll (h : S.Settled) (names : List Token) :
    (S.declareAll names).Settled := by
  induction names generalizing S with
  | nil => exact h
  | cons name names ih => exact ih (h.declare name)

theorem Hosts.finished_cons (h : S.Hosts) {frame : List Declaration}
    (hframe : ∀ d ∈ frame, d.unfinished = false) :
    ∀ frame' ∈ frame :: S.frames, ∀ d ∈ frame', d.unfinished = false := by
  rintro frame' (⟨⟩ | ⟨_, hmem⟩)
  · exact hframe
  · exact h.finished frame' hmem

theorem Hosts.inBlock (h : S.Hosts) : S.inBlock.Settled :=
  ⟨h.finished_cons (by simp), h.receiver⟩

theorem Hosts.inFunction (h : S.Hosts) (role : Role) : (S.inFunction role).Settled :=
  ⟨h.finished_cons (by simp), h.receiver⟩

theorem Settled.inClassBody (h : S.Settled) : S.inClassBody.Hosts :=
  ⟨h.hosts.finished_cons (by simp), fun _ => List.mem_cons_self⟩

end Surroundings

/-- A frame of a walk holds the names of some declarations, with the state of the latest of each. -/
def Resolution.FrameHolds (F : Frame) (declarations : List Declaration) : Prop :=
  ∀ name, F.find? name = (latest? name declarations).map fun d => !d.unfinished

theorem latest?_cons (name : String) (d : Declaration) (declarations : List Declaration) :
    latest? name (d :: declarations) =
      if d.name = name then some d else latest? name declarations := by
  simp only [latest?, List.find?_cons]
  by_cases h : d.name = name <;> simp [h]

theorem latest?_isSome (name : String) (declarations : List Declaration) :
    (latest? name declarations).isSome ↔ ∃ d ∈ declarations, d.name = name := by
  simp [latest?, List.find?_isSome]

namespace Resolution

variable {F : Frame} {declarations : List Declaration} {frames : List Frame}
  {declared : List (List Declaration)}

theorem FrameHolds.empty : FrameHolds .empty [] := fun _ => rfl

theorem FrameHolds.receiver : FrameHolds (Bindings.empty.insert thisName true)
    [⟨thisName, false⟩] := by
  intro name
  rw [Bindings.find?_insert, latest?_cons]
  split <;> rfl

theorem FrameHolds.insert (h : FrameHolds F declarations) (name : String) (ready : Bool) :
    FrameHolds (F.insert name ready) (⟨name, !ready⟩ :: declarations) := by
  intro other
  rw [Bindings.find?_insert, latest?_cons]
  dsimp only
  split
  · simp
  · exact h other

theorem FrameHolds.finish {name : String} (h : FrameHolds F (⟨name, true⟩ :: declarations)) :
    FrameHolds (F.insert name true) (⟨name, false⟩ :: declarations) := by
  intro other
  rw [Bindings.find?_insert, latest?_cons]
  dsimp only
  split
  · rfl
  · rename_i hne
    rw [h other, latest?_cons, if_neg hne]

/-- The nearest frame that binds a name is the first one, and else it is known whether a reading
passed over an unfinished variable. -/
theorem find_eq (h : List.Forall₂ FrameHolds frames declared) (name : String) (reading : Bool)
    (distance : Nat) (unready : Bool) :
    find name reading distance unready frames =
      match declared.findIdx? (binds name reading) with
      | some d => .bound (distance + d)
      | none => .nowhere (unready || declared.any fun frame =>
          (latest? name frame).any fun d => reading && d.unfinished) := by
  induction h generalizing distance unready with
  | nil => simp [find]
  | @cons F frame frames declared hF _ ih =>
      rw [find, hF name, List.findIdx?_cons, List.any_cons]
      cases hlatest : latest? name frame with
      | none =>
          simp only [Option.map_none, binds, hlatest, Option.any_none, Bool.false_eq_true,
            if_false, ih]
          cases declared.findIdx? (binds name reading) with
          | none => simp
          | some d => simp [Nat.add_comm d 1, Nat.add_assoc]
      | some d =>
          by_cases hskips : (reading && d.unfinished) = true
          · have hbinds : binds name reading frame = false := by
              simpa [binds, hlatest] using hskips
            simp only [Option.map_some, Bool.not_not, hskips, if_true, hbinds, Option.any_some,
              Bool.false_eq_true, if_false, ih]
            cases declared.findIdx? (binds name reading) with
            | none => simp
            | some d => simp [Nat.add_comm d 1, Nat.add_assoc]
          · have hbinds : binds name reading frame = true := by
              rw [binds, hlatest, Option.any_some, Bool.eq_false_iff.mpr hskips]
              rfl
            simp [hskips, hbinds]

end Resolution

theorem Surroundings.Reads.passes_iff {S : Surroundings} (h : S.Reads) (name : String) :
    (S.frames.any fun frame => (latest? name frame).any fun d => d.unfinished) = true ↔
      S.initializing? = some name := by
  have houter := h.outer
  have hinnermost := h.innermost
  unfold Surroundings.initializing?
  cases hframes : S.frames with
  | nil => simp
  | cons frame outer =>
      rw [hframes] at houter hinnermost
      have hothers : (outer.any fun frame => (latest? name frame).any fun d => d.unfinished) =
          false := by
        rw [List.any_eq_false]
        intro frame' hframe'
        rw [Bool.not_eq_true, Option.any_eq_false]
        intro d hd
        simpa using houter frame' hframe' d (List.mem_of_find?_eq_some hd)
      rw [List.any_cons, hothers, Bool.or_false]
      cases frame with
      | nil => simp [latest?]
      | cons d frame =>
          have hlater : ((latest? name frame).any fun d => d.unfinished) = false := by
            rw [Option.any_eq_false]
            intro d' hd'
            simpa using hinnermost _ rfl d' (List.mem_of_find?_eq_some hd')
          obtain ⟨first, unfinished⟩ := d
          rw [latest?_cons]
          cases unfinished <;> by_cases hname : first = name <;> simp [hname, hlater]

theorem Surroundings.Reads.binds_receiver {S : Surroundings} (h : S.Reads) (hclass : S.inClass) :
    ∃ frame ∈ S.frames, binds thisName true frame :=
  ⟨_, List.mem_of_mem_tail (h.receiver hclass), by decide⟩

end Lox
