import Lox.Proofs.Likeness.Trees
import Lox.Proofs.Scoping.Resolver

/-!
Two programs in which one name is spelled differently.

In marked frames the old name of one program corresponds to the new name of the other. References
are resolved to the same distance in both, as long as the new name occurs nowhere in the first.
-/

namespace Lox

open Resolution Scoping

/-- How two programs correspond. Tokens at which a fault can be found are related, and references
are those of known nodes, with their distances. -/
structure Correspondence where
  old : String
  new : String
  hops : NodeId → Option Nat
  known : NodeId → Prop
  token : Token → Token → Prop
  kind_eq : ∀ {t t' : Token}, token t t' → t'.kind = t.kind
  lexeme_eq : ∀ {t t' : Token}, token t t' → t'.lexeme = t.lexeme
  this_ne_old : old ≠ new → thisName ≠ old
  this_ne_new : old ≠ new → thisName ≠ new

namespace Correspondence

variable (C : Correspondence)

/-- What a name in a frame corresponds to. In a marked frame the new name stands for the old one,
so it does not occur itself. -/
def Spelled (mark : Bool) (name name' : String) : Prop :=
  if mark ∧ name = C.old then name' = C.new else name' = name ∧ (mark → name ≠ C.new)

/-- The name is not the new one, unless no name is changed at all. -/
def Fresh (name : String) : Prop := C.old ≠ C.new → name ≠ C.new

def likeness : Likeness NodeId where
  token := C.token
  reference Δ node t t' :=
    C.known node ∧ (C.hops node = none → C.token t t') ∧
      ∀ distance, C.hops node = some distance →
        ∃ mark, Δ[distance]? = some mark ∧ C.Spelled mark t.lexeme t'.lexeme
  binder Δ t t' := C.Spelled (Δ.headD false) t.lexeme t'.lexeme
  title Δ t t' := C.token t t' ∧ C.Spelled (Δ.headD false) t.lexeme t'.lexeme

variable {C} {mark : Bool} {name name' : String}

theorem spelled_false_iff : C.Spelled false name name' ↔ name' = name := by
  simp [Spelled]

theorem spelled_this (C : Correspondence) (mark : Bool) : C.Spelled mark thisName thisName := by
  have hold := C.this_ne_old
  have hnew := C.this_ne_new
  unfold Spelled
  grind

theorem Spelled.eq_or_old (h : C.Spelled mark name name') :
    name' = name ∨ (name = C.old ∧ name' = C.new) := by
  unfold Spelled at h
  split at h
  · rename_i hold
    exact .inr ⟨hold.2, h⟩
  · exact .inl h.1

/-- Different names correspond to different names. -/
theorem Spelled.eq_iff {other other' : String} (h : C.Spelled mark name name')
    (hother : C.Spelled mark other other') : name' = other' ↔ name = other := by
  unfold Spelled at h hother
  grind

/-- A frame of the one program corresponds to one of the other. -/
structure FrameAlike (C : Correspondence) (mark : Bool) (F F' : Frame) : Prop where
  spelled : ∀ name name', C.Spelled mark name name' → F'.find? name' = F.find? name
  new : C.old ≠ C.new → F.find? C.new = none
  old : C.old ≠ C.new → mark = true → F'.find? C.old = none

inductive FramesAlike (C : Correspondence) : List Bool → List Frame → List Frame → Prop
  | nil : FramesAlike C [] [] []
  | cons {mark : Bool} {Δ : List Bool} {F F' : Frame} {Fs Fs' : List Frame}
      (h : C.FrameAlike mark F F') (hs : FramesAlike C Δ Fs Fs') :
      FramesAlike C (mark :: Δ) (F :: Fs) (F' :: Fs')

theorem FrameAlike.empty (mark : Bool) : C.FrameAlike mark .empty .empty :=
  ⟨fun _ _ _ => rfl, fun _ => rfl, fun _ _ => rfl⟩

theorem FrameAlike.receiver :
    C.FrameAlike false (Bindings.empty.insert thisName true)
      (Bindings.empty.insert thisName true) := by
  refine ⟨?_, ?_, by simp⟩
  · intro name name' hname
    rw [spelled_false_iff.mp hname]
  · intro hne
    rw [Bindings.find?_insert_of_ne _ _ (C.this_ne_new hne), Bindings.find?_empty]

theorem FrameAlike.insert {F F' : Frame} (h : C.FrameAlike mark F F')
    (hname : C.Spelled mark name name') (hfresh : C.Fresh name) (ready : Bool) :
    C.FrameAlike mark (F.insert name ready) (F'.insert name' ready) := by
  refine ⟨?_, ?_, ?_⟩
  · intro other other' hother
    rw [Bindings.find?_insert, Bindings.find?_insert, h.spelled other other' hother]
    simp only [hname.eq_iff hother]
  · intro hne
    rw [Bindings.find?_insert_of_ne _ _ (hfresh hne), h.new hne]
  · rintro hne rfl
    have hold : name' ≠ C.old := by
      unfold Spelled at hname
      grind
    rw [Bindings.find?_insert_of_ne _ _ hold, h.old hne rfl]

theorem FrameAlike.find?_or {F F' : Frame} (h : C.FrameAlike mark F F')
    (hname : name' = name ∨ (name = C.old ∧ name' = C.new)) (hfresh : C.Fresh name) :
    F'.find? name' = F.find? name ∨ F'.find? name' = none := by
  by_cases hne : C.old = C.new
  · have hsame : name' = name := by
      rcases hname with h | ⟨h, h'⟩
      · exact h
      · rw [h, h', hne]
    refine .inl (h.spelled name name' ?_)
    unfold Spelled
    grind
  · have hnew := h.new hne
    rcases hname with rfl | ⟨rfl, rfl⟩
    · cases mark with
      | false => exact .inl (h.spelled _ _ (spelled_false_iff.mpr rfl))
      | true =>
          by_cases hold : name' = C.old
          · exact .inr (hold ▸ h.old hne rfl)
          · refine .inl (h.spelled _ _ ?_)
            unfold Spelled
            grind [Fresh]
    · cases mark with
      | false =>
          exact .inr ((h.spelled _ _ (spelled_false_iff.mpr rfl)).trans hnew)
      | true =>
          refine .inl (h.spelled _ _ ?_)
          simp [Spelled]

/-- What is bound at a distance is bound there under the corresponding name. -/
theorem find_of_bound {Δ : List Bool} {frames frames' : List Frame}
    {reading unready unready' : Bool} {k distance : Nat} (h : C.FramesAlike Δ frames frames')
    (hfresh : C.Fresh name) (hmark : Δ[distance - k]? = some mark)
    (hname : C.Spelled mark name name')
    (hle : k ≤ distance) (hfind : find name reading k unready frames = .bound distance) :
    find name' reading k unready' frames' = .bound distance := by
  induction h generalizing k unready unready' with
  | nil => cases hfind
  | @cons mark₀ Δ F F' Fs Fs' hF hFs ih =>
      have houter : ∀ {unready unready'}, find name reading (k + 1) unready Fs = .bound distance →
          find name' reading (k + 1) unready' Fs' = .bound distance := by
        intro unready unready' hfind
        have hle := (find_eq_bound hfind).1
        refine ih ?_ hle hfind
        rwa [show distance - k = distance - (k + 1) + 1 by omega, List.getElem?_cons_succ] at hmark
      have hcases := hF.find?_or hname.eq_or_old hfresh
      rw [find] at hfind ⊢
      cases hfound : F.find? name with
      | none =>
          rw [hfound] at hfind hcases
          rw [or_self_iff.mp hcases]
          exact houter hfind
      | some ready =>
          rw [hfound] at hfind hcases
          dsimp only at hfind
          split at hfind
          · rename_i hskips
            rcases hcases with hsame | hnone
            · rw [hsame]
              dsimp only
              rw [if_pos hskips]
              exact houter hfind
            · rw [hnone]
              exact houter hfind
          · rename_i hstops
            cases hfind
            rw [Nat.sub_self, List.getElem?_cons_zero] at hmark
            cases hmark
            rw [hF.spelled _ _ hname, hfound]
            dsimp only
            rw [if_neg hstops]

theorem find_of_nowhere {Δ : List Bool} {frames frames' : List Frame}
    {reading unready unready' found : Bool} {k : Nat} (h : C.FramesAlike Δ frames frames')
    (hfresh : C.Fresh name) (hunready : unready' → unready)
    (hfind : find name reading k unready frames = .nowhere found) :
    ∃ found', find name reading k unready' frames' = .nowhere found' ∧ (found' → found) := by
  induction h generalizing k unready unready' with
  | nil =>
      cases hfind
      exact ⟨unready', rfl, hunready⟩
  | cons hF hFs ih =>
      have hcases := hF.find?_or (.inl rfl) hfresh
      rw [find] at hfind ⊢
      split at hfind
      · rename_i hfound
        rw [hfound] at hcases
        rw [or_self_iff.mp hcases]
        exact ih hunready hfind
      · rename_i ready hfound
        rw [hfound] at hcases
        split at hfind
        · rename_i hskips
          rcases hcases with hsame | hnone
          · rw [hsame]
            dsimp only
            rw [if_pos hskips]
            exact ih id hfind
          · rw [hnone]
            exact ih (fun _ => rfl) hfind
        · cases hfind

/-- More is known in the second correspondence. -/
structure Le (C C' : Correspondence) : Prop where
  old : C'.old = C.old
  new : C'.new = C.new
  known : ∀ node, C.known node → C'.known node ∧ C'.hops node = C.hops node
  token : ∀ t t', C.token t t' → C'.token t t'

theorem Le.spelled {C' : Correspondence} (h : C.Le C') :
    C'.Spelled mark name name' ↔ C.Spelled mark name name' := by
  unfold Spelled
  rw [h.old, h.new]

theorem Le.likeness {C' : Correspondence} (h : C.Le C') : C.likeness.Le C'.likeness := by
  refine ⟨h.token, ?_, fun _ _ _ => h.spelled.mpr, fun _ _ _ => And.imp (h.token _ _) h.spelled.mpr⟩
  rintro Δ node t t' ⟨hknown, hglobal, hlocal⟩
  obtain ⟨hknown', hhops⟩ := h.known node hknown
  refine ⟨hknown', fun hnone => h.token t t' (hglobal (hhops ▸ hnone)),
    fun distance hdistance => ?_⟩
  obtain ⟨mark, hmark, hspelled⟩ := hlocal distance (hhops ▸ hdistance)
  exact ⟨mark, hmark, h.spelled.mpr hspelled⟩

end Correspondence

end Lox
