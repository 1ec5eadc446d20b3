import Lox.Proofs.Likeness.Resolver
import Lox.Proofs.Likeness.Starts

namespace Lox

open Resolution

namespace Correspondence

variable {C : Correspondence} {program program' : List (Stmt NodeId)}

/-- If nothing is reported for the first program, the second one is resolved to the same. -/
theorem resolve_alike (h : Stmt.AlikeAll C.likeness [] program program')
    (hknows : C.Knows (Stmt.sitesAll [] program)) (havoids : C.Avoids (Stmt.tokensAll program))
    (horderly : Stmt.orderlyAll program) {globals : List String}
    (hreports : (resolve globals program).reports = []) :
    resolve globals program' = resolve globals program := by
  have hstart : C.WalksAlike [] ⟨[], globals, ∅, #[]⟩ ⟨[], globals, ∅, #[]⟩ :=
    ⟨.nil, List.Subset.refl _, rfl, id⟩
  have hopens : Walk.Opens .topLevel ⟨[], globals, ∅, #[]⟩ [] := ⟨rfl, rfl⟩
  have hwalks := resolveStmts_alike hstart hopens h hknows havoids horderly
  have hreports' := hwalks.reports (Array.toList_eq_nil_iff.mp hreports)
  have hnone : (resolve globals program).reports =
      (resolveStmts .topLevel program' ⟨[], globals, ∅, #[]⟩).reports.toList := by
    rw [hreports, hreports']
  unfold resolve at hnone ⊢
  dsimp only at hnone ⊢
  rw [hwalks.hops, hnone]

theorem interpret_alike {ω : Plan} {m m' : Machine} {fuel : Nat} (h : C.Matches ω m m')
    (hcurrent : m.current = globalScope) (halike : Stmt.AlikeAll C.likeness [] program program')
    (hsure : Moment.Sure ⟨fuel, .executeAll program, m⟩) :
    C.EndsAlike ω globalScope (fun _ _ _ => True) (Machine.interpret fuel program m)
      (Machine.interpret fuel program' m') := by
  have hchain : ω.Leads [] globalScope := rfl
  have hends := (simulates C fuel).executeAll h hcurrent hchain halike hsure
  unfold Machine.interpret
  generalize executeAll fuel program m = e at hends
  generalize executeAll fuel program' m' = e' at hends
  cases hends with
  | @ended ω' m₁ m₁' flow flow' hω hmatches _ _ =>
      have hrest : C.Matches ω' m₁.atRest m₁'.atRest := hmatches.atRest
      dsimp only
      rw [hrest.sink]
      split
      · exact .ended hω hrest rfl trivial
      · exact .failed hω hrest (.output _)
  | @failed ω' m₁ m₁' fault fault' hω hmatches hfault =>
      have hrest : C.Matches ω' m₁.atRest m₁'.atRest := hmatches.atRest
      dsimp only
      rw [hrest.sink]
      split
      · exact .failed hω hrest hfault
      · exact .failed hω hrest (.output _)
  | unfinished => exact .unfinished

end Correspondence

/-- Two answers to programs. Faults are the same, but found at tokens that are related. -/
inductive Answer.Alike (token : Token → Token → Prop) : Answer → Answer → Prop
  | completed : Alike token .completed .completed
  | runtime {place place' : Token} (hplace : token place place') (fault : RuntimeFault) :
      Alike token (.runtimeError (.runtime place fault)) (.runtimeError (.runtime place' fault))
  | output (fault : SinkFault) :
      Alike token (.runtimeError (.output fault)) (.runtimeError (.output fault))
  | unfinished : Alike token .unfinished .unfinished

namespace Answer.Alike

variable {token : Token → Token → Prop} {answer answer' : Answer}

theorem eq (h : Alike token answer answer') (htoken : ∀ t t', token t t' → t' = t) :
    answer' = answer := by
  cases h with
  | runtime hplace fault => rw [htoken _ _ hplace]
  | _ => rfl

theorem ne_unfinished (h : Alike token answer answer') (hne : answer ≠ .unfinished) :
    answer' ≠ .unfinished := by
  cases h with
  | unfinished => exact absurd rfl hne
  | _ => simp

end Answer.Alike

theorem Session.conclude_alike {C : Correspondence} {ω : Plan} {scope : ScopeId}
    {P : Plan → Unit → Unit → Prop} {e e' : Ending Unit} (h : C.EndsAlike ω scope P e e')
    (s s' : Session) :
    Answer.Alike C.token (s.conclude (fun _ => .completed) e).1
        (s'.conclude (fun _ => .completed) e').1 ∧
      (((s.conclude (fun _ => .completed) e).1 = .unfinished → s'.machine = s.machine) →
        (s'.conclude (fun _ => .completed) e').2.output =
            (s.conclude (fun _ => .completed) e).2.output ∧
          (s'.conclude (fun _ => .completed) e').2.globalNames =
            (s.conclude (fun _ => .completed) e).2.globalNames) := by
  have hsame : ∀ {ω : Plan} {m m' : Machine}, C.Matches ω m m' →
      m'.sink.text = m.sink.text ∧
        m'.scopes.sortedNames globalScope = m.scopes.sortedNames globalScope := fun hmatches =>
    ⟨congrArg Sink.text hmatches.sink, by rw [Scopes.sortedNames, hmatches.globals]; rfl⟩
  cases h with
  | ended _ hmatches => exact ⟨.completed, fun _ => hsame hmatches⟩
  | failed _ hmatches hfault =>
      refine ⟨?_, fun _ => hsame hmatches⟩
      cases hfault with
      | runtime hplace fault => exact .runtime hplace fault
      | output fault => exact .output fault
  | unfinished =>
      refine ⟨.unfinished, fun hrest => ?_⟩
      have hmachine := hrest rfl
      exact ⟨congrArg (fun m => m.sink.text) hmachine,
        congrArg (fun m => m.scopes.sortedNames globalScope) hmachine⟩

end Lox
