import Lox.Issuing.Rule
import Lox.Proofs.Relabelling.Trees
import Lox.Proofs.Syntax.Reply
import Mathlib.Data.List.Perm.Subperm

/-!
How rules that give identities are put together.

Such a rule follows a plain rule if it reads the same, up to labels, and if the references of its
value are different nodes, some of which the value was given and the others of which were built for
it. There is a lemma for each way to build a rule.
-/

namespace Lox.Issuing

open Parsing

variable {α β γ δ : Type} {first : NodeId} {takes takes' : Bool} {tokens : List Token}

/-- The rule reads what the plain rule reads. The references of its value are among those that are
held and those of the nodes that it builds, each of them taken once at most. -/
structure Rule.Follows (erase : α → β) (references : α → List (Reference NodeId))
    (held : List (Reference NodeId)) (r : Rule first takes tokens α)
    (plain : Reply takes tokens β) : Prop where
  erased : ∀ issuer, (r issuer).1.map erase = plain
  built : ∀ issuer, ∃ new, (r issuer).2.built = issuer.built ++ new ∧
    ∀ value rest reports, (r issuer).1.val = .accepted value rest reports →
      (references value).Subperm (held ++ new)

theorem exists_accepted_of_reporting {o : Outcome α} {earlier reports : List Diagnostic} {value : α}
    {rest : List Token} (h : o.reporting earlier = .accepted value rest reports) :
    ∃ later, o = .accepted value rest later := by
  cases o with
  | refused fault rest' later => cases h
  | accepted v rest' later =>
      cases h
      exact ⟨later, rfl⟩

namespace Rule.Follows

variable {erase : α → β} {references : α → List (Reference NodeId)}
  {held : List (Reference NodeId)} {r : Rule first takes tokens α} {plain : Reply takes tokens β}

theorem pure {value : α} {value' : β} (h : erase value = value')
    (hreferences : (references value).Subperm held) :
    (Rule.pure value : Rule first false tokens α).Follows erase references held (.pure value') where
  erased _ := by rw [← h]; rfl
  built issuer := by
    refine ⟨[], (List.append_nil _).symm, fun v rest reports haccepted => ?_⟩
    cases haccepted
    rw [List.append_nil]
    exact hreferences

theorem refuse {fault : Diagnostic} :
    (Rule.refuse fault : Rule first takes tokens α).Follows erase references held
      (.refuse fault) where
  erased _ := rfl
  built _ := ⟨[], (List.append_nil _).symm, fun _ _ _ haccepted => by cases haccepted⟩

theorem build {name : Token} {node : NodeId → α} {value : β} (h : ∀ n, erase (node n) = value)
    (hreferences : ∀ n, (references (node n)).Subperm (held ++ [⟨n, name⟩])) :
    (Rule.build name node : Rule first false tokens α).Follows erase references held
      (.pure value) where
  erased issuer := by rw [← h issuer.next]; rfl
  built issuer := by
    refine ⟨[⟨issuer.next, name⟩], rfl, fun v rest reports haccepted => ?_⟩
    cases haccepted
    exact hreferences issuer.next

theorem andThen {erase' : γ → δ} {references' : γ → List (Reference NodeId)}
    {next : α → (rest : List Token) → rest.length + takes.toNat ≤ tokens.length →
      Rule first takes' rest γ}
    {next' : β → (rest : List Token) → rest.length + takes.toNat ≤ tokens.length →
      Reply takes' rest δ}
    (h : r.Follows erase references held plain)
    (hnext : ∀ value rest hrest, (next value rest hrest).Follows erase' references'
      (references value) (next' (erase value) rest hrest)) :
    (r.andThen next).Follows erase' references' held (plain.andThen next') := by
  constructor
  · intro issuer
    rw [← h.erased issuer]
    unfold Rule.andThen
    obtain ⟨⟨outcome, hfits⟩, issuer'⟩ := r issuer
    cases outcome with
    | refused fault rest reports => rfl
    | accepted value rest reports =>
        have herased := (hnext value rest hfits).erased issuer'
        refine Subtype.ext ?_
        dsimp only [Reply.map, Outcome.map, Reply.andThen]
        rw [← herased]
        dsimp only [Reply.map]
        cases (next value rest hfits issuer').1.val <;> rfl
  · intro issuer
    obtain ⟨new, hnew, hvalue⟩ := h.built issuer
    unfold Rule.andThen
    revert hnew hvalue
    obtain ⟨⟨outcome, hfits⟩, issuer'⟩ := r issuer
    intro hnew hvalue
    cases outcome with
    | refused fault rest reports => exact ⟨new, hnew, fun _ _ _ haccepted => by cases haccepted⟩
    | accepted value rest reports =>
        obtain ⟨more, hmore, hsecond⟩ := (hnext value rest hfits).built issuer'
        -- what the first rule built comes before what the second one builds
        refine ⟨new ++ more, ?_, fun w rest' reports' haccepted => ?_⟩
        · rw [← List.append_assoc, ← hnew]
          exact hmore
        · obtain ⟨later, hw⟩ := exists_accepted_of_reporting haccepted
          rw [← List.append_assoc]
          exact (hsecond w rest' later hw).trans
            ((hvalue value rest reports rfl).append (List.Subperm.refl more))

theorem map {erase' : γ → δ} {references' : γ → List (Reference NodeId)} {f : α → γ} {f' : β → δ}
    (h : r.Follows erase references held plain) (herase : ∀ v, erase' (f v) = f' (erase v))
    (hreferences : ∀ v, (references' (f v)).Subperm (references v)) :
    (r.map f).Follows erase' references' held (plain.map f') := by
  constructor
  · intro issuer
    rw [← h.erased issuer]
    refine Subtype.ext ?_
    dsimp only [Rule.map, Reply.map]
    cases (r issuer).1.val with
    | refused fault rest reports => rfl
    | accepted value rest reports => exact congrArg (Outcome.accepted · _ _) (herase value)
  · intro issuer
    obtain ⟨new, hnew, hvalue⟩ := h.built issuer
    refine ⟨new, hnew, fun w rest reports haccepted => ?_⟩
    obtain ⟨v, hv, rfl⟩ := Outcome.map_eq_accepted_iff.mp haccepted
    exact (hreferences v).trans (hvalue v rest reports hv)

theorem afterToken (t : Token) (h : r.Follows erase references held plain) :
    (r.afterToken t : Rule first takes' (t :: tokens) α).Follows erase references held
      (plain.afterToken t) where
  erased issuer := by rw [← h.erased issuer]; rfl
  built := h.built

theorem relax (h : r.Follows erase references held plain) :
    r.relax.Follows erase references held plain.relax where
  erased issuer := by rw [← h.erased issuer]; rfl
  built := h.built

theorem within {all : List Token} (h : r.Follows erase references held plain)
    (hall : tokens.length ≤ all.length) :
    (r.within hall).Follows erase references held (plain.within hall) where
  erased issuer := by rw [← h.erased issuer]; rfl
  built := h.built

theorem reporting (earlier : List Diagnostic) (h : r.Follows erase references held plain) :
    (r.reporting earlier).Follows erase references held (plain.reporting earlier) := by
  constructor
  · intro issuer
    rw [← h.erased issuer]
    refine Subtype.ext ?_
    dsimp only [Rule.reporting, Reply.map, Reply.reporting]
    cases (r issuer).1.val <;> rfl
  · intro issuer
    obtain ⟨new, hnew, hvalue⟩ := h.built issuer
    refine ⟨new, hnew, fun w rest reports haccepted => ?_⟩
    obtain ⟨later, hw⟩ := exists_accepted_of_reporting haccepted
    exact hvalue w rest later hw

theorem holding (before : List (Reference NodeId)) (h : r.Follows erase references [] plain) :
    r.Follows erase (fun v => before ++ references v) before plain where
  erased := h.erased
  built issuer := by
    obtain ⟨new, hnew, hvalue⟩ := h.built issuer
    refine ⟨new, hnew, fun v rest reports haccepted => ?_⟩
    exact (List.Subperm.refl before).append (hvalue v rest reports haccepted)

end Rule.Follows

/-! ### Rules that build no nodes -/

variable (held : List (Reference NodeId))

theorem take_follows (stop : Token) (kind : Kind) (fault : SyntaxFault) (tokens : List Token) :
    (take (Rule first) stop kind fault tokens).Follows id (fun _ => held) held
      (take Reply stop kind fault tokens) := by
  unfold take
  cases tokens with
  | nil => exact .refuse
  | cons t rest =>
      dsimp only
      split
      · exact .afterToken t (.pure rfl (List.Subperm.refl held))
      · exact .refuse

theorem takeSymbol_follows (stop : Token) (s : Symbol) (place : Place) (tokens : List Token) :
    (takeSymbol (Rule first) stop s place tokens).Follows id (fun _ => held) held
      (takeSymbol Reply stop s place tokens) :=
  take_follows held stop _ _ tokens

theorem takeName_follows (stop : Token) (named : Named) (tokens : List Token) :
    (takeName (Rule first) stop named tokens).Follows id (fun _ => held) held
      (takeName Reply stop named tokens) :=
  take_follows held stop _ _ tokens

end Lox.Issuing
