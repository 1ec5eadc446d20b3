import Lox.Parsing.Rules

/-!
How replies are put together.

Only replies that report nothing matter here. `Reply.Reads` says what the tokens are that such a
reply took; `Reply.Accepts` says that a reply is one, with its value and the tokens it left. For
each way to build a reply there is a rule for both.
-/

namespace Lox.Parsing

variable {α β : Type} {takes takes' : Bool} {tokens rest : List Token}

/-- The reply accepts with this value, leaves these tokens and reports nothing. -/
def Reply.Accepts (r : Reply takes tokens α) (value : α) (rest : List Token) : Prop :=
  r.val = .accepted value rest []

/-- If the reply accepts and reports nothing, it took tokens that stand for the value. -/
def Reply.Reads (r : Reply takes tokens α) (P : List Token → α → List Token → Prop) : Prop :=
  ∀ value rest, r.Accepts value rest → ∃ read, tokens = read ++ rest ∧ P read value rest

namespace Outcome

theorem reporting_eq_accepted_iff {o : Outcome α} {earlier : List Diagnostic} {value : α} :
    o.reporting earlier = .accepted value rest [] ↔
      earlier = [] ∧ o = .accepted value rest [] := by
  cases o with
  | accepted v r reports =>
      simp only [reporting, accepted.injEq, List.append_eq_nil_iff]
      constructor
      · rintro ⟨rfl, rfl, rfl, rfl⟩
        exact ⟨rfl, rfl, rfl, rfl⟩
      · rintro ⟨rfl, rfl, rfl, rfl⟩
        exact ⟨rfl, rfl, rfl, rfl⟩
  | refused fault r reports => simp [reporting]

theorem map_eq_accepted_iff {o : Outcome α} {f : α → β} {w : β} {reports : List Diagnostic} :
    o.map f = .accepted w rest reports ↔
      ∃ value, o = .accepted value rest reports ∧ f value = w := by
  cases o with
  | accepted v r more =>
      simp only [map, accepted.injEq]
      constructor
      · rintro ⟨rfl, rfl, rfl⟩
        exact ⟨v, ⟨rfl, rfl, rfl⟩, rfl⟩
      · rintro ⟨_, ⟨rfl, rfl, rfl⟩, rfl⟩
        exact ⟨rfl, rfl, rfl⟩
  | refused fault r more => simp [map]

end Outcome

namespace Reply

@[simp] theorem accepts_pure_iff {value v : α} :
    (pure value : Reply false tokens α).Accepts v rest ↔ value = v ∧ tokens = rest := by
  simp [Accepts, pure]

@[simp] theorem not_accepts_refuse {fault : Diagnostic} {value : α} :
    ¬(refuse fault : Reply takes tokens α).Accepts value rest := by
  simp [Accepts, refuse]

@[simp] theorem accepts_map_iff {r : Reply takes tokens α} {f : α → β} {w : β} :
    (r.map f).Accepts w rest ↔ ∃ value, r.Accepts value rest ∧ f value = w :=
  Outcome.map_eq_accepted_iff

@[simp] theorem accepts_afterToken_iff {t : Token} {r : Reply takes tokens α} {value : α} :
    (r.afterToken t : Reply takes' (t :: tokens) α).Accepts value rest ↔ r.Accepts value rest :=
  Iff.rfl

@[simp] theorem accepts_within_iff {all : List Token} {r : Reply takes tokens α}
    {h : tokens.length ≤ all.length} {value : α} :
    (r.within h).Accepts value rest ↔ r.Accepts value rest :=
  Iff.rfl

@[simp] theorem accepts_relax_iff {r : Reply takes tokens α} {value : α} :
    r.relax.Accepts value rest ↔ r.Accepts value rest :=
  Iff.rfl

@[simp] theorem accepts_reporting_iff {earlier : List Diagnostic} {r : Reply takes tokens α}
    {value : α} :
    (r.reporting earlier).Accepts value rest ↔ earlier = [] ∧ r.Accepts value rest :=
  Outcome.reporting_eq_accepted_iff

theorem accepts_andThen_iff {first : Reply takes tokens α}
    {next : α → (rest : List Token) → rest.length + takes.toNat ≤ tokens.length →
      Reply takes' rest β} {w : β} :
    (first.andThen next).Accepts w rest ↔
      ∃ value after h, first.Accepts value after ∧ (next value after h).Accepts w rest := by
  obtain ⟨o, ho⟩ := first
  cases o with
  | refused fault r reports =>
      constructor
      · intro h
        cases h
      · rintro ⟨_, _, _, h, _⟩
        cases h
  | accepted value after reports =>
      constructor
      · intro h
        obtain ⟨rfl, h⟩ := Outcome.reporting_eq_accepted_iff.mp h
        exact ⟨value, after, ho, rfl, h⟩
      · rintro ⟨value', after', h', hfirst, hnext⟩
        cases hfirst
        exact Outcome.reporting_eq_accepted_iff.mpr ⟨rfl, hnext⟩

theorem Accepts.andThen {first : Reply takes tokens α}
    {next : α → (rest : List Token) → rest.length + takes.toNat ≤ tokens.length →
      Reply takes' rest β} {value : α} {after : List Token} {w : β}
    (hfirst : first.Accepts value after) (hnext : ∀ h, (next value after h).Accepts w rest) :
    (first.andThen next).Accepts w rest := by
  have hfits : first.val.Fits takes tokens := first.property
  rw [hfirst] at hfits
  exact accepts_andThen_iff.mpr ⟨value, after, hfits, hfirst, hnext hfits⟩

theorem Reads.andThen {first : Reply takes tokens α}
    {next : α → (rest : List Token) → rest.length + takes.toNat ≤ tokens.length →
      Reply takes' rest β}
    {P : List Token → α → List Token → Prop} {Q : List Token → β → List Token → Prop}
    (hfirst : first.Reads P)
    (hnext : ∀ value read after h, tokens = read ++ after → P read value after →
      (next value after h).Reads fun more => Q (read ++ more)) :
    (first.andThen next).Reads Q := by
  intro w rest h
  obtain ⟨value, after, hle, haccepts, hrest⟩ := accepts_andThen_iff.mp h
  obtain ⟨read, htokens, hP⟩ := hfirst value after haccepts
  obtain ⟨more, rfl, hQ⟩ := hnext value read after hle htokens hP w rest hrest
  exact ⟨read ++ more, by rw [htokens, List.append_assoc], hQ⟩

theorem Reads.map {r : Reply takes tokens α} {f : α → β}
    {P : List Token → α → List Token → Prop} {Q : List Token → β → List Token → Prop}
    (hr : r.Reads P) (h : ∀ read value rest, P read value rest → Q read (f value) rest) :
    (r.map f).Reads Q := by
  intro w rest haccepts
  obtain ⟨value, hvalue, rfl⟩ := accepts_map_iff.mp haccepts
  obtain ⟨read, htokens, hP⟩ := hr value rest hvalue
  exact ⟨read, htokens, h read value rest hP⟩

theorem Reads.afterToken {t : Token} {r : Reply takes tokens α}
    {P : List Token → α → List Token → Prop} (hr : r.Reads fun read => P (t :: read)) :
    (r.afterToken t : Reply takes' (t :: tokens) α).Reads P := by
  intro value rest haccepts
  obtain ⟨read, rfl, hP⟩ := hr value rest haccepts
  exact ⟨t :: read, rfl, hP⟩

theorem Reads.reporting {earlier : List Diagnostic} {r : Reply takes tokens α}
    {P : List Token → α → List Token → Prop} (hr : earlier = [] → r.Reads P) :
    (r.reporting earlier).Reads P := by
  intro value rest haccepts
  obtain ⟨hearlier, haccepts⟩ := accepts_reporting_iff.mp haccepts
  exact hr hearlier value rest haccepts

theorem Reads.relax {r : Reply takes tokens α} {P : List Token → α → List Token → Prop}
    (hr : r.Reads P) : r.relax.Reads P := hr

theorem Reads.mono {r : Reply takes tokens α} {P Q : List Token → α → List Token → Prop}
    (hr : r.Reads P) (h : ∀ read value rest, P read value rest → Q read value rest) :
    r.Reads Q := by
  intro value rest haccepts
  obtain ⟨read, htokens, hP⟩ := hr value rest haccepts
  exact ⟨read, htokens, h read value rest hP⟩

theorem reads_pure {value : α} {P : List Token → α → List Token → Prop} (h : P [] value tokens) :
    (pure value : Reply false tokens α).Reads P := by
  intro v rest haccepts
  obtain ⟨rfl, rfl⟩ := accepts_pure_iff.mp haccepts
  exact ⟨[], rfl, h⟩

theorem reads_refuse {fault : Diagnostic} {P : List Token → α → List Token → Prop} :
    (refuse fault : Reply takes tokens α).Reads P := by
  intro v rest haccepts
  exact absurd haccepts not_accepts_refuse

end Reply

theorem accepts_take {stop t : Token} {kind : Kind} {fault : SyntaxFault} (h : t.kind = kind) :
    (take Reply stop kind fault (t :: rest)).Accepts t rest := by
  rw [take, if_pos h]
  rfl

theorem reads_take (stop : Token) (kind : Kind) (fault : SyntaxFault) (tokens : List Token) :
    (take Reply stop kind fault tokens).Reads fun read t _ => read = [t] ∧ t.kind = kind := by
  cases tokens with
  | nil => exact Reply.reads_refuse
  | cons first after =>
      rw [take]
      split
      · rename_i hkind
        exact .afterToken (Reply.reads_pure ⟨rfl, hkind⟩)
      · exact Reply.reads_refuse

theorem excess_eq_nil_iff {stop : Token} {fault : SyntaxFault} {seen : Nat} :
    excess stop fault seen tokens = [] ↔ seen < entryLimit := by
  unfold excess
  split
  · rename_i h
    simpa using h
  · rename_i h
    simpa using h

end Lox.Parsing
