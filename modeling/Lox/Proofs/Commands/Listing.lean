import Lox.Proofs.Commands.Quoting
import Lox.Proofs.Numbers.Decimals
import Lox.Proofs.Syntax.Writing
import Lox.Token.Text

namespace Lox

namespace Json

/-- The characters around values. -/
def isFrame (c : Char) : Bool :=
  c = ',' || c = '\n' || c = '"' || c = '[' || c = ']' || c = '\x7b' || c = '\x7d'

theorem isFrame_of_all {cs : List Char} {c : Char} (h : cs.all (!isFrame ·) = true)
    (hc : c ∈ cs) : isFrame c = false := by
  simpa using List.all_eq_true.mp h c hc

/-- The numbers in the value are texts of characters that do not stand around values. -/
inductive Plain : Json → Prop
  | number {text : String} (hne : text.toList ≠ []) (h : ∀ c ∈ text.toList, isFrame c = false) :
      Plain (.number text)
  | string {contents : String} : Plain (.string contents)
  | array {items : List Json} (h : ∀ item ∈ items, Plain item) : Plain (.array items)
  | object {members : List (String × Json)} (h : ∀ m ∈ members, Plain m.2) :
      Plain (.object members)

/-- What can come after a value. -/
def Ends (s : List Char) : Prop := ∀ c ∈ s.head?, isFrame c = true

theorem prettyItems_eq_map (depth : Nat) (items : List Json) :
    prettyItems depth items = items.map (pretty depth) := by
  induction items with
  | nil => rfl
  | cons item items ih => rw [prettyItems, ih, List.map_cons]

/-- The text of a member of an object. -/
def memberText (depth : Nat) (m : String × Json) : String :=
  quoted m.1 ++ ": " ++ m.2.pretty depth

theorem prettyMembers_eq_map (depth : Nat) (members : List (String × Json)) :
    prettyMembers depth members = members.map (memberText depth) := by
  induction members with
  | nil => rfl
  | cons m members ih =>
      obtain ⟨key, value⟩ := m
      rw [prettyMembers, ih, List.map_cons, memberText]

/-- A line break and the place where the next line starts. -/
def margin (n : Nat) : List Char := '\n' :: ("".pushn ' ' (2 * n)).toList

/-- The texts, each after a comma. -/
def followed (depth : Nat) (parts : List String) : List Char :=
  parts.flatMap fun part => ',' :: (margin depth ++ part.toList)

theorem followed_cons (depth : Nat) (part : String) (parts : List String) :
    followed depth (part :: parts) =
      ',' :: (margin depth ++ (part.toList ++ followed depth parts)) := by
  simp [followed]

theorem toList_bracketed_nil (opening closing : String) (depth : Nat) :
    (bracketed opening closing depth []).toList = opening.toList ++ closing.toList := by
  simp [bracketed]

theorem toList_bracketed_cons (opening closing : String) (depth : Nat) (part : String)
    (parts : List String) :
    (bracketed opening closing depth (part :: parts)).toList =
      opening.toList ++ (margin (depth + 1) ++ (part.toList ++ (followed (depth + 1) parts ++
        (margin depth ++ closing.toList)))) := by
  have hparts (part : String) :
      (("," ++ ("\n" ++ "".pushn ' ' (2 * (depth + 1)))).intercalate (part :: parts)).toList =
        part.toList ++ followed (depth + 1) parts := by
    induction parts generalizing part with
    | nil => simp [followed]
    | cons next parts ih =>
        rw [String.intercalate_cons_cons, String.toList_append, ih, followed_cons]
        simp [margin]
  simp only [bracketed, List.isEmpty_cons, Bool.false_eq_true, if_false, String.toList_append,
    hparts, margin]
  simp

theorem followed_inj {α : Type} {text : α → String} {depth : Nat} {xs ys : List α}
    {s s' : List Char}
    (hinj : ∀ x ∈ xs, ∀ y ∈ ys, ∀ t t', Ends t → Ends t' →
      (text x).toList ++ t = (text y).toList ++ t' → x = y ∧ t = t')
    (h : followed depth (xs.map text) ++ '\n' :: s = followed depth (ys.map text) ++ '\n' :: s') :
    xs = ys ∧ s = s' := by
  have hends (zs : List α) (t : List Char) : Ends (followed depth (zs.map text) ++ '\n' :: t) := by
    cases zs with
    | nil => exact fun c hc => by cases hc; rfl
    | cons z zs => exact fun c hc => by cases hc; rfl
  induction xs generalizing ys with
  | nil =>
      cases ys with
      | nil => exact ⟨rfl, (List.cons.inj h).2⟩
      | cons y ys => cases (List.cons.inj h).1
  | cons x xs ih =>
      cases ys with
      | nil => cases (List.cons.inj h).1
      | cons y ys =>
          simp only [List.map_cons, followed_cons, List.cons_append, List.append_assoc] at h
          have h := List.append_cancel_left (List.cons.inj h).2
          obtain ⟨rfl, hrest⟩ := hinj x (by simp) y (by simp) _ _ (hends xs s) (hends ys s') h
          obtain ⟨rfl, rfl⟩ := ih
            (fun x hx y hy => hinj x (List.mem_cons_of_mem _ hx) y (List.mem_cons_of_mem _ hy))
            hrest
          exact ⟨rfl, rfl⟩

theorem bracketed_inj {α : Type} {text : α → String} {opening closing : String} {c : Char}
    (hclosing : closing.toList = [c]) (hc : c ≠ '\n') {depth : Nat} {xs ys : List α}
    {s s' : List Char}
    (hinj : ∀ x ∈ xs, ∀ y ∈ ys, ∀ t t', Ends t → Ends t' →
      (text x).toList ++ t = (text y).toList ++ t' → x = y ∧ t = t')
    (h : (bracketed opening closing depth (xs.map text)).toList ++ s =
      (bracketed opening closing depth (ys.map text)).toList ++ s') :
    xs = ys ∧ s = s' := by
  cases xs with
  | nil =>
      cases ys with
      | nil => exact ⟨rfl, List.append_cancel_left h⟩
      | cons y ys =>
          simp only [List.map_nil, toList_bracketed_nil, List.map_cons, toList_bracketed_cons,
            List.append_assoc, hclosing] at h
          exact absurd (List.cons.inj (List.append_cancel_left h)).1 hc
  | cons x xs =>
      cases ys with
      | nil =>
          simp only [List.map_nil, toList_bracketed_nil, List.map_cons, toList_bracketed_cons,
            List.append_assoc, hclosing] at h
          exact absurd (List.cons.inj (List.append_cancel_left h)).1.symm hc
      | cons y ys =>
          simp only [List.map_cons, toList_bracketed_cons, List.append_assoc] at h
          have hcomma := congrArg (',' :: ·) (List.append_cancel_left h)
          have hfollowed :
              followed (depth + 1) ((x :: xs).map text) ++ (margin depth ++ (closing.toList ++ s)) =
                followed (depth + 1) ((y :: ys).map text) ++
                  (margin depth ++ (closing.toList ++ s')) := by
            simpa only [List.map_cons, followed_cons, List.cons_append, List.append_assoc] using
              hcomma
          obtain ⟨hxs, hs⟩ := followed_inj hinj hfollowed
          exact ⟨hxs, List.append_cancel_left (List.append_cancel_left hs)⟩

theorem memberText_inj {depth : Nat} {m m' : String × Json} {s s' : List Char}
    (hvalue : (m.2.pretty depth).toList ++ s = (m'.2.pretty depth).toList ++ s' →
      m.2 = m'.2 ∧ s = s')
    (h : (memberText depth m).toList ++ s = (memberText depth m').toList ++ s') :
    m = m' ∧ s = s' := by
  simp only [memberText, String.toList_append, List.append_assoc] at h
  obtain ⟨hkey, hrest⟩ := quoted_append_inj h
  obtain ⟨hvalue, hs⟩ := hvalue (List.append_cancel_left hrest)
  exact ⟨Prod.ext hkey hvalue, hs⟩

/-- The character that the text of a value starts with, if it is not a number. -/
def opener? : Json → Option Char
  | .number _ => none
  | .string _ => some '"'
  | .array _ => some '['
  | .object _ => some '\x7b'

theorem Plain.head?_pretty {j : Json} (hj : j.Plain) (depth : Nat) (s : List Char) :
    ((pretty depth j).toList ++ s).head?.filter isFrame = j.opener? := by
  have hbracketed (opening closing : String) (c : Char) (hc : opening.toList = [c]) (parts) :
      ((bracketed opening closing depth parts).toList ++ s).head? = some c := by
    cases parts with
    | nil => simp [toList_bracketed_nil, hc]
    | cons part parts => simp [toList_bracketed_cons, hc]
  cases hj with
  | @number text hne htext =>
      obtain ⟨c, rest, heq⟩ := List.exists_cons_of_ne_nil hne
      have hc : isFrame c = false := htext c (by simp [heq])
      simp [pretty, heq, opener?, hc]
  | string => simp [pretty, quoted, opener?, isFrame]
  | array _ => rw [pretty, hbracketed _ _ '[' rfl]; rfl
  | object _ => rw [pretty, hbracketed _ _ '\x7b' rfl]; rfl

theorem Plain.opener?_eq {j j' : Json} {depth : Nat} {s s' : List Char} (hj : j.Plain)
    (hj' : j'.Plain) (h : (pretty depth j).toList ++ s = (pretty depth j').toList ++ s') :
    j.opener? = j'.opener? := by
  rw [← hj.head?_pretty depth s, h, hj'.head?_pretty]

theorem takeWhile_append_of_ends {text s : List Char} (htext : ∀ c ∈ text, isFrame c = false)
    (hs : Ends s) : (text ++ s).takeWhile (fun c => !isFrame c) = text := by
  rw [List.takeWhile_append_of_pos fun c hc => by rw [htext c hc]; rfl]
  cases s with
  | nil => exact List.append_nil text
  | cons c s =>
      have hc : isFrame c = true := hs c rfl
      rw [List.takeWhile_cons_of_neg (by simp [hc]), List.append_nil]

/-- The text of a value can be read back, and it tells where it ends. -/
theorem pretty_append_inj {j j' : Json} {depth : Nat} {s s' : List Char} (hj : j.Plain)
    (hj' : j'.Plain) (hs : Ends s) (hs' : Ends s')
    (h : (pretty depth j).toList ++ s = (pretty depth j').toList ++ s') : j = j' ∧ s = s' := by
  -- The first character tells values of different kinds apart.
  have hopener := hj.opener?_eq hj' h
  induction hj generalizing j' depth s s' with
  | @number text _ htext =>
      cases hj' with
      | @number text' _ htext' =>
          rw [pretty, pretty] at h
          have htexts : text = text' := by
            rw [← String.toList_inj, ← takeWhile_append_of_ends htext hs, h,
              takeWhile_append_of_ends htext' hs']
          subst htexts
          exact ⟨rfl, List.append_cancel_left h⟩
      | _ => cases hopener
  | string =>
      cases hj' with
      | string =>
          obtain ⟨rfl, rfl⟩ := quoted_append_inj h
          exact ⟨rfl, rfl⟩
      | _ => cases hopener
  | array hitems ih =>
      cases hj' with
      | array hitems' =>
          rw [pretty, pretty, prettyItems_eq_map, prettyItems_eq_map] at h
          obtain ⟨rfl, rfl⟩ := bracketed_inj rfl (by decide)
            (fun x hx y hy t t' ht ht' h => ih x hx (hitems' y hy) ht ht' h
              ((hitems x hx).opener?_eq (hitems' y hy) h)) h
          exact ⟨rfl, rfl⟩
      | _ => cases hopener
  | object hmembers ih =>
      cases hj' with
      | object hmembers' =>
          rw [pretty, pretty, prettyMembers_eq_map, prettyMembers_eq_map] at h
          obtain ⟨rfl, rfl⟩ := bracketed_inj rfl (by decide)
            (fun x hx y hy t t' ht ht' => memberText_inj fun h => ih x hx (hmembers' y hy) ht ht' h
              ((hmembers x hx).opener?_eq (hmembers' y hy) h)) h
          exact ⟨rfl, rfl⟩
      | _ => cases hopener

end Json

/-! ### Numbers -/

namespace Number

open Json (isFrame isFrame_of_all)
open Scan (isDigit isDigit_iff)

theorem isFrame_of_isDigit {c : Char} (h : isDigit c) : isFrame c = false := by
  rw [isDigit_iff] at h
  refine Bool.eq_false_iff.mpr fun hframe => ?_
  simp only [isFrame, Bool.or_eq_true, decide_eq_true_eq] at hframe
  rcases hframe with (((((rfl | rfl) | rfl) | rfl) | rfl) | rfl) | rfl <;> revert h <;> decide

theorem isFrame_of_mem_toDigits {n : Nat} {c : Char} (h : c ∈ Nat.toDigits 10 n) :
    isFrame c = false :=
  isFrame_of_isDigit (isDigit_of_mem_toDigits h)

theorem isFrame_of_mem_shortest {x : Magnitude} {tie : Tie} {c : Char}
    (h : c ∈ (x.shortest tie).digits) : isFrame c = false := by
  simp only [Magnitude.shortest, Decimal.ofPoint, List.mem_reverse] at h
  exact isFrame_of_mem_toDigits (List.mem_reverse.mp ((List.dropWhile_sublist _).subset h))

section

variable {d : Decimal} {c : Char} (hd : ∀ c ∈ d.digits, isFrame c = false)
include hd

theorem isFrame_of_mem_positional (h : c ∈ d.positional) : isFrame c = false := by
  unfold Decimal.positional at h
  split at h
  · simp only [List.cons_append, List.mem_cons, List.mem_append, List.mem_replicate] at h
    rcases h with rfl | rfl | ⟨-, rfl⟩ | h
    · rfl
    · rfl
    · rfl
    · exact hd c h
  · dsimp only at h
    split at h
    · rcases List.mem_append.mp h with h | h
      · exact hd c h
      · cases List.eq_of_mem_replicate h
        rfl
    · rcases List.mem_append.mp h with h | h
      · exact hd c (List.mem_of_mem_take h)
      · rcases List.mem_cons.mp h with rfl | h
        · rfl
        · exact hd c (List.mem_of_mem_drop h)

theorem isFrame_of_mem_scientific (h : c ∈ d.scientific) : isFrame c = false := by
  have hfraction : ∀ c ∈ if d.digits.length ≤ 1 then [] else '.' :: d.digits.drop 1,
      isFrame c = false := by
    intro c hc
    split at hc
    · cases hc
    · rcases List.mem_cons.mp hc with rfl | hc
      · rfl
      · exact hd c (List.mem_of_mem_drop hc)
  simp only [Decimal.scientific, List.mem_append, List.mem_cons, List.append_assoc] at h
  rcases h with h | h | rfl | rfl | h
  · exact hd c (List.mem_of_mem_take h)
  · exact hfraction c h
  · rfl
  · split <;> rfl
  · exact isFrame_of_mem_toDigits h

end

theorem positional_ne_nil (d : Decimal) : d.positional ≠ [] := by
  unfold Decimal.positional
  split
  · simp
  · dsimp only
    split
    · intro h
      have hlength := congrArg List.length h
      simp only [List.length_append, List.length_replicate, List.length_nil] at hlength
      omega
    · simp

theorem write_ne_nil (layout : Layout) (x : Magnitude) : layout.write x ≠ [] := by
  unfold Layout.write
  dsimp only
  split
  · exact fun h => positional_ne_nil _ (List.append_eq_nil_iff.mp h).1
  · simp [Decimal.scientific]

theorem isFrame_of_mem_write {layout : Layout} {x : Magnitude} {c : Char}
    (h : c ∈ layout.write x) : isFrame c = false := by
  unfold Layout.write at h
  dsimp only at h
  split at h
  · rcases List.mem_append.mp h with h | h
    · exact isFrame_of_mem_positional (fun _ => isFrame_of_mem_shortest) h
    · split at h
      · simp only [List.mem_cons, List.not_mem_nil, or_false] at h
        rcases h with rfl | rfl <;> rfl
      · cases h
  · exact isFrame_of_mem_scientific (fun _ => isFrame_of_mem_shortest) h

theorem plain_jsonText (x : Float) : (Json.number (jsonText x)).Plain := by
  unfold jsonText
  split
  · rename_i negative m _
    have hne : (if m.units = 0 then ['0', '.', '0'] else Layout.json.write m) ≠ [] := by
      split
      · simp
      · exact write_ne_nil _ m
    have hframe : ∀ c ∈ if m.units = 0 then ['0', '.', '0'] else Layout.json.write m,
        isFrame c = false := by
      intro c hc
      split at hc
      · exact isFrame_of_all rfl hc
      · exact isFrame_of_mem_write hc
    refine .number ?_ ?_
    · rw [String.toList_ofList, signed]
      split
      · exact List.cons_ne_nil _ _
      · exact hne
    · rw [String.toList_ofList, signed]
      split
      · exact List.forall_mem_cons.mpr ⟨rfl, hframe⟩
      · exact hframe
  · exact .number (by decide) fun _ => isFrame_of_all rfl

end Number

/-! ### Tokens -/

namespace Scan

theorem Spells.kind_eq {k k' : Kind} {w : List Char} (h : Spells k w) (h' : Spells k' w) :
    k = k' := by
  obtain ⟨first, v, rfl⟩ := List.exists_cons_of_ne_nil h.isToken.ne_nil
  have hmunch := (@munch_token 1 _ _ _ _ h.isToken).symm.trans (munch_token h'.isToken)
  exact (Token.mk.inj (Item.token.inj (Munch.mk.inj hmunch).1)).1

end Scan

namespace Token

theorem plain_kindJson (t : Token) : t.kindJson.Plain := by
  unfold kindJson
  split
  · exact .object (List.forall_mem_singleton.mpr .string)
  · exact .object (List.forall_mem_singleton.mpr (Number.plain_jsonText _))
  · exact .string

theorem plain_toJson (t : Token) : t.toJson.Plain := by
  have hline : (Json.number (toString t.line)).Plain := by
    rw [Nat.toString_eq_ofList_toDigits]
    refine .number ?_ ?_
    · rw [String.toList_ofList]
      exact Nat.toDigits_ne_nil
    · rw [String.toList_ofList]
      exact fun c hc => Number.isFrame_of_mem_toDigits hc
  refine .object ?_
  simp only [List.forall_mem_cons, List.not_mem_nil, false_implies, implies_true, and_true]
  exact ⟨t.plain_kindJson, .string, hline⟩

theorem map_toJson_eq_of_listing_eq {ts us : List Token} (h : listing ts = listing us) :
    ts.map toJson = us.map toJson := by
  have hplain (ts : List Token) : (Json.array (ts.map toJson)).Plain := by
    refine .array fun item hitem => ?_
    obtain ⟨t, -, rfl⟩ := List.mem_map.mp hitem
    exact t.plain_toJson
  have hends : Json.Ends [] := fun _ hc => nomatch hc
  have heq := Json.pretty_append_inj (hplain ts) (hplain us) hends hends
    (congrArg (fun s => String.toList s ++ []) h)
  exact Json.array.inj heq.1

theorem eq_of_toJson_eq {t u : Token} (h : t.toJson = u.toJson) :
    t.lexeme = u.lexeme ∧ t.line = u.line := by
  simp only [toJson, Json.object.injEq, List.cons.injEq, Prod.mk.injEq, true_and, and_true,
    Json.string.injEq, Json.number.injEq, Nat.toString_eq_ofList_toDigits, String.ofList_inj] at h
  obtain ⟨-, hlexeme, hline⟩ := h
  refine ⟨hlexeme, ?_⟩
  rw [← Number.digitsValue_toDigits t.line, hline, Number.digitsValue_toDigits]

end Token

namespace Scan

/-- A token that was found is told by its text and its line. -/
theorem eq_of_mem_tokens {source source' : String} {t u : Token} (ht : t ∈ tokens source)
    (hu : u ∈ tokens source') (hlexeme : t.lexeme = u.lexeme) (hline : t.line = u.line) :
    t = u := by
  have hkind : t.kind = u.kind := by
    rcases isToken_of_mem_tokens ht with ht | ⟨_, ht⟩
    · rcases isToken_of_mem_tokens hu with hu | ⟨_, hu⟩
      · rw [ht, hu]
        rfl
      · rw [ht] at hlexeme
        exact absurd (congrArg String.toList hlexeme.symm) hu.ne_nil
    · rcases isToken_of_mem_tokens hu with hu | ⟨_, hu⟩
      · rw [hu] at hlexeme
        exact absurd (congrArg String.toList hlexeme) ht.ne_nil
      · exact (hlexeme ▸ ht.spells).kind_eq hu.spells
  obtain ⟨k, w, line⟩ := t
  obtain ⟨k', w', line'⟩ := u
  cases hkind
  cases hlexeme
  cases hline
  rfl

theorem eq_of_map_toJson_eq {source source' : String} {ts us : List Token}
    (hts : ts ⊆ tokens source) (hus : us ⊆ tokens source')
    (h : ts.map Token.toJson = us.map Token.toJson) : ts = us := by
  induction ts generalizing us with
  | nil => exact (List.map_eq_nil_iff.mp h.symm).symm
  | cons t ts ih =>
      obtain ⟨u, us, rfl, hu, hrest⟩ := List.map_eq_cons_iff.mp h.symm
      obtain ⟨hlexeme, hline⟩ := Token.eq_of_toJson_eq hu
      rw [List.cons_subset] at hts hus
      rw [eq_of_mem_tokens hus.1 hts.1 hlexeme hline, ih hts.2 hus.2 hrest.symm]

/-- The listing of the tokens of a text tells all of them, with what they carry. -/
theorem tokens_eq_of_listing_eq {source source' : String}
    (h : Token.listing (tokens source) = Token.listing (tokens source')) :
    tokens source = tokens source' :=
  eq_of_map_toJson_eq (List.Subset.refl _) (List.Subset.refl _)
    (Token.map_toJson_eq_of_listing_eq h)

end Scan

end Lox
