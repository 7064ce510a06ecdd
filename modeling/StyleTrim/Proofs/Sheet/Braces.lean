import StyleTrim.Proofs.Sheet.Joined
import StyleTrim.Proofs.Sheet.Modes

/-!
# The end of a block, and the end of the text

Lenient reading takes the end of the text for the end of every block. So what stands in a block is
read up to its closing brace as it is read where the text ends. Only a value that goes on behind the
brace is read otherwise, and then the brace did not end the block.
-/

namespace StyleTrim
namespace Sheet

open Token

variable {b : Token}

/-!
## Stretches in front of a brace
-/

theorem splitPrelude_brace (hb : b.kind = .rightBrace) (statement : Bool) (d : Nat)
    (ts : List Token) :
    splitPrelude statement d (ts ++ [b]) =
      ((splitPrelude statement d ts).1, (splitPrelude statement d ts).2 ++ [b]) := by
  induction ts generalizing d with
  | nil =>
      have hends : endsPrelude statement d b = true := by simp [endsPrelude, hb]
      exact if_pos hends
  | cons t ts ih =>
      rw [List.cons_append, splitPrelude, splitPrelude, ih]
      split <;> rfl

theorem splitValue_brace {d braces : Nat} {ts : List Token}
    (h : (splitValue d braces (ts ++ [b])).2 ≠ []) :
    splitValue d braces (ts ++ [b]) =
      ((splitValue d braces ts).1, (splitValue d braces ts).2 ++ [b]) := by
  induction ts generalizing d braces with
  | nil =>
      rw [List.nil_append, splitValue] at h ⊢
      split at h
      · rename_i hends
        rw [if_pos hends]
        rfl
      · exact absurd rfl h
  | cons t ts ih =>
      rw [List.cons_append, splitValue, splitValue]
      rw [List.cons_append, splitValue] at h
      split
      · rfl
      · rename_i hends
        rw [if_neg hends] at h
        rw [ih h]

theorem dropSemicolon_brace (hb : b.kind = .rightBrace) (ts : List Token) :
    dropSemicolon (ts ++ [b]) = dropSemicolon ts ++ [b] := by
  cases ts with
  | nil => simp [dropSemicolon, hb]
  | cons t ts => exact dropSemicolon_more (List.cons_ne_nil t ts)

theorem ruleAhead_brace (hb : b.kind = .rightBrace) (d : Nat) (ts : List Token) :
    ruleAhead d (ts ++ [b]) = ruleAhead d ts := by
  induction ts generalizing d with
  | nil => simp [ruleAhead, hb]
  | cons t ts ih => simp only [List.cons_append, ruleAhead, ih]

theorem skipSpace_brace (hb : b.kind = .rightBrace) (ts : List Token) :
    Simple.skipSpace (ts ++ [b]) = Simple.skipSpace ts ++ [b] := by
  have hspace : b.kind ≠ .whitespace := by simp [hb]
  induction ts with
  | nil => exact skipSpace_token [] hspace
  | cons t ts ih =>
      by_cases ht : t.kind = .whitespace
      · simpa [Simple.skipSpace, ht] using ih
      · rw [List.cons_append, skipSpace_token _ ht, skipSpace_token _ ht, List.cons_append]

theorem openingAfter?_brace (hb : b.kind = .rightBrace) (before : Bytes) (ts : List Token) :
    openingAfter? before (ts ++ [b]) =
      (openingAfter? before ts).map fun opening =>
        { opening with rest := opening.rest ++ [b] } := by
  cases ts with
  | nil => simp [openingAfter?, hb]
  | cons t ts =>
      simp only [List.cons_append, openingAfter?, skipSpace_brace hb, apply_ite (Option.map _)]
      cases Simple.skipSpace ts with
      | nil => simp [hb]
      | cons colon rest =>
          simp only [List.cons_append, apply_ite (Option.map _)]
          rfl

theorem opening?_brace (hb : b.kind = .rightBrace) (ts : List Token) :
    opening? (ts ++ [b]) =
      (opening? ts).map fun opening => { opening with rest := opening.rest ++ [b] } := by
  cases ts with
  | nil => simp [opening?, openingAfter?, isDelim, hb]
  | cons t ts =>
      have hplain := openingAfter?_brace hb [] (t :: ts)
      rw [List.cons_append] at hplain
      simp only [List.cons_append, opening?, hplain, openingAfter?_brace hb,
        apply_ite (Option.map _)]

theorem declarationAhead?_brace (hb : b.kind = .rightBrace) (ts : List Token) :
    declarationAhead? (ts ++ [b]) =
      (declarationAhead? ts).map fun opening => { opening with rest := opening.rest ++ [b] } := by
  rw [declarationAhead?, declarationAhead?, opening?_brace hb, ruleAhead_brace hb]
  cases opening? ts with
  | none => rfl
  | some opening =>
      simp only [Option.map_some, apply_ite (Option.map _)]
      rfl

/-!
## Steps in front of a brace
-/

variable {o : Options} {st : State} {t : Token} {ts : List Token}

theorem stepAtRule_brace (hb : b.kind = .rightBrace) (name : Bytes) :
    stepAtRule o st name (ts ++ [b]) = (stepAtRule o st name ts).map (andMore [b]) := by
  rw [stepAtRule, stepAtRule, splitPrelude_brace hb]
  cases (splitPrelude true 0 ts).2 with
  | nil => simp [hb, Except.map, andMore]
  | cons u rest =>
      simp only [List.cons_append, apply_ite (Except.map _)]
      cases st.enter o (.atRule name (Token.write .prelude (splitPrelude true 0 ts).1) true)
        (bodyOf o name) <;> rfl

theorem stepRule_brace (ts : List Token) (hlenient : o.isStrict = false)
    (hb : b.kind = .rightBrace) (selectors : Bool) :
    stepRule o st selectors (ts ++ [b]) = (stepRule o st selectors ts).map (andMore [b]) := by
  rw [stepRule, stepRule, splitPrelude_brace hb, hlenient]
  cases (splitPrelude false 0 ts).2 with
  | nil => simp [hb, Except.map, andMore]
  | cons u rest =>
      simp only [List.cons_append, apply_ite (Except.map _)]
      cases st.enter o (ruleHead selectors (splitPrelude false 0 ts).1) .declarations <;> rfl

theorem stepDeclaration_brace (hb : b.kind = .rightBrace) {opening : Opening}
    (h : (splitValue 0 0 (opening.rest ++ [b])).2 ≠ []) :
    stepDeclaration st { opening with rest := opening.rest ++ [b] } =
      andMore [b] (stepDeclaration st opening) := by
  rw [stepDeclaration, stepDeclaration]
  simp only [splitValue_brace h, dropSemicolon_brace hb]
  cases declaration? opening.property (splitValue 0 0 opening.rest).1 <;> rfl

theorem stepAmongDeclarations_brace (hlenient : o.isStrict = false) (hb : b.kind = .rightBrace)
    (h : endsAmongDeclarations (ts ++ [b]) = true) :
    stepAmongDeclarations o st (ts ++ [b]) =
      (stepAmongDeclarations o st ts).map (andMore [b]) := by
  unfold endsAmongDeclarations at h
  rw [stepAmongDeclarations, stepAmongDeclarations]
  rw [declarationAhead?_brace hb, ruleAhead_brace hb] at h ⊢
  cases hahead : declarationAhead? ts with
  | some opening =>
      rw [hahead] at h
      exact congrArg Except.ok (stepDeclaration_brace hb (by simpa using h))
  | none =>
      rw [hahead] at h
      simp only [Option.map_none] at h ⊢
      split at h
      · rename_i hrule
        rw [if_pos hrule, if_pos hrule]
        exact stepRule_brace ts hlenient hb _
      · rename_i hrule
        have hends : (splitValue 0 0 (ts ++ [b])).2 ≠ [] := by simpa using h
        rw [if_neg hrule, if_neg hrule, skipMalformed, splitValue_brace hends,
          dropSemicolon_brace hb]
        rfl

theorem step_brace (hlenient : o.isStrict = false) (hb : b.kind = .rightBrace)
    (h : Moment.isEnded ⟨st.body, t :: (ts ++ [b])⟩ = true) :
    step o st t (ts ++ [b]) = (step o st t ts).map (andMore [b]) := by
  rw [step, step]
  cases hbody : st.body with
  | rules selectors =>
      simp only [stepInRules, hlenient, Bool.and_false, Bool.false_eq_true, if_false]
      cases hkind : t.kind with
      | whitespace | cdo | cdc | semicolon | rightBrace => rfl
      | atKeyword => exact stepAtRule_brace hb _
      | _ => exact stepRule_brace (t :: ts) hlenient hb selectors
  | declarations =>
      rw [hbody] at h
      simp only [stepInDeclarations]
      cases hkind : t.kind with
      | whitespace | semicolon | rightBrace => rfl
      | atKeyword => exact stepAtRule_brace hb _
      | _ =>
          have hends : endsAmongDeclarations (t :: ts ++ [b]) = true := by
            simpa [Moment.isEnded, hkind, Body.skips] using h
          exact stepAmongDeclarations_brace hlenient hb hends

end Sheet
end StyleTrim
