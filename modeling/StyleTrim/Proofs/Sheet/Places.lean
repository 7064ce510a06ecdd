import StyleTrim.Proofs.Selector.Places
import StyleTrim.Proofs.Sheet.Steps

/-!
# Sheets wherever they stand

The machine builds the same nodes from tokens that stand further behind.
-/

namespace StyleTrim
namespace Sheet

open Token

variable (n : Nat)

/-!
## Stretches
-/

theorem splitPrelude_map (statement : Bool) (depth : Nat) (ts : List Token) :
    splitPrelude statement depth (ts.map (moved n)) =
      (splitPrelude statement depth ts).map (List.map (moved n)) (List.map (moved n)) := by
  induction ts generalizing depth with
  | nil => rfl
  | cons t ts ih =>
      have hends : endsPrelude statement depth (t.moved n) = endsPrelude statement depth t := rfl
      have hdepth : depthAfter depth (t.moved n) = depthAfter depth t := rfl
      rw [List.map_cons, splitPrelude, splitPrelude, hends, hdepth, ih]
      cases endsPrelude statement depth t <;> rfl

theorem splitValue_map (depth braces : Nat) (ts : List Token) :
    splitValue depth braces (ts.map (moved n)) =
      (splitValue depth braces ts).map (List.map (moved n)) (List.map (moved n)) := by
  induction ts generalizing depth braces with
  | nil => rfl
  | cons t ts ih =>
      have hdepth : depthAfter depth (t.moved n) = depthAfter depth t := rfl
      have hbraces : bracesAfter braces (t.moved n) = bracesAfter braces t := rfl
      simp only [splitValue, List.map_cons, hdepth, hbraces, ih,
        apply_ite (Prod.map (List.map (moved n)) (List.map (moved n)))]
      rfl

theorem dropSemicolon_map (ts : List Token) :
    dropSemicolon (ts.map (moved n)) = (dropSemicolon ts).map (moved n) := by
  cases ts with
  | nil => rfl
  | cons t ts =>
      simp only [dropSemicolon, apply_ite (List.map _)]
      rfl

theorem ruleAhead_map (depth : Nat) (ts : List Token) :
    ruleAhead depth (ts.map (moved n)) = ruleAhead depth ts := by
  induction ts generalizing depth with
  | nil => rfl
  | cons t ts ih =>
      have hdepth : depthAfter depth (t.moved n) = depthAfter depth t := rfl
      simp only [ruleAhead, List.map_cons, moved_kind, hdepth, ih]

/-!
## Declarations
-/

def Opening.moved (n : Nat) (opening : Opening) : Opening :=
  { opening with rest := opening.rest.map (Token.moved n) }

theorem openingAfter?_map (before : Bytes) (ts : List Token) :
    openingAfter? before (ts.map (moved n)) =
      (openingAfter? before ts).map (Opening.moved n) := by
  cases ts with
  | nil => rfl
  | cons t ts =>
      simp only [openingAfter?, List.map_cons, Simple.skipSpace_map, apply_ite (Option.map _)]
      cases Simple.skipSpace ts with
      | nil => rfl
      | cons colon rest =>
          simp only [apply_ite (Option.map _)]
          rfl

theorem opening?_map (ts : List Token) :
    opening? (ts.map (moved n)) = (opening? ts).map (Opening.moved n) := by
  cases ts with
  | nil => rfl
  | cons t ts =>
      have hplain := openingAfter?_map n [] (t :: ts)
      rw [List.map_cons] at hplain
      simp only [opening?, List.map_cons, hplain, openingAfter?_map, apply_ite (Option.map _)]
      rfl

theorem declarationAhead?_map (ts : List Token) :
    declarationAhead? (ts.map (moved n)) = (declarationAhead? ts).map (Opening.moved n) := by
  rw [declarationAhead?, declarationAhead?, opening?_map, ruleAhead_map]
  cases opening? ts with
  | none => rfl
  | some opening =>
      simp only [Option.map_some, apply_ite (Option.map _)]
      rfl

theorem trimEnd_map (ts : List Token) :
    trimEnd (ts.map (moved n)) = (trimEnd ts).map (moved n) := by
  have hskip := Simple.skipSpace_map n ts.reverse
  rw [List.map_reverse] at hskip
  change (Simple.skipSpace _).reverse = ((Simple.skipSpace _).reverse).map _
  rw [hskip, List.map_reverse]

theorem dropImportant?_map (value : List Token) :
    dropImportant? (value.map (moved n)) = (dropImportant? value).map (List.map (moved n)) := by
  rw [dropImportant?, dropImportant?, trimEnd_map, ← List.map_reverse]
  cases (trimEnd value).reverse with
  | nil => rfl
  | cons word before =>
      simp only [List.map_cons, Simple.skipSpace_map, apply_ite (Option.map _)]
      cases Simple.skipSpace before with
      | nil => rfl
      | cons bang rest =>
          simp only [List.map_cons, ← List.map_reverse, apply_ite (Option.map _)]
          rfl

theorem declaration?_map (property : Bytes) (value : List Token) :
    declaration? property (value.map (moved n)) = declaration? property value := by
  have hbad : (value.map (moved n)).any Token.isBad = value.any Token.isBad := List.any_map
  rw [declaration?, declaration?, hbad, dropImportant?_map, write_moved]
  cases dropImportant? value with
  | none => rfl
  | some rest => simp only [Option.map_some, write_moved]

/-!
## Steps
-/

theorem ruleHead_map (selectors : Bool) (prelude : List Token) :
    ruleHead selectors (prelude.map (moved n)) = ruleHead selectors prelude := by
  rw [ruleHead, ruleHead, write_moved, SelectorList.ofTokens_map]

theorem stepAtRule_map (o : Options) (st : State) (name : Bytes) (ts : List Token) :
    stepAtRule o st name (ts.map (moved n)) = (stepAtRule o st name ts).map (movedRest n) := by
  rw [stepAtRule, stepAtRule, splitPrelude_map]
  simp only [Prod.map_fst, Prod.map_snd, write_moved]
  cases (splitPrelude true 0 ts).2 with
  | nil => rfl
  | cons t rest =>
      simp only [List.map_cons, apply_ite (Except.map _)]
      cases st.enter o (.atRule name (Token.write .prelude (splitPrelude true 0 ts).1) true)
        (bodyOf o name) <;> rfl

theorem stepRule_map (o : Options) (st : State) (selectors : Bool) (ts : List Token) :
    stepRule o st selectors (ts.map (moved n)) =
      (stepRule o st selectors ts).map (movedRest n) := by
  rw [stepRule, stepRule, splitPrelude_map]
  simp only [Prod.map_fst, Prod.map_snd, ruleHead_map]
  cases (splitPrelude false 0 ts).2 with
  | nil =>
      simp only [List.map_nil, apply_ite (Except.map _)]
      rfl
  | cons t rest =>
      simp only [List.map_cons, apply_ite (Except.map _)]
      cases st.enter o (ruleHead selectors (splitPrelude false 0 ts).1) .declarations <;> rfl

theorem stepDeclaration_map (st : State) (opening : Opening) :
    stepDeclaration st (opening.moved n) = movedRest n (stepDeclaration st opening) := by
  rw [stepDeclaration, stepDeclaration, Opening.moved]
  simp only [splitValue_map, Prod.map_fst, Prod.map_snd, declaration?_map, dropSemicolon_map]
  cases declaration? opening.property (splitValue 0 0 opening.rest).1 <;> rfl

theorem step_map (o : Options) (st : State) (t : Token) (ts : List Token) :
    step o st (t.moved n) (ts.map (moved n)) = (step o st t ts).map (movedRest n) := by
  have hrule : ∀ selectors, stepRule o st selectors (t.moved n :: ts.map (moved n)) =
      (stepRule o st selectors (t :: ts)).map (movedRest n) := by
    intro selectors
    exact stepRule_map n o st selectors (t :: ts)
  rw [step, step]
  cases st.body with
  | rules selectors =>
      simp only [stepInRules, moved_kind, moved_value, stepAtRule_map, hrule]
      cases t.kind with
      | rightBrace =>
          simp only [apply_ite (Except.map _)]
          rfl
      | _ => rfl
  | declarations =>
      have hdeclaration := declarationAhead?_map n (t :: ts)
      have hahead := ruleAhead_map n 0 (t :: ts)
      have hskip : skipMalformed (t.moved n :: ts.map (moved n)) =
          (skipMalformed (t :: ts)).map (moved n) := by
        rw [skipMalformed, skipMalformed, ← dropSemicolon_map]
        exact congrArg (fun split => dropSemicolon split.2) (splitValue_map n 0 0 (t :: ts))
      rw [List.map_cons] at hdeclaration hahead
      simp only [stepInDeclarations, moved_kind, moved_value, stepAtRule_map, hdeclaration, hahead,
        hrule, hskip]
      cases declarationAhead? (t :: ts) with
      | some opening =>
          simp only [Option.map_some, stepDeclaration_map]
          cases t.kind <;> rfl
      | none => cases ruleAhead 0 (t :: ts) <;> cases t.kind <;> rfl

theorem run_map (o : Options) (st : State) (ts : List Token) :
    run o st (ts.map (moved n)) = run o st ts := by
  induction hlength : ts.length using Nat.strongRecOn generalizing st ts with
  | ind length ih =>
    cases ts with
    | nil => rfl
    | cons t ts =>
        have hmap := step_map n o st t ts
        cases hstep : step o st t ts with
        | error e =>
            rw [hstep] at hmap
            rw [List.map_cons, run_cons_of_error hmap, run_cons_of_error hstep]
        | ok found =>
            rw [hstep] at hmap
            rw [List.map_cons, run_cons_of_ok hmap, run_cons_of_ok hstep]
            exact ih _ (hlength ▸ step_length hstep) _ _ rfl

end Sheet
end StyleTrim
