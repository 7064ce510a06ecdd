import StyleTrim.Proofs.Sheet.Appended
import StyleTrim.Proofs.Token.Terminated

/-!
# Texts that leave nothing open

Reading a text leaves nothing open when each step is ended by a token of the text, and not by its
end, and no block is open at the end. The nodes of such a text do not depend on what comes behind
it, and what comes behind it is read as it is alone.
-/

namespace StyleTrim
namespace Sheet

open Token

/-!
## Stretches that have ended

Once a stretch has ended, more tokens at the end of the text only come to what is left.
-/

variable {ts : List Token}

theorem splitPrelude_more {statement : Bool} {d : Nat} (h : (splitPrelude statement d ts).2 ≠ [])
    (more : List Token) :
    splitPrelude statement d (ts ++ more) =
      ((splitPrelude statement d ts).1, (splitPrelude statement d ts).2 ++ more) := by
  induction ts generalizing d with
  | nil => exact absurd rfl h
  | cons t ts ih =>
      rw [List.cons_append, splitPrelude, splitPrelude]
      rw [splitPrelude] at h
      split
      · rfl
      · rename_i hends
        rw [if_neg hends] at h
        rw [ih h]

theorem splitValue_more {d b : Nat} (h : (splitValue d b ts).2 ≠ []) (more : List Token) :
    splitValue d b (ts ++ more) = ((splitValue d b ts).1, (splitValue d b ts).2 ++ more) := by
  induction ts generalizing d b with
  | nil => exact absurd rfl h
  | cons t ts ih =>
      rw [List.cons_append, splitValue, splitValue]
      rw [splitValue] at h
      split
      · rfl
      · rename_i hends
        rw [if_neg hends] at h
        rw [ih h]

def AheadFound (d : Nat) (ts : List Token) : Prop :=
  ∃ found, ts.foldl aheadAfter (.inr d) = .inl found

theorem aheadFound_of_ruleAhead {d : Nat} (h : ruleAhead d ts = true) : AheadFound d ts := by
  have hbehind := ruleAhead_behind d ts []
  rw [List.append_nil, h] at hbehind
  cases hfold : ts.foldl aheadAfter (.inr d) with
  | inl found => exact ⟨found, hfold⟩
  | inr d' =>
      rw [hfold] at hbehind
      cases hbehind

theorem aheadFound_of_splitValue {d : Nat} (h : (splitValue d 0 ts).2 ≠ []) :
    AheadFound d ts := by
  induction ts generalizing d with
  | nil => exact absurd rfl h
  | cons t ts ih =>
      by_cases hopen : t.kind = .leftBrace
      · exact ⟨true, by rw [List.foldl_cons, aheadAfter, hopen, foldl_aheadAfter_inl]⟩
      by_cases hclose : t.kind = .rightBrace
      · exact ⟨false, by rw [List.foldl_cons, aheadAfter, hclose, foldl_aheadAfter_inl]⟩
      by_cases hsemi : d = 0 ∧ t.kind = .semicolon
      · refine ⟨false, ?_⟩
        rw [List.foldl_cons, aheadAfter, hsemi.2]
        simp only [hsemi.1, if_true, foldl_aheadAfter_inl]
      have hbraces : bracesAfter 0 t = 0 := by
        unfold bracesAfter
        split <;> first | rfl | contradiction
      rw [splitValue, if_neg (by simp [hclose]; tauto), hbraces] at h
      rcases ih h with ⟨found, hfold⟩
      refine ⟨found, ?_⟩
      rw [List.foldl_cons, aheadAfter_plain hopen hclose fun hkind hd => hsemi ⟨hd, hkind⟩, hfold]

theorem ruleAhead_more {d : Nat} (h : AheadFound d ts) (more : List Token) :
    ruleAhead d (ts ++ more) = ruleAhead d ts := by
  rcases h with ⟨found, hfold⟩
  have hbehind := ruleAhead_behind d ts []
  rw [List.append_nil] at hbehind
  rw [ruleAhead_behind, hbehind, hfold]

theorem opening?_more (h : AheadFound 0 ts) (more : List Token) :
    opening? (ts ++ more) =
      (opening? ts).map fun opening => { opening with rest := opening.rest ++ more } := by
  cases hopening : opening? ts with
  | some opening =>
      rcases opening?_some hopening with ⟨star, name, gap, colon, hts, hstands⟩
      have hstands' : Opening.Stands { opening with rest := opening.rest ++ more }
          star name gap colon :=
        { hstands with }
      have hagain := opening?_of_stands hstands'
      rw [hts]
      simpa using hagain
  | none =>
      rw [Option.map_none, Option.eq_none_iff_forall_ne_some]
      intro opening hmore
      rcases opening?_some hmore with ⟨star, name, gap, colon, hts, hstands⟩
      have hsplit : ts ++ more = (star ++ name :: (gap ++ [colon])) ++ opening.rest := by
        simp [hts]
      rcases List.append_eq_append_iff.mp hsplit with ⟨front, hfront, _⟩ | ⟨rest, hrest, _⟩
      · rcases h with ⟨found, hfold⟩
        rw [foldl_aheadAfter_plain _ fun u hu =>
          hstands.plain u (hfront ▸ List.mem_append_left front hu)] at hfold
        cases hfold
      · have hstands' : Opening.Stands { opening with rest := rest } star name gap colon :=
          { hstands with }
        have hagain := opening?_of_stands hstands'
        rw [hrest] at hopening
        simp [hagain] at hopening

theorem declarationAhead?_more (h : AheadFound 0 ts) (more : List Token) :
    declarationAhead? (ts ++ more) =
      (declarationAhead? ts).map fun opening => { opening with rest := opening.rest ++ more } := by
  rw [declarationAhead?, declarationAhead?, opening?_more h, ruleAhead_more h]
  cases opening? ts with
  | none => rfl
  | some opening =>
      simp only [Option.map_some, apply_ite (Option.map _)]
      rfl

/-!
## Steps that have ended
-/

/-- What begins in a list of declarations is ended by one of the tokens. -/
def endsAmongDeclarations (ts : List Token) : Bool :=
  match declarationAhead? ts with
  | some opening => !(splitValue 0 0 opening.rest).2.isEmpty
  | none =>
      if ruleAhead 0 ts then !(splitPrelude false 0 ts).2.isEmpty
      else !(splitValue 0 0 ts).2.isEmpty

/-- The step that is taken at this moment is ended by one of the tokens. -/
def Moment.isEnded (moment : Moment) : Bool :=
  match moment.left with
  | [] => true
  | t :: ts =>
      if t.kind = .atKeyword then !(splitPrelude true 0 ts).2.isEmpty
      else if moment.body.skips t.kind || t.kind == .rightBrace then true
      else
        match moment.body with
        | .rules _ => !(splitPrelude false 0 (t :: ts)).2.isEmpty
        | .declarations => endsAmongDeclarations (t :: ts)

def andMore (more : List Token) (found : State × List Token) : State × List Token :=
  (found.1, found.2 ++ more)

variable {o : Options} {st : State} {t : Token} {more : List Token}

theorem stepAtRule_more {name : Bytes} (h : (splitPrelude true 0 ts).2 ≠ []) :
    stepAtRule o st name (ts ++ more) = (stepAtRule o st name ts).map (andMore more) := by
  rw [stepAtRule, stepAtRule, splitPrelude_more h]
  cases hsplit : (splitPrelude true 0 ts).2 with
  | nil => exact absurd hsplit h
  | cons u rest =>
      simp only [List.cons_append, apply_ite (Except.map _)]
      cases st.enter o (.atRule name (Token.write .prelude (splitPrelude true 0 ts).1) true)
        (bodyOf o name) <;> rfl

theorem stepRule_more {selectors : Bool} (h : (splitPrelude false 0 ts).2 ≠ []) :
    stepRule o st selectors (ts ++ more) = (stepRule o st selectors ts).map (andMore more) := by
  rw [stepRule, stepRule, splitPrelude_more h]
  cases hsplit : (splitPrelude false 0 ts).2 with
  | nil => exact absurd hsplit h
  | cons u rest =>
      simp only [List.cons_append, apply_ite (Except.map _)]
      cases st.enter o (ruleHead selectors (splitPrelude false 0 ts).1) .declarations <;> rfl

theorem dropSemicolon_more (h : ts ≠ []) :
    dropSemicolon (ts ++ more) = dropSemicolon ts ++ more := by
  cases ts with
  | nil => exact absurd rfl h
  | cons t ts =>
      rw [List.cons_append, dropSemicolon, dropSemicolon]
      split <;> rfl

theorem stepDeclaration_more {opening : Opening} (h : (splitValue 0 0 opening.rest).2 ≠ []) :
    stepDeclaration st { opening with rest := opening.rest ++ more } =
      andMore more (stepDeclaration st opening) := by
  rw [stepDeclaration, stepDeclaration]
  simp only [splitValue_more h, dropSemicolon_more h]
  cases declaration? opening.property (splitValue 0 0 opening.rest).1 <;> rfl

theorem skipMalformed_more (h : (splitValue 0 0 ts).2 ≠ []) :
    skipMalformed (ts ++ more) = skipMalformed ts ++ more := by
  rw [skipMalformed, skipMalformed, splitValue_more h, dropSemicolon_more h]

theorem stepInRules_more {selectors : Bool}
    (h : Moment.isEnded ⟨.rules selectors, t :: ts⟩ = true) :
    stepInRules o st selectors t (ts ++ more) =
      (stepInRules o st selectors t ts).map (andMore more) := by
  unfold stepInRules
  cases hkind : t.kind with
  | whitespace | cdo | cdc | semicolon => rfl
  | rightBrace =>
      simp only [apply_ite (Except.map _)]
      rfl
  | atKeyword => exact stepAtRule_more (by simpa [Moment.isEnded, hkind] using h)
  | _ => exact stepRule_more (by simpa [Moment.isEnded, hkind, Body.skips] using h)

theorem aheadFound_of_ends (h : endsAmongDeclarations ts = true) : AheadFound 0 ts := by
  unfold endsAmongDeclarations at h
  split at h
  · rename_i opening hahead
    rcases opening?_some (opening?_of_declarationAhead? hahead).1 with
      ⟨star, name, gap, colon, rfl, hstands⟩
    rcases aheadFound_of_splitValue (d := 0) (by simpa using h) with ⟨found, hfold⟩
    have hsplit : star ++ name :: (gap ++ colon :: opening.rest) =
        (star ++ name :: (gap ++ [colon])) ++ opening.rest := by
      simp
    exact ⟨found, by rw [hsplit, List.foldl_append, foldl_aheadAfter_plain _ hstands.plain, hfold]⟩
  · split at h
    · rename_i hrule
      exact aheadFound_of_ruleAhead hrule
    · exact aheadFound_of_splitValue (by simpa using h)

def stepAmongDeclarations (o : Options) (st : State) (ts : List Token) : Step :=
  match declarationAhead? ts with
  | some opening => .ok (stepDeclaration st opening)
  | none =>
      if ruleAhead 0 ts then stepRule o st o.isStrict ts
      else .ok (st, skipMalformed ts)

theorem stepAmongDeclarations_more (h : endsAmongDeclarations ts = true) :
    stepAmongDeclarations o st (ts ++ more) =
      (stepAmongDeclarations o st ts).map (andMore more) := by
  have hfound := aheadFound_of_ends h
  rw [stepAmongDeclarations, stepAmongDeclarations, declarationAhead?_more hfound,
    ruleAhead_more hfound]
  unfold endsAmongDeclarations at h
  cases hahead : declarationAhead? ts with
  | some opening =>
      rw [hahead] at h
      exact congrArg Except.ok (stepDeclaration_more (by simpa using h))
  | none =>
      rw [hahead] at h
      simp only [Option.map_none] at h ⊢
      split at h
      · rename_i hrule
        rw [if_pos hrule, if_pos hrule]
        exact stepRule_more (by simpa using h)
      · rename_i hrule
        rw [if_neg hrule, if_neg hrule, skipMalformed_more (by simpa using h)]
        rfl

theorem stepInDeclarations_more (h : Moment.isEnded ⟨.declarations, t :: ts⟩ = true) :
    stepInDeclarations o st t (ts ++ more) =
      (stepInDeclarations o st t ts).map (andMore more) := by
  unfold stepInDeclarations
  cases hkind : t.kind with
  | whitespace | semicolon | rightBrace => rfl
  | atKeyword => exact stepAtRule_more (by simpa [Moment.isEnded, hkind] using h)
  | _ =>
      have hends : endsAmongDeclarations (t :: ts) = true := by
        simpa [Moment.isEnded, hkind, Body.skips] using h
      exact stepAmongDeclarations_more hends

theorem step_more (h : Moment.isEnded ⟨st.body, t :: ts⟩ = true) :
    step o st t (ts ++ more) = (step o st t ts).map (andMore more) := by
  rw [step, step]
  cases hbody : st.body with
  | rules selectors => exact stepInRules_more (hbody ▸ h)
  | declarations => exact stepInDeclarations_more (hbody ▸ h)

theorem run_more {st' : State} (hrun : run o st ts = .ok st')
    (h : ∀ moment ∈ moments o st ts, moment.isEnded = true) :
    run o st (ts ++ more) = run o st' more := by
  induction hlength : ts.length using Nat.strongRecOn generalizing st ts with
  | ind length ih =>
    cases ts with
    | nil =>
        rw [run_nil] at hrun
        cases hrun
        rfl
    | cons t ts =>
        rcases run_cons_ok hrun with ⟨next, rest, hstep, hnext⟩
        rw [moments_cons_of_ok hstep] at h
        have hmore : step o st t (ts ++ more) = .ok (next, rest ++ more) := by
          rw [step_more (h _ List.mem_cons_self), hstep]
          rfl
        rw [List.cons_append, run_cons_of_ok hmore]
        exact ih rest.length (hlength ▸ step_length hstep) hnext
          (fun moment hmoment => h moment (List.mem_cons_of_mem _ hmoment)) rfl

/-!
## Closed texts
-/

/-- Reading the text leaves nothing open. -/
def isClosed (o : Options) (s : Bytes) : Bool :=
  Token.isTerminated s &&
    (buildMoments o (.rules o.isStrict) (tokenize s)).all Moment.isEnded &&
      (run o ⟨.rules o.isStrict, [], []⟩ (Token.body (tokenize s))).toOption.any fun st =>
        st.frames.isEmpty

variable {s : Bytes}

theorem builds_of_closed (h : isClosed o s = true) :
    ∃ nodes, Builds o (.rules o.isStrict) (Token.body (tokenize s)) nodes := by
  simp only [isClosed, Bool.and_eq_true, List.all_eq_true] at h
  rcases h with ⟨⟨-, hended⟩, hrun⟩
  cases hst : run o ⟨.rules o.isStrict, [], []⟩ (Token.body (tokenize s)) with
  | error e =>
      rw [hst] at hrun
      cases hrun
  | ok st =>
      rw [hst] at hrun
      rcases st with ⟨body, nodes, frames⟩
      obtain rfl : frames = [] := List.isEmpty_iff.mp hrun
      have hstart := State.Grown.start o (fun _ => True) (.rules o.isStrict)
      obtain rfl : body = .rules o.isStrict := (hstart.run (fun _ _ => trivial) hst).frames
      refine ⟨nodes.reverse, fun built rest => ?_⟩
      have hbuilt : ∀ nodes : List Node, (⟨.rules o.isStrict, nodes ++ built, []⟩ : State) =
          State.onto built ⟨.rules o.isStrict, nodes, []⟩ := fun _ => rfl
      rw [List.reverse_reverse, hbuilt, run_onto, ← run_more hst hended, ← run_onto, ← hbuilt]
      rfl

theorem build_append_of_closed (h : isClosed o s = true) :
    ∃ nodes, ∀ y, build o (.rules o.isStrict) (tokenize (s ++ y)) =
      (build o (.rules o.isStrict) (tokenize y)).map (nodes ++ ·) := by
  have hterminated : Token.isTerminated s = true := by
    simp only [isClosed, Bool.and_eq_true] at h
    exact h.1.1
  rcases builds_of_closed h with ⟨nodes, hbuilds⟩
  refine ⟨nodes, fun y => ?_⟩
  rw [tokenize_append hterminated, build_append hbuilds fun _ hu => kind_of_mem_body hu]

theorem parse_append_of_closed (hlenient : o.isStrict = false) (h : isClosed o s = true) :
    ∃ nodes, parse o s = .ok nodes ∧
      ∀ y, parse o (s ++ y) = (parse o y).map (nodes ++ ·) := by
  rcases build_append_of_closed h with ⟨nodes, hbuild⟩
  have happend : ∀ y, parse o (s ++ y) = (parse o y).map (nodes ++ ·) := by
    intro y
    rw [parse, parse, ofTokens_of_lenient hlenient, ofTokens_of_lenient hlenient, hbuild]
  refine ⟨nodes, ?_, happend⟩
  have halone := happend []
  rw [List.append_nil, parse_nil] at halone
  rw [halone]
  exact congrArg Except.ok (List.append_nil nodes)

end Sheet
end StyleTrim
