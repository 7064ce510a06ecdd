import StyleTrim.Proofs.Selector.Rounds
import StyleTrim.Proofs.Sheet.Stretches

/-!
# Turns of reading nodes

The machine that builds a tree keeps the open blocks on a stack. A reader that goes down into blocks
looks at a list of nodes in turns instead: in front of it is the end of the list, something wrong,
something without a block, or the head of a block. What a turn sees is decided by its first token
and by looking ahead, and several of the things it may see take nothing by themselves: an empty
prelude in front of a brace, a prelude cut short by the end of the block, a malformed declaration.
Each is seen only where the first token is one that it takes. The machine takes the same turns.
-/

namespace StyleTrim
namespace Sheet

/-!
## What a turn sees
-/

/-- What comes next in a list of nodes: its end, a failure, something without a block, or the head
of a block with the prelude whose selectors are read. -/
inductive Turn where
  | ends
  | fails (e : SheetError)
  | takes (nodes : List Node) (rest : List Token)
  | opens (head : Head) (inner : Body) (prelude : Option (List Token)) (rest : List Token)

def turnAtRule (o : Options) (name : Bytes) (ts : List Token) : Turn :=
  let split := splitPrelude true 0 ts
  let head := Head.atRule name (Token.write .prelude split.1)
  match split.2 with
  | [] => .takes [⟨head false, []⟩] []
  | t :: rest =>
      if t.kind = .semicolon then .takes [⟨head false, []⟩] rest
      else if t.kind = .leftBrace then .opens (head true) (bodyOf o name) none rest
      else .takes [⟨head false, []⟩] (t :: rest)

def turnRule (o : Options) (selectors : Bool) (ts : List Token) : Turn :=
  let split := splitPrelude false 0 ts
  match split.2 with
  | [] => if o.isStrict then .fails .endInPrelude else .takes [] []
  | t :: rest =>
      if t.kind = .leftBrace then
        .opens (ruleHead selectors split.1) .declarations
          (if selectors then some split.1 else none) rest
      else .takes [] (t :: rest)

def turnDeclaration (opening : Opening) : Turn :=
  let split := splitValue 0 0 opening.rest
  .takes (declaration? opening.property split.1).toList (dropSemicolon split.2)

/-- A turn in a list of rules with `depth` open blocks. Only outside of all blocks is a closing
brace not the end of the list. -/
def turnInRules (o : Options) (depth : Nat) (selectors : Bool) (t : Token) (ts : List Token) :
    Turn :=
  match t.kind with
  | .cdo => .takes [] ts
  | .cdc => .takes [] ts
  | .rightBrace =>
      if depth = 0 then if o.isStrict then .fails .strayBrace else .takes [] ts else .ends
  | .semicolon => .takes [] ts
  | .atKeyword => turnAtRule o t.value ts
  | _ => turnRule o selectors (t :: ts)

def turnInDeclarations (o : Options) (t : Token) (ts : List Token) : Turn :=
  match t.kind with
  | .rightBrace => .ends
  | .atKeyword => turnAtRule o t.value ts
  | _ =>
      match declarationAhead? (t :: ts) with
      | some opening => turnDeclaration opening
      | none =>
          if ruleAhead 0 (t :: ts) then turnRule o o.isStrict (t :: ts)
          else .takes [] (skipMalformed (t :: ts))

def turnAt (o : Options) (depth : Nat) (body : Body) (t : Token) (ts : List Token) : Turn :=
  match body with
  | .rules selectors => turnInRules o depth selectors t ts
  | .declarations => turnInDeclarations o t ts

def Body.isGap : Body -> Token -> Bool
  | .rules _, t => t.kind == .whitespace
  | .declarations, t => t.kind == .whitespace || t.kind == .semicolon

def Body.dropGap (body : Body) (ts : List Token) : List Token :=
  ts.dropWhile body.isGap

def turn (o : Options) (depth : Nat) (body : Body) (ts : List Token) : Turn :=
  match body.dropGap ts with
  | [] => .ends
  | t :: rest => turnAt o depth body t rest

variable {o : Options} {depth : Nat} {body inner : Body} {t : Token} {ts rest : List Token}
  {seen : Turn} {head : Head} {nodes : List Node} {prelude : Option (List Token)}

inductive Sees (o : Options) (depth : Nat) (body : Body) (t : Token) (ts : List Token) :
    Turn -> Prop where
  | brace (hbrace : t.kind = .rightBrace) (hdepth : depth = 0 -> body = .declarations) :
      Sees o depth body t ts .ends
  | stray (hbrace : t.kind = .rightBrace) : Sees o depth body t ts (.fails .strayBrace)
  | pass : Sees o depth body t ts (.takes [] ts)
  | atRule (hat : t.kind = .atKeyword) : Sees o depth body t ts (turnAtRule o t.value ts)
  | rule {selectors : Bool} (hbrace : t.kind ≠ .rightBrace) :
      Sees o depth body t ts (turnRule o selectors (t :: ts))
  | declaration {opening : Opening} (hahead : declarationAhead? (t :: ts) = some opening) :
      Sees o depth body t ts (turnDeclaration opening)
  | malformed (hsemi : t.kind ≠ .semicolon) (hbrace : t.kind ≠ .rightBrace) :
      Sees o depth body t ts (.takes [] (skipMalformed (t :: ts)))

theorem turnAt_sees (hgap : body.isGap t = false) :
    Sees o depth body t ts (turnAt o depth body t ts) := by
  cases body with
  | rules selectors =>
      unfold turnAt turnInRules
      dsimp only
      split
      · exact .pass
      · exact .pass
      · rename_i hbrace
        split
        · split
          · exact .stray hbrace
          · exact .pass
        · rename_i hdepth
          exact .brace hbrace fun hzero => absurd hzero hdepth
      · exact .pass
      · rename_i hat
        exact .atRule hat
      · rename_i hbrace _ _
        exact .rule hbrace
  | declarations =>
      unfold turnAt turnInDeclarations
      dsimp only
      split
      · rename_i hbrace
        exact .brace hbrace fun _ => rfl
      · rename_i hat
        exact .atRule hat
      · rename_i hbrace _
        split
        · rename_i opening hahead
          exact .declaration hahead
        · split
          · exact .rule hbrace
          · simp only [Body.isGap, Bool.or_eq_false_iff, beq_eq_false_iff_ne] at hgap
            exact .malformed hgap.2 hbrace

theorem Body.isGap_of_dropGap (h : body.dropGap ts = t :: rest) : body.isGap t = false := by
  have hstop := List.head?_dropWhile_not body.isGap ts
  rwa [← Body.dropGap, h] at hstop

theorem turn_front (h : turn o depth body ts = seen) (hne : seen ≠ .ends) :
    ∃ t rest, body.dropGap ts = t :: rest ∧ body.isGap t = false ∧
      turnAt o depth body t rest = seen := by
  cases hdrop : body.dropGap ts with
  | nil =>
      rw [turn, hdrop] at h
      exact absurd h.symm hne
  | cons t rest =>
      rw [turn, hdrop] at h
      exact ⟨t, rest, rfl, Body.isGap_of_dropGap hdrop, h⟩

theorem sees_of_turn (h : turn o depth body ts = seen) (hne : seen ≠ .ends) :
    ∃ t rest, body.dropGap ts = t :: rest ∧ Sees o depth body t rest seen := by
  rcases turn_front h hne with ⟨t, rest, hdrop, hgap, hat⟩
  exact ⟨t, rest, hdrop, hat ▸ turnAt_sees hgap⟩

/-!
## Turns take tokens
-/

def Turn.rest? : Turn -> Option (List Token)
  | .takes _ rest => some rest
  | .opens _ _ _ rest => some rest
  | _ => none

theorem turnAtRule_suffix {name : Bytes} (h : (turnAtRule o name ts).rest? = some rest) :
    rest <:+ ts := by
  have hsuffix := splitPrelude_suffix true 0 ts
  unfold turnAtRule at h
  dsimp only at h
  split at h
  · cases h
    exact List.nil_suffix
  · rename_i u after hsplit
    rw [hsplit] at hsuffix
    have hafter := (List.suffix_cons u after).trans hsuffix
    split at h
    · cases h
      exact hafter
    · split at h
      · cases h
        exact hafter
      · cases h
        exact hsuffix

theorem turnRule_advances {selectors : Bool} (hbrace : t.kind ≠ .rightBrace)
    (h : (turnRule o selectors (t :: ts)).rest? = some rest) : Advances (t :: ts) rest := by
  have happend := splitPrelude_append false 0 (t :: ts)
  unfold turnRule at h
  dsimp only at h
  split at h
  · split at h <;> cases h
    exact ⟨t :: ts, List.cons_ne_nil t ts, (List.append_nil _).symm⟩
  · rename_i u after hsplit
    rw [hsplit] at happend
    split at h
    · cases h
      refine ⟨(splitPrelude false 0 (t :: ts)).1 ++ [u], by simp, ?_⟩
      rw [List.append_assoc]
      exact happend.symm
    · rename_i hopen
      cases h
      refine ⟨_, ?_, happend.symm⟩
      intro hnil
      rw [hnil] at happend
      obtain rfl : u = t := (List.cons.inj happend).1
      rcases splitPrelude_head_ends hsplit with hleft | hright | ⟨hstatement, _⟩
      · exact hopen hleft
      · exact hbrace hright
      · cases hstatement

theorem turnDeclaration_advances {opening : Opening} (hahead : declarationAhead? ts = some opening)
    (h : (turnDeclaration opening).rest? = some rest) : Advances ts rest := by
  have hopening : Advances ts opening.rest :=
    advances_of_suffix (declarationAhead?_suffix hahead) (declarationAhead?_length hahead)
  cases h
  exact hopening.before ((dropSemicolon_suffix _).trans (splitValue_suffix 0 0 _))

theorem Sees.advances (h : Sees o depth body t ts seen) (hrest : seen.rest? = some rest) :
    Advances (t :: ts) rest := by
  have htail := advances_cons t ts
  cases h with
  | brace _ _ => cases hrest
  | stray _ => cases hrest
  | pass =>
      cases hrest
      exact htail
  | atRule _ => exact htail.before (turnAtRule_suffix hrest)
  | rule hbrace => exact turnRule_advances hbrace hrest
  | declaration hahead => exact turnDeclaration_advances hahead hrest
  | malformed hsemi hbrace =>
      cases hrest
      exact advances_of_suffix ((dropSemicolon_suffix _).trans (splitValue_suffix 0 0 _))
        (skipMalformed_length hsemi hbrace)

theorem turn_advances_gap (h : turn o depth body ts = seen) (hrest : seen.rest? = some rest) :
    Advances (body.dropGap ts) rest := by
  have hne : seen ≠ .ends := by
    rintro rfl
    cases hrest
  rcases sees_of_turn h hne with ⟨t, after, hdrop, hsees⟩
  rw [hdrop]
  exact hsees.advances hrest

theorem turn_advances (h : turn o depth body ts = seen) (hrest : seen.rest? = some rest) :
    Advances ts rest :=
  (turn_advances_gap h hrest).behind (List.dropWhile_suffix _)

/-!
## Where a list ends
-/

theorem turnAtRule_ne_ends (o : Options) (name : Bytes) (ts : List Token) :
    turnAtRule o name ts ≠ .ends := by
  unfold turnAtRule
  dsimp only
  split
  · rintro ⟨⟩
  · split
    · rintro ⟨⟩
    · split <;> rintro ⟨⟩

theorem turnRule_ne_ends (o : Options) (selectors : Bool) (ts : List Token) :
    turnRule o selectors ts ≠ .ends := by
  unfold turnRule
  dsimp only
  split
  · split <;> rintro ⟨⟩
  · split <;> rintro ⟨⟩

theorem Sees.of_ends (h : Sees o depth body t ts seen) (hends : seen = .ends) :
    t.kind = .rightBrace ∧ (depth = 0 -> body = .declarations) := by
  cases h with
  | brace hbrace hdepth => exact ⟨hbrace, hdepth⟩
  | atRule _ => exact absurd hends (turnAtRule_ne_ends _ _ _)
  | rule _ => exact absurd hends (turnRule_ne_ends _ _ _)
  | _ => cases hends

theorem turn_ends (h : turn o depth body ts = .ends) :
    ∀ t ∈ (body.dropGap ts).head?, t.kind = .rightBrace ∧ (depth = 0 -> body = .declarations) := by
  intro t ht
  cases hdrop : body.dropGap ts with
  | nil =>
      rw [hdrop] at ht
      cases ht
  | cons u rest =>
      rw [hdrop] at ht
      cases ht
      rw [turn, hdrop] at h
      exact (turnAt_sees (Body.isGap_of_dropGap hdrop)).of_ends h

/-!
## The head of a block
-/

theorem turnAtRule_opens_length {name : Bytes}
    (h : turnAtRule o name ts = .opens head inner prelude rest) :
    (prelude.getD []).length + 1 + rest.length ≤ ts.length := by
  have hsplit := splitPrelude_length_le true 0 ts
  unfold turnAtRule at h
  dsimp only at h
  split at h
  · cases h
  · rename_i u after hafter
    split at h
    · cases h
    · split at h <;> cases h
      rw [hafter, List.length_cons] at hsplit
      rw [Option.getD_none, List.length_nil]
      omega

theorem turnRule_opens_length {selectors : Bool}
    (h : turnRule o selectors ts = .opens head inner prelude rest) :
    (prelude.getD []).length + 1 + rest.length ≤ ts.length := by
  have happend := congrArg List.length (splitPrelude_append false 0 ts)
  unfold turnRule at h
  dsimp only at h
  split at h
  · split at h <;> cases h
  · rename_i u after hafter
    split at h <;> cases h
    rw [hafter, List.length_append, List.length_cons] at happend
    cases selectors with
    | false =>
        change 0 + 1 + rest.length ≤ ts.length
        omega
    | true =>
        change (splitPrelude false 0 ts).1.length + 1 + rest.length ≤ ts.length
        omega

theorem Sees.opens_length (h : Sees o depth body t ts seen)
    (hopens : seen = .opens head inner prelude rest) :
    (prelude.getD []).length + 1 + rest.length ≤ (t :: ts).length := by
  cases h with
  | atRule _ => exact (turnAtRule_opens_length hopens).trans (Nat.le_succ _)
  | rule _ => exact turnRule_opens_length hopens
  | _ => cases hopens

theorem turn_opens_length (h : turn o depth body ts = .opens head inner prelude rest) :
    (prelude.getD []).length + 1 + rest.length ≤ (body.dropGap ts).length := by
  rcases sees_of_turn h (by rintro ⟨⟩) with ⟨t, after, hdrop, hsees⟩
  rw [hdrop]
  exact hsees.opens_length rfl

/-!
## The machine takes the same turns
-/

def complete (o : Options) (st : State) (ts : List Token) : Except SheetError Sheet :=
  match run o st ts with
  | .error e => .error e
  | .ok st' => finish o st'

theorem build_eq_complete (o : Options) (body : Body) (ts : List Token) :
    build o body ts = complete o ⟨body, [], []⟩ (Token.body ts) :=
  rfl

variable {st st' : State}

theorem complete_nil (o : Options) (st : State) : complete o st [] = finish o st := by
  rw [complete, run_nil]

theorem complete_of_ok (h : step o st t ts = .ok (st', rest)) :
    complete o st (t :: ts) = complete o st' rest := by
  rw [complete, run_cons_of_ok h, complete]

theorem complete_of_error {e : SheetError} (h : step o st t ts = .error e) :
    complete o st (t :: ts) = .error e := by
  rw [complete, run_cons_of_error h]

def State.pushAll (st : State) (nodes : List Node) : State :=
  { st with nodes := nodes.reverse ++ st.nodes }

theorem State.pushAll_pushAll (st : State) (nodes more : List Node) :
    (st.pushAll nodes).pushAll more = st.pushAll (nodes ++ more) := by
  simp [State.pushAll]

def Turn.act (o : Options) (st : State) (ts : List Token) : Turn -> Step
  | .ends => .ok (st.close, ts)
  | .fails e => .error e
  | .takes nodes rest => .ok (st.pushAll nodes, rest)
  | .opens head inner _ rest =>
      match st.enter o head inner with
      | .error e => .error e
      | .ok st' => .ok (st', rest)

theorem stepAtRule_eq_act (o : Options) (st : State) (name : Bytes) (ts tail : List Token) :
    stepAtRule o st name ts = (turnAtRule o name ts).act o st tail := by
  rw [stepAtRule, turnAtRule]
  cases (splitPrelude true 0 ts).2 with
  | nil => rfl
  | cons u rest =>
      simp only [apply_ite (Turn.act o st tail)]
      rfl

theorem stepRule_eq_act (o : Options) (st : State) (selectors : Bool) (ts tail : List Token) :
    stepRule o st selectors ts = (turnRule o selectors ts).act o st tail := by
  rw [stepRule, turnRule]
  cases (splitPrelude false 0 ts).2 with
  | nil =>
      simp only [apply_ite (Turn.act o st tail)]
      rfl
  | cons u rest =>
      simp only [apply_ite (Turn.act o st tail)]
      rfl

theorem stepDeclaration_eq_act (o : Options) (st : State) (opening : Opening)
    (tail : List Token) :
    .ok (stepDeclaration st opening) = (turnDeclaration opening).act o st tail := by
  rw [stepDeclaration, turnDeclaration]
  cases declaration? opening.property (splitValue 0 0 opening.rest).1 <;> rfl

theorem step_gap (h : st.body.isGap t = true) : step o st t ts = .ok (st, ts) := by
  rcases st with ⟨body, nodes, frames⟩
  cases body with
  | rules selectors =>
      have hspace : t.kind = .whitespace := beq_iff_eq.mp h
      simp only [step, stepInRules, hspace]
  | declarations =>
      rcases Bool.or_eq_true_iff.mp h with hspace | hsemi
      · simp only [step, stepInDeclarations, beq_iff_eq.mp hspace]
      · simp only [step, stepInDeclarations, beq_iff_eq.mp hsemi]

theorem step_eq_act (hgap : st.body.isGap t = false) :
    step o st t ts = (turnAt o st.frames.length st.body t ts).act o st ts := by
  rcases st with ⟨body, nodes, frames⟩
  cases body with
  | rules selectors =>
      simp only [step, stepInRules, turnAt, turnInRules, stepAtRule_eq_act o _ _ _ ts,
        stepRule_eq_act o _ _ _ ts]
      cases hkind : t.kind with
      | whitespace => simp [Body.isGap, hkind] at hgap
      | rightBrace =>
          -- outside of all blocks there is nothing to close, so the brace is passed over
          cases frames with
          | nil => cases o.isStrict <;> rfl
          | cons frame frames => rfl
      | _ => rfl
  | declarations =>
      simp only [step, stepInDeclarations, turnAt, turnInDeclarations,
        stepAtRule_eq_act o _ _ _ ts, stepRule_eq_act o _ _ _ ts,
        stepDeclaration_eq_act o _ _ ts]
      cases hkind : t.kind with
      | whitespace => simp [Body.isGap, hkind] at hgap
      | semicolon => simp [Body.isGap, hkind] at hgap
      | _ =>
          cases declarationAhead? (t :: ts) with
          | some opening => rfl
          | none => cases ruleAhead 0 (t :: ts) <;> rfl

theorem complete_dropGap (o : Options) (st : State) (ts : List Token) :
    complete o st ts = complete o st (st.body.dropGap ts) := by
  induction ts with
  | nil => rfl
  | cons t ts ih =>
      rw [Body.dropGap, List.dropWhile_cons]
      split
      · rename_i hgap
        rw [complete_of_ok (step_gap hgap), ih]
        rfl
      · rfl

theorem complete_of_turn (hturn : turn o st.frames.length st.body ts = seen)
    (hne : seen ≠ .ends) :
    ∃ tail, complete o st ts =
      (seen.act o st tail).bind fun found => complete o found.1 found.2 := by
  rcases turn_front hturn hne with ⟨t, rest, hdrop, hgap, hat⟩
  refine ⟨rest, ?_⟩
  rw [complete_dropGap, hdrop, ← hat, ← step_eq_act hgap]
  cases hstep : step o st t rest with
  | error e => exact complete_of_error hstep
  | ok found => exact complete_of_ok hstep

theorem complete_of_opens
    (hturn : turn o st.frames.length st.body ts = .opens head inner prelude rest)
    (hlimit : st.frames.length + 1 ≤ o.maxDepth) :
    complete o st ts = complete o ⟨inner, [], ⟨head, st.body, st.nodes⟩ :: st.frames⟩ rest := by
  rcases complete_of_turn hturn (by rintro ⟨⟩) with ⟨tail, hcomplete⟩
  rw [hcomplete, Turn.act, State.enter, if_neg (Nat.not_lt.mpr hlimit)]
  rfl

end Sheet
end StyleTrim
