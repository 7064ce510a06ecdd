import StyleTrim.Selector.Parser
import StyleTrim.Sheet.Error
import StyleTrim.Sheet.Split

/-!
# Building a tree from tokens

The tree is built by a machine that holds the blocks still open on a stack. A step takes a
statement, a declaration, the opening of a block or its closing brace from the front of the
tokens. The depth of the stack is the depth of nesting, so the limit on nesting is checked in one
place, where a block is entered.
-/

namespace StyleTrim
namespace Sheet

/-- Strict reading reports what is wrong and reads selectors. Lenient reading carries on after
everything but blocks nested too deep, and leaves selectors alone. -/
inductive Mode where
  | strict
  | lenient
deriving DecidableEq, Repr

structure Options where
  mode : Mode := .strict
  maxDepth : Nat := 256

def Options.isStrict (o : Options) : Bool :=
  o.mode == .strict

/-- What the nodes of a block are. -/
inductive Body where
  | rules (selectors : Bool)
  | declarations
deriving DecidableEq, Repr

/-- A block that is still open: its head, and the list of nodes it stands in, up to it. The nodes
come last one first. -/
structure Frame where
  head : Head
  body : Body
  before : List Node

/-- The innermost list of nodes, last one first, and the open blocks around it, innermost
first. -/
structure State where
  body : Body
  nodes : List Node
  frames : List Frame

namespace State

def push (st : State) (node : Node) : State :=
  { st with nodes := node :: st.nodes }

/-- Ends the innermost block. Outside of all blocks there is none to end. -/
def close (st : State) : State :=
  match st.frames with
  | [] => st
  | frame :: frames =>
      { body := frame.body
        nodes := ⟨frame.head, st.nodes.reverse⟩ :: frame.before
        frames := frames }

def enter (o : Options) (st : State) (head : Head) (body : Body) : Except SheetError State :=
  if o.maxDepth < st.frames.length + 1 then .error (.tooDeep o.maxDepth)
  else
    .ok { body := body
          nodes := []
          frames := ⟨head, st.body, st.nodes⟩ :: st.frames }

def closeAll (nodes : List Node) : List Frame -> List Node
  | [] => nodes.reverse
  | frame :: frames => closeAll (⟨frame.head, nodes.reverse⟩ :: frame.before) frames

end State

abbrev Step := Except SheetError (State × List Token)

/-!
## At-rules
-/

/-- What the block of an at-rule holds. -/
def bodyOf (o : Options) (name : Bytes) : Body :=
  if AtRuleKind.ofName name = .keyframes then .rules false
  else if AtRuleKind.isGroupName name then .rules o.isStrict
  else .declarations

/-- An at-rule after its keyword. One cut short by the end of its block, or of the input, is a
statement all the same. -/
def stepAtRule (o : Options) (st : State) (name : Bytes) (ts : List Token) : Step :=
  let split := splitPrelude true 0 ts
  let head := Head.atRule name (Token.write .prelude split.1)
  match split.2 with
  | [] => .ok (st.push ⟨head false, []⟩, [])
  | t :: rest =>
      if t.kind = .semicolon then .ok (st.push ⟨head false, []⟩, rest)
      else if t.kind = .leftBrace then
        match st.enter o (head true) (bodyOf o name) with
        | .error e => .error e
        | .ok st' => .ok (st', rest)
      else .ok (st.push ⟨head false, []⟩, t :: rest)

/-!
## Rules
-/

/-- The head of a style rule with the given prelude. -/
def ruleHead (selectors : Bool) (prelude : List Token) : Head :=
  .rule (Token.write .selector prelude)
    (if selectors then (SelectorList.ofTokens prelude).toOption else none)

/-- A rule at the front of the tokens. A prelude that runs into the end of the block around it
leaves no node. -/
def stepRule (o : Options) (st : State) (selectors : Bool) (ts : List Token) : Step :=
  let split := splitPrelude false 0 ts
  match split.2 with
  | [] => if o.isStrict then .error .endInPrelude else .ok (st, [])
  | t :: rest =>
      if t.kind = .leftBrace then
        match st.enter o (ruleHead selectors split.1) .declarations with
        | .error e => .error e
        | .ok st' => .ok (st', rest)
      else .ok (st, t :: rest)

/-!
## Declarations
-/

def stepDeclaration (st : State) (opening : Opening) : State × List Token :=
  let split := splitValue 0 0 opening.rest
  let rest := dropSemicolon split.2
  match declaration? opening.property split.1 with
  | some node => (st.push node, rest)
  | none => (st, rest)

/-- Passes over what is neither a declaration nor a rule. -/
def skipMalformed (ts : List Token) : List Token :=
  dropSemicolon (splitValue 0 0 ts).2

/-!
## The machine
-/

def stepInRules (o : Options) (st : State) (selectors : Bool) (t : Token) (ts : List Token) :
    Step :=
  match t.kind with
  | .whitespace => .ok (st, ts)
  | .cdo => .ok (st, ts)
  | .cdc => .ok (st, ts)
  | .semicolon => .ok (st, ts)
  | .rightBrace =>
      if st.frames.isEmpty && o.isStrict then .error .strayBrace else .ok (st.close, ts)
  | .atKeyword => stepAtRule o st t.value ts
  | _ => stepRule o st selectors (t :: ts)

def stepInDeclarations (o : Options) (st : State) (t : Token) (ts : List Token) : Step :=
  match t.kind with
  | .whitespace => .ok (st, ts)
  | .semicolon => .ok (st, ts)
  | .rightBrace => .ok (st.close, ts)
  | .atKeyword => stepAtRule o st t.value ts
  | _ =>
      match declarationAhead? (t :: ts) with
      | some opening => .ok (stepDeclaration st opening)
      | none =>
          if ruleAhead 0 (t :: ts) then stepRule o st o.isStrict (t :: ts)
          else .ok (st, skipMalformed (t :: ts))

def step (o : Options) (st : State) (t : Token) (ts : List Token) : Step :=
  match st.body with
  | .rules selectors => stepInRules o st selectors t ts
  | .declarations => stepInDeclarations o st t ts

/-!
## Every step takes tokens
-/

theorem stepAtRule_length {o : Options} {st st' : State} {name : Bytes} {ts rest : List Token}
    (h : stepAtRule o st name ts = .ok (st', rest)) : rest.length ≤ ts.length := by
  have hsplit := splitPrelude_length_le true 0 ts
  unfold stepAtRule at h
  dsimp only at h
  split at h
  · cases h
    simp
  · rename_i t after heq
    rw [heq, List.length_cons] at hsplit
    split at h
    · cases h
      omega
    · split at h
      · split at h
        · cases h
        · cases h
          omega
      · cases h
        simpa using hsplit

theorem stepRule_length {o : Options} {st st' : State} {selectors : Bool} {t : Token}
    {ts rest : List Token} (hbrace : t.kind ≠ .rightBrace)
    (h : stepRule o st selectors (t :: ts) = .ok (st', rest)) :
    rest.length < (t :: ts).length := by
  have hsplit := splitPrelude_length_le false 0 (t :: ts)
  unfold stepRule at h
  dsimp only at h
  split at h
  · split at h <;> cases h
    simp
  · rename_i u after heq
    rw [heq] at hsplit
    split at h
    · split at h
      · cases h
      · cases h
        simp only [List.length_cons] at hsplit ⊢
        omega
    · rename_i hopen
      cases h
      have hends : endsPrelude false 0 t = false := by
        rw [Bool.eq_false_iff]
        intro hends
        rw [splitPrelude, if_pos hends] at heq
        obtain ⟨rfl, rfl⟩ := List.cons.inj heq
        simp [endsPrelude, hopen, hbrace] at hends
      rw [splitPrelude, if_neg (by simp [hends])] at heq
      have hle := splitPrelude_length_le false (depthAfter 0 t) ts
      rw [heq] at hle
      simp only [List.length_cons] at hle ⊢
      omega

theorem stepDeclaration_length {st : State} {ts : List Token} {opening : Opening}
    (h : declarationAhead? ts = some opening) :
    (stepDeclaration st opening).2.length < ts.length := by
  have h1 := declarationAhead?_length h
  have h2 := splitValue_length_le 0 0 opening.rest
  have h3 := dropSemicolon_length_le (splitValue 0 0 opening.rest).2
  unfold stepDeclaration
  dsimp only
  split <;>
  · simp only
    omega

theorem skipMalformed_length {t : Token} {ts : List Token} (hsemi : t.kind ≠ .semicolon)
    (hbrace : t.kind ≠ .rightBrace) : (skipMalformed (t :: ts)).length < (t :: ts).length := by
  unfold skipMalformed
  rw [splitValue, if_neg (by simp [hsemi, hbrace])]
  have h1 := splitValue_length_le (depthAfter 0 t) (bracesAfter 0 t) ts
  have h2 := dropSemicolon_length_le (splitValue (depthAfter 0 t) (bracesAfter 0 t) ts).2
  simp only [List.length_cons]
  omega

theorem stepInRules_length {o : Options} {st st' : State} {selectors : Bool} {t : Token}
    {ts rest : List Token} (h : stepInRules o st selectors t ts = .ok (st', rest)) :
    rest.length < (t :: ts).length := by
  unfold stepInRules at h
  split at h
  · cases h
    simp
  · cases h
    simp
  · cases h
    simp
  · cases h
    simp
  · split at h <;> cases h
    simp
  · have := stepAtRule_length h
    simp only [List.length_cons]
    omega
  · rename_i hbrace _
    exact stepRule_length hbrace h

theorem stepInDeclarations_length {o : Options} {st st' : State} {t : Token}
    {ts rest : List Token} (h : stepInDeclarations o st t ts = .ok (st', rest)) :
    rest.length < (t :: ts).length := by
  unfold stepInDeclarations at h
  split at h
  · cases h
    simp
  · cases h
    simp
  · cases h
    simp
  · have := stepAtRule_length h
    simp only [List.length_cons]
    omega
  · rename_i hsemi hbrace _
    split at h
    · rename_i opening hopening
      change (st', rest).2.length < _
      rw [← Except.ok.inj h]
      exact stepDeclaration_length hopening
    · split at h
      · exact stepRule_length hbrace h
      · cases h
        exact skipMalformed_length hsemi hbrace

theorem step_length {o : Options} {st st' : State} {t : Token} {ts rest : List Token}
    (h : step o st t ts = .ok (st', rest)) : rest.length < (t :: ts).length := by
  unfold step at h
  split at h
  · exact stepInRules_length h
  · exact stepInDeclarations_length h

/-- Takes steps until no token is left. -/
def run (o : Options) (st : State) (ts : List Token) : Except SheetError State :=
  match ts with
  | [] => .ok st
  | t :: rest =>
      match _h : step o st t rest with
      | .error e => .error e
      | .ok (st', rest') => run o st' rest'
termination_by ts.length
decreasing_by exact step_length (by assumption)

end Sheet
end StyleTrim
