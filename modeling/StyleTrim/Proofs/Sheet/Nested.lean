import StyleTrim.Proofs.Sheet.Closed
import StyleTrim.Proofs.Sheet.Compare
import StyleTrim.Proofs.Sheet.Nesting

/-!
# Inside of other blocks

A step does not look at the blocks around the list in which it is taken. So a list of nodes, with
the blocks that are open in it, can be put inside of other blocks, and the steps stay the same. They
stay the same even where a list of rules takes the place of a list of declarations, as long as only
rules begin in it.
-/

namespace StyleTrim
namespace Sheet

open Token

/-!
## Blocks around a list

A list of nodes with its open blocks can be put inside of other blocks. What holds the outermost
list, rules or declarations, is said anew.
-/

section Nested

variable (root : Body) (below : List Frame)

def bodyNested (frames : List Frame) (body : Body) : Body :=
  if frames.isEmpty then root else body

def framesNested : List Frame -> List Frame
  | [] => below
  | frame :: frames =>
      { frame with body := bodyNested root frames frame.body } :: framesNested frames

def State.nested (st : State) : State :=
  { body := bodyNested root st.frames st.body
    nodes := st.nodes
    frames := framesNested root below st.frames }

theorem framesNested_length (frames : List Frame) :
    (framesNested root below frames).length = frames.length + below.length := by
  induction frames with
  | nil => exact (Nat.zero_add _).symm
  | cons frame frames ih =>
      rw [framesNested, List.length_cons, List.length_cons, ih, Nat.add_right_comm]

variable {root below} {o : Options} {st : State} {limit : Nat}

theorem State.nested_body (h : st.frames = [] -> st.body = root) :
    (st.nested root below).body = st.body := by
  cases hframes : st.frames with
  | nil => simp [State.nested, bodyNested, hframes, h hframes]
  | cons frame frames => simp [State.nested, bodyNested, hframes]

theorem State.nested_push (node : Node) :
    (st.nested root below).push node = (st.push node).nested root below :=
  rfl

theorem State.nested_close (h : st.frames ≠ []) :
    (st.nested root below).close = st.close.nested root below := by
  rcases st with ⟨body, nodes, frames⟩
  cases frames with
  | nil => exact absurd rfl h
  | cons frame frames => rfl

theorem State.nested_enter (head : Head) (body : Body) :
    ((st.nested root below).enter (o.upTo (limit + below.length)) head body).toOption =
      (st.enter (o.upTo limit) head body).toOption.map (State.nested root below) := by
  have hlength : (st.nested root below).frames.length = st.frames.length + below.length :=
    framesNested_length root below st.frames
  have hlimit : ∀ depth, (o.upTo depth).maxDepth = depth := fun _ => rfl
  rw [enter, enter, hlength, hlimit, hlimit]
  by_cases hdeep : limit < st.frames.length + 1
  · rw [if_pos (by omega), if_pos hdeep]
    rfl
  · rw [if_neg (by omega), if_neg hdeep]
    rfl

def nestedRest (root : Body) (below : List Frame) (found : State × List Token) :
    State × List Token :=
  (found.1.nested root below, found.2)

theorem enter_nested (head : Head) (body : Body) (rest : List Token) :
    (match (st.nested root below).enter (o.upTo (limit + below.length)) head body with
      | .error e => (.error e : Step)
      | .ok st' => .ok (st', rest)).toOption =
    (match st.enter (o.upTo limit) head body with
      | .error e => (.error e : Step)
      | .ok st' => .ok (st', rest)).toOption.map (nestedRest root below) := by
  have henter : ((st.nested root below).enter (o.upTo (limit + below.length)) head body).toOption =
      (st.enter (o.upTo limit) head body).toOption.map (State.nested root below) :=
    State.nested_enter head body
  cases hinner : st.enter (o.upTo limit) head body with
  | error e =>
      cases houter : (st.nested root below).enter (o.upTo (limit + below.length)) head body with
      | error e' => rfl
      | ok st' =>
          rw [hinner, houter] at henter
          cases henter
  | ok st' =>
      rw [hinner] at henter
      rw [eq_ok_of_toOption henter]
      rfl

variable {t : Token} {ts : List Token}

theorem stepAtRule_nested (name : Bytes) :
    (stepAtRule (o.upTo (limit + below.length)) (st.nested root below) name ts).toOption =
      (stepAtRule (o.upTo limit) st name ts).toOption.map (nestedRest root below) := by
  unfold stepAtRule
  dsimp only
  split
  · rfl
  · split
    · rfl
    · split
      · exact enter_nested _ _ _
      · rfl

theorem stepRule_nested (selectors : Bool) :
    (stepRule (o.upTo (limit + below.length)) (st.nested root below) selectors ts).toOption =
      (stepRule (o.upTo limit) st selectors ts).toOption.map (nestedRest root below) := by
  have hstrict : (o.upTo (limit + below.length)).isStrict = (o.upTo limit).isStrict := rfl
  unfold stepRule
  dsimp only
  rw [hstrict]
  split
  · split <;> rfl
  · split
    · exact enter_nested _ _ _
    · rfl

theorem stepDeclaration_nested (opening : Opening) :
    stepDeclaration (st.nested root below) opening =
      nestedRest root below (stepDeclaration st opening) := by
  simp only [stepDeclaration, State.nested_push]
  cases declaration? opening.property (splitValue 0 0 opening.rest).1 <;> rfl

theorem stepInRules_nested (hstays : st.frames = [] -> t.kind ≠ .rightBrace) (selectors : Bool) :
    (stepInRules (o.upTo (limit + below.length)) (st.nested root below) selectors t ts).toOption =
      (stepInRules (o.upTo limit) st selectors t ts).toOption.map (nestedRest root below) := by
  unfold stepInRules
  cases hkind : t.kind with
  | whitespace | cdo | cdc | semicolon => rfl
  | rightBrace =>
      have hframes : st.frames ≠ [] := fun hempty => hstays hempty hkind
      have hopen : st.frames.isEmpty = false := by simpa using hframes
      have hopen' : (st.nested root below).frames.isEmpty = false := by
        change (framesNested root below st.frames).isEmpty = false
        cases hsame : st.frames with
        | nil => exact absurd hsame hframes
        | cons frame frames => rfl
      simp only [hopen, hopen', Bool.false_and, Bool.false_eq_true, if_false,
        State.nested_close hframes]
      rfl
  | atKeyword => exact stepAtRule_nested _
  | _ => exact stepRule_nested _

theorem stepInDeclarations_nested (hstays : st.frames = [] -> t.kind ≠ .rightBrace) :
    (stepInDeclarations (o.upTo (limit + below.length)) (st.nested root below) t ts).toOption =
      (stepInDeclarations (o.upTo limit) st t ts).toOption.map (nestedRest root below) := by
  unfold stepInDeclarations
  cases hkind : t.kind with
  | whitespace | semicolon => rfl
  | rightBrace =>
      simp only [State.nested_close fun hempty => hstays hempty hkind]
      rfl
  | atKeyword => exact stepAtRule_nested _
  | _ =>
      dsimp only
      split
      · rw [stepDeclaration_nested]
        rfl
      · split
        · exact stepRule_nested _
        · rfl

/-- What is left begins with white space, a semicolon, an at-rule or a rule, whether rules are
looked for or declarations. -/
def beginsRule : List Token -> Bool
  | [] => true
  | t :: ts =>
      match t.kind with
      | .whitespace | .semicolon | .atKeyword => true
      | .cdo | .cdc | .rightBrace => false
      | _ => (declarationAhead? (t :: ts)).isNone && ruleAhead 0 (t :: ts)

theorem beginsRule_more (h : beginsRule (t :: ts) = true) (more : List Token) :
    beginsRule (t :: (ts ++ more)) = true := by
  unfold beginsRule at h ⊢
  dsimp only at h ⊢
  cases hkind : t.kind with
  | whitespace | semicolon | atKeyword => rfl
  | cdo | cdc | rightBrace =>
      rw [hkind] at h
      cases h
  | _ =>
      simp only [hkind, Bool.and_eq_true] at h ⊢
      have hfound := aheadFound_of_ruleAhead h.2
      rw [← List.cons_append, declarationAhead?_more hfound, ruleAhead_more hfound,
        Option.isNone_map]
      exact h

theorem stepInRules_of_beginsRule (h : beginsRule (t :: ts) = true) :
    stepInRules o st o.isStrict t ts = stepInDeclarations o st t ts := by
  unfold beginsRule at h
  unfold stepInRules stepInDeclarations
  dsimp only at h
  cases hkind : t.kind with
  | whitespace | semicolon | atKeyword => rfl
  | cdo | cdc | rightBrace =>
      rw [hkind] at h
      cases h
  | _ =>
      simp only [hkind, Bool.and_eq_true, Option.isNone_iff_eq_none] at h
      simp only [h.1, h.2, if_true]

def Fits (o : Options) (root : Body) (st : State) (ts : List Token) : Prop :=
  st.frames = [] -> (∀ t ∈ ts.head?, t.kind ≠ .rightBrace) ∧
    (st.body = root ∨ (st.body = .declarations ∧ root = .rules o.isStrict ∧ beginsRule ts = true))

theorem step_nested (limit : Nat) (below : List Frame) (hfits : Fits o root st (t :: ts)) :
    (step (o.upTo (limit + below.length)) (st.nested root below) t ts).toOption =
      (step (o.upTo limit) st t ts).toOption.map (nestedRest root below) := by
  have hstays : st.frames = [] -> t.kind ≠ .rightBrace := fun hempty => (hfits hempty).1 t rfl
  have hsame : (st.nested root below).body = st.body ->
      (step (o.upTo (limit + below.length)) (st.nested root below) t ts).toOption =
        (step (o.upTo limit) st t ts).toOption.map (nestedRest root below) := by
    intro hbody
    rw [step, step, hbody]
    cases st.body with
    | rules selectors => exact stepInRules_nested hstays selectors
    | declarations => exact stepInDeclarations_nested hstays
  cases hframes : st.frames with
  | cons frame frames => exact hsame (State.nested_body (by simp [hframes]))
  | nil =>
      have hroot : (st.nested root below).body = root := by
        simp [State.nested, bodyNested, hframes]
      rcases (hfits hframes).2 with hbody | ⟨hbody, rfl, hbegins⟩
      · exact hsame (hroot.trans hbody.symm)
      · have hrules : stepInRules (o.upTo (limit + below.length))
            (st.nested (.rules o.isStrict) below) o.isStrict t ts = stepInDeclarations _ _ t ts :=
          stepInRules_of_beginsRule hbegins
        rw [step, step, hroot, hbody]
        dsimp only
        rw [hrules]
        exact stepInDeclarations_nested hstays

theorem exists_of_step_nested (limit : Nat) (below : List Frame) {next : State} {rest : List Token}
    (hfits : Fits o root st (t :: ts))
    (h : step (o.upTo (limit + below.length)) (st.nested root below) t ts = .ok (next, rest)) :
    ∃ inner, next = inner.nested root below ∧ step (o.upTo limit) st t ts = .ok (inner, rest) := by
  have hnested := step_nested limit below hfits
  rw [h] at hnested
  rcases Option.map_eq_some_iff.mp hnested.symm with ⟨⟨inner, left⟩, hinner, hfound⟩
  rcases Prod.mk.inj hfound with ⟨rfl, rfl⟩
  exact ⟨inner, rfl, eq_ok_of_toOption hinner⟩

end Nested

theorem State.Grown.body_eq {o : Options} {seen : Moment -> Prop} {root : Body} {st : State}
    (h : st.Grown o seen root) (hframes : st.frames = []) : st.body = root := by
  have hroot := h.frames
  rwa [hframes] at hroot

end Sheet
end StyleTrim
