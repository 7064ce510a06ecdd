import StyleTrim.Proofs.Sheet.Compare
import StyleTrim.Proofs.Sheet.Heads
import StyleTrim.Proofs.Sheet.Steps

/-!
# Strict reading and lenient reading

Lenient reading takes every text that strict reading takes, and gives the same tree without the
selectors. The two machines go through the same tokens side by side: where the strict one takes a
step, the lenient one takes the same step from the state without selectors. They part only where the
strict one stops.
-/

namespace StyleTrim
namespace Sheet

def Options.leniently (o : Options) : Options :=
  { o with mode := .lenient }

def Body.unread : Body -> Body
  | .rules _ => .rules false
  | .declarations => .declarations

def Frame.unread (frame : Frame) : Frame :=
  { head := frame.head.unread
    body := frame.body.unread
    before := mapHeads Head.unread frame.before }

def State.unread (st : State) : State :=
  { body := st.body.unread
    nodes := mapHeads Head.unread st.nodes
    frames := st.frames.map Frame.unread }

namespace State

theorem unread_push (st : State) (node : Node) :
    (st.push node).unread = st.unread.push (node.mapHeads Head.unread) := by
  rw [push, push, unread, mapHeads]
  rfl

theorem unread_close (st : State) : st.close.unread = st.unread.close := by
  rcases st with ⟨body, nodes, frames⟩
  cases frames with
  | nil => rfl
  | cons frame frames =>
      simp only [close, unread, List.map_cons, Frame.unread, Node.mapHeads,
        mapHeads_eq_map, List.map_reverse, List.map_cons]

theorem unread_enter {o : Options} {st st' : State} {head : Head} {body : Body}
    (h : st.enter o head body = .ok st') :
    st.unread.enter o.leniently head.unread body.unread = .ok st'.unread := by
  unfold enter at h ⊢
  split at h
  · cases h
  · rename_i hdepth
    cases h
    rw [if_neg (by simpa [unread, Options.leniently] using hdepth)]
    simp only [unread, mapHeads, List.map_cons]
    rfl

theorem unread_closeAll (nodes : List Node) (frames : List Frame) :
    mapHeads Head.unread (closeAll nodes frames) =
      closeAll (mapHeads Head.unread nodes) (frames.map Frame.unread) := by
  induction frames generalizing nodes with
  | nil => simp only [closeAll, List.map_nil, mapHeads_eq_map, List.map_reverse]
  | cons frame frames ih =>
      rw [closeAll, ih, List.map_cons, closeAll, mapHeads, Node.mapHeads]
      simp only [Frame.unread, mapHeads_eq_map, List.map_reverse]

end State

/-!
## The same step
-/

theorem bodyOf_leniently (o : Options) (name : Bytes) :
    bodyOf o.leniently name = (bodyOf o name).unread := by
  simp only [bodyOf, apply_ite Body.unread]
  rfl

variable {o : Options} {st st' : State} {t : Token} {ts rest : List Token}

theorem stepAtRule_leniently {name : Bytes} (h : stepAtRule o st name ts = .ok (st', rest)) :
    stepAtRule o.leniently st.unread name ts = .ok (st'.unread, rest) := by
  unfold stepAtRule at h ⊢
  dsimp only at h ⊢
  split at h
  · cases h
    rw [State.unread_push, Node.mapHeads, mapHeads]
    rfl
  · split at h
    · rename_i hsemi
      cases h
      rw [if_pos hsemi, State.unread_push, Node.mapHeads, mapHeads]
      rfl
    · rename_i hsemi
      rw [if_neg hsemi]
      split at h
      · rename_i hopen
        rw [if_pos hopen]
        split at h
        · cases h
        · rename_i henter
          cases h
          have hlenient := State.unread_enter henter
          rw [← bodyOf_leniently] at hlenient
          change st.unread.enter o.leniently (.atRule name _ true) _ = _ at hlenient
          rw [hlenient]
      · rename_i hopen
        cases h
        rw [if_neg hopen, State.unread_push, Node.mapHeads, mapHeads]
        rfl

theorem stepRule_leniently {selectors : Bool} (h : stepRule o st selectors ts = .ok (st', rest)) :
    stepRule o.leniently st.unread false ts = .ok (st'.unread, rest) := by
  unfold stepRule at h ⊢
  dsimp only at h ⊢
  split at h
  · split at h <;> cases h
    rfl
  · split at h
    · rename_i hopen
      rw [if_pos hopen]
      split at h
      · cases h
      · rename_i henter
        cases h
        have hlenient := State.unread_enter henter
        change st.unread.enter o.leniently (ruleHead false _) .declarations = _ at hlenient
        rw [hlenient]
    · rename_i hopen
      cases h
      rw [if_neg hopen]

theorem unread_declaration? {property : Bytes} {value : List Token} {node : Node}
    (h : declaration? property value = some node) : node.mapHeads Head.unread = node := by
  rcases declaration?_some h with ⟨text, important, rfl⟩
  rw [Node.mapHeads, mapHeads]
  rfl

theorem stepDeclaration_leniently (st : State) (opening : Opening) :
    stepDeclaration st.unread opening =
      ((stepDeclaration st opening).1.unread, (stepDeclaration st opening).2) := by
  unfold stepDeclaration
  dsimp only
  cases hnode : declaration? opening.property (splitValue 0 0 opening.rest).1 with
  | none => rfl
  | some node => simp only [State.unread_push, unread_declaration? hnode]

theorem stepInRules_leniently {selectors : Bool}
    (h : stepInRules o st selectors t ts = .ok (st', rest)) :
    stepInRules o.leniently st.unread false t ts = .ok (st'.unread, rest) := by
  unfold stepInRules at h ⊢
  generalize t.kind = kind at h ⊢
  cases kind with
  | whitespace | cdo | cdc | semicolon =>
      cases h
      rfl
  | rightBrace =>
      dsimp only at h ⊢
      split at h <;> cases h
      rw [if_neg (by simp [Options.leniently, Options.isStrict]), State.unread_close]
  | atKeyword => exact stepAtRule_leniently h
  | _ => exact stepRule_leniently h

theorem stepInDeclarations_leniently (h : stepInDeclarations o st t ts = .ok (st', rest)) :
    stepInDeclarations o.leniently st.unread t ts = .ok (st'.unread, rest) := by
  unfold stepInDeclarations at h ⊢
  generalize t.kind = kind at h ⊢
  cases kind with
  | whitespace | semicolon =>
      cases h
      rfl
  | rightBrace =>
      cases h
      dsimp only
      rw [State.unread_close]
  | atKeyword => exact stepAtRule_leniently h
  | _ =>
      dsimp only at h ⊢
      split at h
      · rw [stepDeclaration_leniently, Except.ok.inj h]
      · split at h
        · rename_i hrule
          rw [if_pos hrule]
          exact stepRule_leniently h
        · rename_i hrule
          cases h
          rw [if_neg hrule]

theorem step_leniently (h : step o st t ts = .ok (st', rest)) :
    step o.leniently st.unread t ts = .ok (st'.unread, rest) := by
  rcases st with ⟨body, nodes, frames⟩
  cases body with
  | rules selectors => exact stepInRules_leniently h
  | declarations => exact stepInDeclarations_leniently h

/-!
## The same run
-/

theorem run_leniently (h : run o st ts = .ok st') :
    run o.leniently st.unread ts = .ok st'.unread := by
  induction hlength : ts.length using Nat.strongRecOn generalizing st ts with
  | ind length ih =>
    cases ts with
    | nil =>
        rw [run_nil] at h ⊢
        cases h
        rfl
    | cons t ts =>
        rcases run_cons_ok h with ⟨next, rest, hstep, hrun⟩
        rw [run_cons_of_ok (step_leniently hstep)]
        exact ih rest.length (hlength ▸ step_length hstep) hrun rfl

theorem finish_leniently {sheet : Sheet} (h : finish o st = .ok sheet) :
    finish o.leniently st.unread = .ok (mapHeads Head.unread sheet) := by
  unfold finish at h
  split at h
  · cases h
  · cases h
    rw [State.unread_closeAll]
    rfl

theorem parse_leniently {css : Bytes} {sheet : Sheet} (hstrict : o.isStrict = true)
    (h : parse o css = .ok sheet) :
    parse o.leniently css = .ok (mapHeads Head.unread sheet) := by
  have hbuild := build_of_parse h
  unfold build at hbuild
  split at hbuild
  · cases hbuild
  · rename_i st hrun
    rw [hstrict] at hrun
    have hlenient := run_leniently hrun
    change build o.leniently (.rules false) _ = _
    rw [build]
    change run o.leniently ⟨.rules false, [], []⟩ _ = _ at hlenient
    rw [hlenient]
    exact finish_leniently hbuild

/-- What strict reading takes, lenient reading takes too, with the same limit on nesting. It gives
the same tree without the selectors, and so the same text. -/
theorem lenient_of_strict {depth : Nat} {css : Bytes} {sheet : Sheet}
    (h : parse { mode := .strict, maxDepth := depth } css = .ok sheet) :
    parse { mode := .lenient, maxDepth := depth } css = .ok (mapHeads Head.unread sheet) ∧
      Sheet.write (mapHeads Head.unread sheet) = Sheet.write sheet := by
  refine ⟨?_, write_mapHeads Head.retains_unread sheet⟩
  unfold parse ofTokens at h
  split at h
  · cases h
  · unfold build at h
    split at h
    · cases h
    · rename_i st hrun
      have hlenient : run { mode := .lenient, maxDepth := depth } ⟨.rules false, [], []⟩
          (Token.body (Token.tokenize css)) = .ok st.unread := run_leniently hrun
      change build _ (.rules false) _ = _
      rw [build, hlenient]
      exact finish_leniently h

def ruleText : Bytes :=
  ascii "a > b\x7bc:d\x7d"

def ruleSheet : Sheet :=
  [⟨.rule (ascii "a>b")
      (some [⟨[.element (ascii "a")], [(.child, [.element (ascii "b")])]⟩]),
    [⟨.declaration (ascii "c") (ascii "d") false, []⟩]⟩]

theorem lenient_of_strict_in_rule :
    parse { mode := .strict, maxDepth := 1 } ruleText = .ok ruleSheet ∧
      parse { mode := .lenient, maxDepth := 1 } ruleText =
        .ok (mapHeads Head.unread ruleSheet) ∧
      Sheet.write (mapHeads Head.unread ruleSheet) = Sheet.write ruleSheet := by
  have hparse : parse { mode := .strict, maxDepth := 1 } ruleText = .ok ruleSheet :=
    eq_ok_of_toOption (by decide +kernel)
  exact ⟨hparse, lenient_of_strict hparse⟩

end Sheet
end StyleTrim
