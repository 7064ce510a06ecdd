import StyleTrim.Proofs.Sheet.Steps

/-!
# How a tree grows

A node of a tree was made by a step, and the step saw the tokens that were left at that moment.
`Grown` keeps both: it says of a node which tokens it was made from, how many blocks lie around
it, and the same of all nodes inside of it. It holds of every node that reading gives, whatever
the mode and the limit, so what is wanted of a tree can be proved by induction on how it grew.
-/

namespace StyleTrim
namespace Sheet

/-- A moment of a run: what the nodes of the innermost list are, and the tokens that are left. -/
structure Moment where
  body : Body
  left : List Token

/-- The moments of a run at which a step is taken. -/
def moments (o : Options) (st : State) (ts : List Token) : List Moment :=
  match ts with
  | [] => []
  | t :: rest =>
      ⟨st.body, t :: rest⟩ ::
        match _h : step o st t rest with
        | .error _ => []
        | .ok (st', rest') => moments o st' rest'
termination_by ts.length
decreasing_by exact step_length (by assumption)

theorem moments_cons_of_ok {o : Options} {st st' : State} {t : Token} {ts rest : List Token}
    (h : step o st t ts = .ok (st', rest)) :
    moments o st (t :: ts) = ⟨st.body, t :: ts⟩ :: moments o st' rest := by
  rw [moments]
  congr 1
  split
  · rename_i e herror
    rw [h] at herror
    cases herror
  · rename_i st'' rest'' hok
    rw [h] at hok
    cases hok
    rfl

/-!
## Grown nodes

The predicate `seen` says which moments there were. The number is that of the blocks around the
node.
-/

inductive Grown (o : Options) (seen : Moment -> Prop) : Nat -> Body -> Node -> Prop where
  | statement {n : Nat} {body : Body} {t : Token} {ts rest : List Token}
      (hseen : seen ⟨body, t :: ts⟩) (hat : t.kind = .atKeyword)
      (hend : EndsStatement (splitPrelude true 0 ts).2 rest) :
      Grown o seen n body
        ⟨.atRule t.value (Token.write .prelude (splitPrelude true 0 ts).1) false, []⟩
  | atRule {n : Nat} {body : Body} {t u : Token} {ts rest : List Token} {children : List Node}
      (hseen : seen ⟨body, t :: ts⟩) (hat : t.kind = .atKeyword)
      (hsplit : (splitPrelude true 0 ts).2 = u :: rest) (hopen : u.kind = .leftBrace)
      (hdepth : n + 1 ≤ o.maxDepth)
      (hchildren : ∀ child ∈ children, Grown o seen (n + 1) (bodyOf o t.value) child) :
      Grown o seen n body
        ⟨.atRule t.value (Token.write .prelude (splitPrelude true 0 ts).1) true, children⟩
  | rule {n : Nat} {body : Body} {t u : Token} {ts rest : List Token} {children : List Node}
      (hseen : seen ⟨body, t :: ts⟩) (hkind : body.opensOn t.kind)
      (hseek : body.seeksRule (t :: ts))
      (hsplit : (splitPrelude false 0 (t :: ts)).2 = u :: rest) (hopen : u.kind = .leftBrace)
      (hdepth : n + 1 ≤ o.maxDepth)
      (hchildren : ∀ child ∈ children, Grown o seen (n + 1) .declarations child) :
      Grown o seen n body
        ⟨ruleHead (body.readsSelectors o) (splitPrelude false 0 (t :: ts)).1, children⟩
  | declaration {n : Nat} {t : Token} {ts : List Token} {opening : Opening} {node : Node}
      (hseen : seen ⟨.declarations, t :: ts⟩) (hkind : Body.declarations.opensOn t.kind)
      (hahead : declarationAhead? (t :: ts) = some opening)
      (hnode : declaration? opening.property (splitValue 0 0 opening.rest).1 = some node) :
      Grown o seen n .declarations node

/-!
## Grown states

Every open block can be closed over any grown nodes, so the invariant speaks of what a frame
becomes when it is closed.
-/

def FramesGrown (o : Options) (seen : Moment -> Prop) (root : Body) : Body -> List Frame -> Prop
  | body, [] => body = root
  | body, frame :: frames =>
      (∀ children : List Node,
        (∀ child ∈ children, Grown o seen (frames.length + 1) body child) ->
          Grown o seen frames.length frame.body ⟨frame.head, children⟩) ∧
        (∀ node ∈ frame.before, Grown o seen frames.length frame.body node) ∧
        FramesGrown o seen root frame.body frames

structure State.Grown (o : Options) (seen : Moment -> Prop) (root : Body) (st : State) :
    Prop where
  nodes : ∀ node ∈ st.nodes, Sheet.Grown o seen st.frames.length st.body node
  frames : FramesGrown o seen root st.body st.frames

variable {o : Options} {seen : Moment -> Prop} {root : Body} {st st' : State}

theorem State.Grown.start (o : Options) (seen : Moment -> Prop) (root : Body) :
    State.Grown o seen root ⟨root, [], []⟩ :=
  ⟨by simp, rfl⟩

theorem State.Grown.push (h : st.Grown o seen root) {node : Node}
    (hnode : Sheet.Grown o seen st.frames.length st.body node) :
    (st.push node).Grown o seen root := by
  constructor
  · intro n hn
    rcases List.mem_cons.mp hn with rfl | hrest
    · exact hnode
    · exact h.nodes n hrest
  · exact h.frames

theorem State.Grown.close (h : st.Grown o seen root) : st.close.Grown o seen root := by
  unfold State.close
  split
  · exact h
  · rename_i frame frames hframes
    have hnodes := h.nodes
    have hall := h.frames
    rw [hframes] at hnodes hall
    obtain ⟨hclose, hbefore, hrest⟩ := hall
    constructor
    · intro n hn
      rcases List.mem_cons.mp hn with rfl | hn
      · apply hclose
        intro child hchild
        exact hnodes child (List.mem_reverse.mp hchild)
      · exact hbefore n hn
    · exact hrest

theorem State.enter_ok {head : Head} {body : Body} (h : st.enter o head body = .ok st') :
    st.frames.length + 1 ≤ o.maxDepth ∧
      st' = { body := body, nodes := [], frames := ⟨head, st.body, st.nodes⟩ :: st.frames } := by
  unfold State.enter at h
  split at h
  · cases h
  · rename_i hdepth
    cases h
    exact ⟨Nat.le_of_not_lt hdepth, rfl⟩

theorem State.Grown.enter (h : st.Grown o seen root) {head : Head} {body : Body}
    (henter : st.enter o head body = .ok st')
    (hclose : ∀ children : List Node, st.frames.length + 1 ≤ o.maxDepth ->
      (∀ child ∈ children, Sheet.Grown o seen (st.frames.length + 1) body child) ->
        Sheet.Grown o seen st.frames.length st.body ⟨head, children⟩) :
    st'.Grown o seen root := by
  obtain ⟨hdepth, rfl⟩ := State.enter_ok henter
  constructor
  · intro n hn
    cases hn
  · refine ⟨?_, h.nodes, h.frames⟩
    intro children hchildren
    exact hclose children hdepth hchildren

theorem State.Grown.declare (h : st.Grown o seen root) {t : Token} {ts : List Token}
    {opening : Opening} (hseen : seen ⟨st.body, t :: ts⟩) (hbody : st.body = .declarations)
    (hkind : st.body.opensOn t.kind) (hahead : declarationAhead? (t :: ts) = some opening) :
    (stepDeclaration st opening).1.Grown o seen root := by
  unfold stepDeclaration
  dsimp only
  split
  · rename_i node hnode
    apply h.push
    rw [hbody] at hseen hkind ⊢
    exact .declaration hseen hkind hahead hnode
  · exact h

theorem State.Grown.takes (h : st.Grown o seen root) {t : Token} {ts rest : List Token}
    (hseen : seen ⟨st.body, t :: ts⟩) (htakes : Takes o st t ts st' rest) :
    st'.Grown o seen root := by
  cases htakes with
  | pass hskip => exact h
  | close hbrace hinside => exact h.close
  | statement hat hend => exact h.push (.statement hseen hat hend)
  | enterAtRule hat hsplit hopen henter =>
      apply h.enter henter
      intro children hdepth hchildren
      exact .atRule hseen hat hsplit hopen hdepth hchildren
  | enterRule hkind hseek hsplit hopen henter =>
      apply h.enter henter
      intro children hdepth hchildren
      exact .rule hseen hkind hseek hsplit hopen hdepth hchildren
  | dropRule hkind hseek hend hopen => exact h
  | declare hbody hkind hahead => exact h.declare hseen hbody hkind hahead
  | malformed hbody hkind hahead hrule => exact h

theorem State.Grown.run {ts : List Token} (h : st.Grown o seen root)
    (hseen : ∀ moment ∈ moments o st ts, seen moment) (hrun : Sheet.run o st ts = .ok st') :
    st'.Grown o seen root := by
  induction hn : ts.length using Nat.strongRecOn generalizing st ts with
  | ind n ih =>
    cases ts with
    | nil =>
        rw [run_nil] at hrun
        cases hrun
        exact h
    | cons t ts =>
        obtain ⟨next, rest, hnext, hrest⟩ := run_cons_ok hrun
        rw [moments_cons_of_ok hnext] at hseen
        have hlt := step_length hnext
        refine ih rest.length (hn ▸ hlt) ?_ ?_ hrest rfl
        · exact h.takes (hseen _ List.mem_cons_self) (step_takes hnext)
        · intro moment hmoment
          exact hseen moment (List.mem_cons_of_mem _ hmoment)

theorem FramesGrown.closeAll {body : Body} {frames : List Frame} {nodes : List Node}
    (hframes : FramesGrown o seen root body frames)
    (hnodes : ∀ node ∈ nodes, Sheet.Grown o seen frames.length body node) :
    ∀ node ∈ State.closeAll nodes frames, Sheet.Grown o seen 0 root node := by
  induction frames generalizing body nodes with
  | nil =>
      obtain rfl : body = root := hframes
      intro node hnode
      exact hnodes node (List.mem_reverse.mp hnode)
  | cons frame frames ih =>
      obtain ⟨hclose, hbefore, hrest⟩ := hframes
      apply ih hrest
      intro node hnode
      rcases List.mem_cons.mp hnode with rfl | hnode
      · apply hclose
        intro child hchild
        exact hnodes child (List.mem_reverse.mp hchild)
      · exact hbefore node hnode

/-!
## Grown sheets
-/

/-- The moments at which the steps are taken that build a list of nodes. -/
def buildMoments (o : Options) (body : Body) (ts : List Token) : List Moment :=
  moments o ⟨body, [], []⟩ (Token.body ts)

theorem grown_of_build {body : Body} {ts : List Token} {sheet : Sheet}
    (h : build o body ts = .ok sheet) :
    ∀ node ∈ sheet, Grown o (· ∈ buildMoments o body ts) 0 body node := by
  unfold build at h
  split at h
  · cases h
  · rename_i st hrun
    have hend := (State.Grown.start o (· ∈ buildMoments o body ts) body).run
      (fun _ hmoment => hmoment) hrun
    unfold finish at h
    split at h
    · cases h
    · cases h
      exact hend.frames.closeAll hend.nodes

/-- Every node that reading a text gives has grown. -/
theorem grown_of_parse {s : Bytes} {sheet : Sheet} (h : parse o s = .ok sheet) :
    ∀ node ∈ sheet,
      Grown o (· ∈ buildMoments o (.rules o.isStrict) (Token.tokenize s)) 0
        (.rules o.isStrict) node :=
  grown_of_build (build_of_parse h)

end Sheet
end StyleTrim
