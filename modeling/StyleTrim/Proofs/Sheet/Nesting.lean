import StyleTrim.Proofs.Sheet.Compare
import StyleTrim.Proofs.Sheet.Steps

/-!
# The limit on nesting

Every block that is entered gets its place in the tree, and a block is entered only within the
limit. So the tree under construction grows deeper just when a block is entered that lies deeper
than all before it, and a run under a limit goes as a run without one for as long as the tree stays
within the limit.
-/

namespace StyleTrim

/-!
## How deep a tree is
-/

def Head.hasBlock : Head -> Bool
  | .rule _ _ => true
  | .atRule _ _ block => block
  | .declaration _ _ _ => false

mutual

def Node.depth : Node -> Nat
  | ⟨head, children⟩ => (if head.hasBlock then 1 else 0) + Sheet.depth children

def Sheet.depth : List Node -> Nat
  | [] => 0
  | node :: nodes => max node.depth (Sheet.depth nodes)

end

namespace Sheet

theorem depth_append (nodes more : List Node) :
    Sheet.depth (nodes ++ more) = max (Sheet.depth nodes) (Sheet.depth more) := by
  induction nodes with
  | nil => rw [List.nil_append, Sheet.depth, Nat.zero_max]
  | cons node nodes ih => rw [List.cons_append, Sheet.depth, Sheet.depth, ih, Nat.max_assoc]

theorem depth_reverse (nodes : List Node) : Sheet.depth nodes.reverse = Sheet.depth nodes := by
  induction nodes with
  | nil => rfl
  | cons node nodes ih =>
      rw [List.reverse_cons, depth_append, ih, Sheet.depth, Sheet.depth, Sheet.depth, Nat.max_zero,
        Nat.max_comm]

theorem depth_of_hasBlock {head : Head} (h : head.hasBlock = true) (children : List Node) :
    Node.depth ⟨head, children⟩ = Sheet.depth children + 1 := by
  rw [Node.depth, h, if_pos rfl, Nat.add_comm]

theorem depth_declaration? {property : Bytes} {value : List Token} {node : Node}
    (h : declaration? property value = some node) : node.depth = 0 := by
  rcases declaration?_some h with ⟨text, important, rfl⟩
  rfl

/-!
## The tree under construction
-/

namespace State

def OpensBlocks (st : State) : Prop :=
  ∀ frame ∈ st.frames, frame.head.hasBlock = true

def depth (st : State) : Nat :=
  Sheet.depth (closeAll st.nodes st.frames)

theorem depth_closeAll_cons {frames : List Frame}
    (h : ∀ frame ∈ frames, frame.head.hasBlock = true) (node : Node) (nodes : List Node) :
    Sheet.depth (closeAll (node :: nodes) frames) =
      max (node.depth + frames.length) (Sheet.depth (closeAll nodes frames)) := by
  induction frames generalizing node nodes with
  | nil => rw [closeAll, closeAll, depth_reverse, depth_reverse, Sheet.depth]; rfl
  | cons frame frames ih =>
      rw [List.forall_mem_cons] at h
      rw [closeAll, closeAll, ih h.2, ih h.2, depth_of_hasBlock h.1, depth_of_hasBlock h.1,
        depth_reverse, depth_reverse, Sheet.depth, List.length_cons]
      omega

theorem OpensBlocks.length_le {st : State} (h : st.OpensBlocks) : st.frames.length ≤ st.depth := by
  rcases st with ⟨body, nodes, frames⟩
  cases frames with
  | nil => exact Nat.zero_le _
  | cons frame frames =>
      have hall : ∀ f ∈ frame :: frames, f.head.hasBlock = true := h
      rw [List.forall_mem_cons] at hall
      change frames.length + 1 ≤ Sheet.depth (closeAll (⟨frame.head, _⟩ :: frame.before) frames)
      rw [depth_closeAll_cons hall.2, depth_of_hasBlock hall.1]
      omega

theorem depth_push {st : State} (h : st.OpensBlocks) {node : Node} (hflat : node.depth = 0) :
    (st.push node).depth = st.depth := by
  have hcons := depth_closeAll_cons h node st.nodes
  rw [hflat, Nat.zero_add] at hcons
  exact hcons.trans (Nat.max_eq_right h.length_le)

theorem depth_close (st : State) : st.close.depth = st.depth := by
  rcases st with ⟨body, nodes, frames⟩
  cases frames <;> rfl

theorem OpensBlocks.close {st : State} (h : st.OpensBlocks) :
    st.close.OpensBlocks ∧ st.close.frames.length ≤ st.frames.length := by
  rcases st with ⟨body, nodes, frames⟩
  cases frames with
  | nil => exact ⟨h, Nat.le_refl _⟩
  | cons frame frames =>
      exact ⟨fun f hf => h f (List.mem_cons_of_mem _ hf), Nat.le_succ _⟩

variable {o : Options} {st st' : State} {head : Head} {body : Body}

theorem OpensBlocks.enter (h : st.OpensBlocks) (hblock : head.hasBlock = true)
    (henter : st.enter o head body = .ok st') :
    st'.OpensBlocks ∧ st'.frames.length = st.frames.length + 1 ∧
      st'.depth = max st.depth st'.frames.length := by
  unfold State.enter at henter
  split at henter
  · cases henter
  · cases henter
    refine ⟨List.forall_mem_cons.mpr ⟨hblock, h⟩, rfl, ?_⟩
    change Sheet.depth (closeAll (⟨head, []⟩ :: st.nodes) st.frames) = _
    rw [depth_closeAll_cons h, depth_of_hasBlock hblock, Sheet.depth, Nat.max_comm, depth,
      List.length_cons]
    congr 1
    omega

end State

/-!
## Steps
-/

variable {o : Options} {st st' : State} {t : Token} {ts rest : List Token}

theorem Takes.depth (htakes : Takes o st t ts st' rest) (h : st.OpensBlocks) :
    st'.OpensBlocks ∧ st'.frames.length ≤ st.frames.length + 1 ∧
      st'.depth = max st.depth st'.frames.length := by
  have hsame : st.OpensBlocks ∧ st.frames.length ≤ st.frames.length + 1 ∧
      st.depth = max st.depth st.frames.length :=
    ⟨h, Nat.le_succ _, (Nat.max_eq_left h.length_le).symm⟩
  have hpush : ∀ node : Node, node.depth = 0 -> (st.push node).OpensBlocks ∧
      st.frames.length ≤ st.frames.length + 1 ∧
        (st.push node).depth = max st.depth st.frames.length := by
    intro node hflat
    rw [State.depth_push h hflat]
    exact hsame
  cases htakes with
  | pass hskip => exact hsame
  | close hbrace hinside =>
      rcases h.close with ⟨hopens, hlength⟩
      refine ⟨hopens, Nat.le_succ_of_le hlength, ?_⟩
      rw [State.depth_close, Nat.max_eq_left (Nat.le_trans hlength h.length_le)]
  | statement hat hend => exact hpush _ rfl
  | enterAtRule hat hsplit hopen henter =>
      rcases h.enter rfl henter with ⟨hopens, hlength, hdepth⟩
      exact ⟨hopens, Nat.le_of_eq hlength, hdepth⟩
  | enterRule hkind hseek hsplit hopen henter =>
      rcases h.enter rfl henter with ⟨hopens, hlength, hdepth⟩
      exact ⟨hopens, Nat.le_of_eq hlength, hdepth⟩
  | dropRule hkind hseek hend hopen => exact hsame
  | declare hbody hkind hahead =>
      unfold stepDeclaration
      dsimp only
      split
      · rename_i node hnode
        exact hpush node (depth_declaration? hnode)
      · exact hsame
  | malformed hbody hkind hahead hrule => exact hsame

/-!
## Steps under another limit

A step under a limit is the step under any other limit that leaves room for it, followed by a look
at how many blocks are open.
-/

def Options.upTo (o : Options) (limit : Nat) : Options :=
  { o with maxDepth := limit }

variable {limit room : Nat}

def withinLimit (limit : Nat) (found : State × List Token) : Step :=
  if found.1.frames.length ≤ limit then .ok found else .error (.tooDeep limit)

theorem withinLimit_of_le (h : st.frames.length ≤ limit) (ts : List Token) :
    withinLimit limit (st, ts) = .ok (st, ts) :=
  if_pos h

theorem enter_upTo (hroom : st.frames.length < room) (head : Head) (body : Body)
    (rest : List Token) :
    (match st.enter (o.upTo limit) head body with
      | .error e => (.error e : Step)
      | .ok st' => .ok (st', rest)) =
    (match st.enter (o.upTo room) head body with
      | .error e => (.error e : Step)
      | .ok st' => .ok (st', rest)).bind (withinLimit limit) := by
  have henter : st.enter (o.upTo room) head body =
      .ok { body := body, nodes := [], frames := ⟨head, st.body, st.nodes⟩ :: st.frames } :=
    if_neg (Nat.not_lt.mpr hroom)
  rw [henter, State.enter]
  change _ = withinLimit limit (_, rest)
  by_cases hdeep : (o.upTo limit).maxDepth < st.frames.length + 1
  · rw [if_pos hdeep]
    exact (if_neg (Nat.not_le.mpr hdeep)).symm
  · rw [if_neg hdeep]
    exact (if_pos (Nat.le_of_not_lt hdeep)).symm

theorem stepAtRule_upTo (hlimit : st.frames.length ≤ limit) (hroom : st.frames.length < room)
    (name : Bytes) (ts : List Token) :
    stepAtRule (o.upTo limit) st name ts =
      (stepAtRule (o.upTo room) st name ts).bind (withinLimit limit) := by
  have hpush : ∀ (node : Node) (rest : List Token),
      withinLimit limit (st.push node, rest) = .ok (st.push node, rest) :=
    fun node rest => if_pos hlimit
  unfold stepAtRule
  dsimp only
  split
  · exact (hpush _ _).symm
  · split
    · exact (hpush _ _).symm
    · split
      · exact enter_upTo hroom _ _ _
      · exact (hpush _ _).symm

theorem stepRule_upTo (hlimit : st.frames.length ≤ limit) (hroom : st.frames.length < room)
    (selectors : Bool) (ts : List Token) :
    stepRule (o.upTo limit) st selectors ts =
      (stepRule (o.upTo room) st selectors ts).bind (withinLimit limit) := by
  have hstrict : (o.upTo limit).isStrict = (o.upTo room).isStrict := rfl
  unfold stepRule
  dsimp only
  split
  · rw [hstrict]
    split
    · rfl
    · exact (withinLimit_of_le hlimit _).symm
  · split
    · exact enter_upTo hroom _ _ _
    · exact (withinLimit_of_le hlimit _).symm

theorem step_upTo (h : st.OpensBlocks) (hlimit : st.frames.length ≤ limit)
    (hroom : st.frames.length < room) (t : Token) (ts : List Token) :
    step (o.upTo limit) st t ts = (step (o.upTo room) st t ts).bind (withinLimit limit) := by
  have hsame : ∀ rest, (.ok (st, rest) : Step) = withinLimit limit (st, rest) :=
    fun rest => (withinLimit_of_le hlimit rest).symm
  have hclose : (.ok (st.close, ts) : Step) = withinLimit limit (st.close, ts) :=
    (withinLimit_of_le (Nat.le_trans h.close.2 hlimit) ts).symm
  have hstrict : (o.upTo limit).isStrict = (o.upTo room).isStrict := rfl
  unfold step
  split
  · unfold stepInRules
    cases t.kind with
    | whitespace | cdo | cdc | semicolon => exact hsame ts
    | rightBrace =>
        dsimp only
        rw [hstrict]
        split
        · rfl
        · exact hclose
    | atKeyword => exact stepAtRule_upTo hlimit hroom _ ts
    | _ => exact stepRule_upTo hlimit hroom _ _
  · unfold stepInDeclarations
    cases t.kind with
    | whitespace | semicolon => exact hsame ts
    | rightBrace => exact hclose
    | atKeyword => exact stepAtRule_upTo hlimit hroom _ ts
    | _ =>
        dsimp only
        split
        · rename_i opening hahead
          have hframes : (stepDeclaration st opening).1.frames = st.frames := by
            unfold stepDeclaration
            dsimp only
            split <;> rfl
          have hdeclare : withinLimit limit (stepDeclaration st opening) =
              .ok (stepDeclaration st opening) :=
            if_pos (hframes ▸ hlimit)
          exact hdeclare.symm
        · split
          · exact stepRule_upTo hlimit hroom _ _
          · exact hsame _

/-!
## Runs under another limit
-/

theorem depth_le_of_run (h : st.OpensBlocks) (hrun : run o st ts = .ok st') :
    st.depth ≤ st'.depth := by
  have hend := run_induction (fun st' _ => st'.OpensBlocks ∧ st.depth ≤ st'.depth) ?_
    ⟨h, Nat.le_refl _⟩ hrun
  · exact hend.2
  · rintro st₁ t ts st₂ rest ⟨hopens, hle⟩ htakes
    rcases htakes.depth hopens with ⟨hopens', _, hdepth⟩
    exact ⟨hopens', Nat.le_trans hle (hdepth ▸ Nat.le_max_left _ _)⟩

def Limited {α : Type} (depth : α -> Nat) (limit : Nat) (under : Except SheetError α) :
    Except SheetError α -> Prop
  | .ok a => under = if depth a ≤ limit then .ok a else .error (.tooDeep limit)
  | .error _ => ∃ e, under = .error e

theorem run_upTo (h : st.OpensBlocks) (hlimit : st.depth ≤ limit)
    (hroom : st.frames.length + ts.length ≤ room) :
    Limited State.depth limit (run (o.upTo limit) st ts) (run (o.upTo room) st ts) := by
  induction hlength : ts.length using Nat.strongRecOn generalizing st ts with
  | ind length ih =>
    cases ts with
    | nil =>
        rw [run_nil, run_nil]
        exact (if_pos hlimit).symm
    | cons t ts =>
        rw [List.length_cons] at hroom hlength
        have hspace : st.frames.length < room := by omega
        have hunder := step_upTo (o := o) h (Nat.le_trans h.length_le hlimit) hspace t ts
        cases hstep : step (o.upTo room) st t ts with
        | error e =>
            rw [hstep] at hunder
            rw [run_cons_of_error hstep, run_cons_of_error hunder]
            exact ⟨e, rfl⟩
        | ok found =>
            rcases found with ⟨next, rest⟩
            rcases (step_takes hstep).depth h with ⟨hopens, hframes, hdepth⟩
            have hrest := step_length hstep
            rw [List.length_cons] at hrest
            rw [hstep] at hunder
            rw [run_cons_of_ok hstep]
            by_cases hwithin : next.frames.length ≤ limit
            · rw [run_cons_of_ok (hunder.trans (withinLimit_of_le hwithin rest))]
              exact ih rest.length (by omega) hopens (hdepth ▸ Nat.max_le.mpr ⟨hlimit, hwithin⟩)
                (by omega) rfl
            · rw [run_cons_of_error (hunder.trans (if_neg hwithin))]
              cases hrun : run (o.upTo room) next rest with
              | error e => exact ⟨_, rfl⟩
              | ok st' =>
                  -- The block that lies too deep stays in the tree to the end.
                  have hend : ¬st'.depth ≤ limit := by
                    have hmore := depth_le_of_run hopens hrun
                    have hnow := hopens.length_le
                    omega
                  exact (if_neg hend).symm

/-!
## Lenient runs

Lenient reading stops at nothing but the limit.
-/

theorem step_lenient (hlenient : o.isStrict = false) (hroom : st.frames.length < o.maxDepth)
    (t : Token) (ts : List Token) : ∃ st' rest, step o st t ts = .ok (st', rest) := by
  have henter : ∀ (head : Head) (body : Body), ∃ st', st.enter o head body = .ok st' :=
    fun head body => ⟨_, if_neg (Nat.not_lt.mpr hroom)⟩
  have hatRule : ∃ st' rest, stepAtRule o st t.value ts = .ok (st', rest) := by
    unfold stepAtRule
    dsimp only
    split
    · exact ⟨_, _, rfl⟩
    · split
      · exact ⟨_, _, rfl⟩
      · split
        · rcases henter _ _ with ⟨st', hok⟩
          rw [hok]
          exact ⟨_, _, rfl⟩
        · exact ⟨_, _, rfl⟩
  have hrule : ∀ selectors, ∃ st' rest, stepRule o st selectors (t :: ts) = .ok (st', rest) := by
    intro selectors
    unfold stepRule
    dsimp only
    split
    · rw [hlenient]
      exact ⟨_, _, rfl⟩
    · split
      · rcases henter _ _ with ⟨st', hok⟩
        rw [hok]
        exact ⟨_, _, rfl⟩
      · exact ⟨_, _, rfl⟩
  unfold step
  split
  · unfold stepInRules
    cases t.kind with
    | whitespace | cdo | cdc | semicolon => exact ⟨_, _, rfl⟩
    | rightBrace =>
        rw [hlenient, Bool.and_false]
        exact ⟨_, _, rfl⟩
    | atKeyword => exact hatRule
    | _ => exact hrule _
  · unfold stepInDeclarations
    cases t.kind with
    | whitespace | semicolon | rightBrace => exact ⟨_, _, rfl⟩
    | atKeyword => exact hatRule
    | _ =>
        dsimp only
        split
        · exact ⟨_, _, rfl⟩
        · split
          · exact hrule _
          · exact ⟨_, _, rfl⟩

theorem run_lenient (hlenient : o.isStrict = false) (h : st.OpensBlocks)
    (hroom : st.frames.length + ts.length ≤ o.maxDepth) : ∃ st', run o st ts = .ok st' := by
  induction hlength : ts.length using Nat.strongRecOn generalizing st ts with
  | ind length ih =>
    cases ts with
    | nil => exact ⟨st, run_nil o st⟩
    | cons t ts =>
        rw [List.length_cons] at hroom hlength
        have hspace : st.frames.length < o.maxDepth := by omega
        rcases step_lenient hlenient hspace t ts with ⟨next, rest, hstep⟩
        rcases (step_takes hstep).depth h with ⟨hopens, hframes, _⟩
        have hrest := step_length hstep
        rw [List.length_cons] at hrest
        rw [run_cons_of_ok hstep]
        exact ih rest.length (by omega) hopens (by omega) rfl

/-!
## Texts
-/

theorem State.OpensBlocks.start (body : Body) : State.OpensBlocks ⟨body, [], []⟩ :=
  List.forall_mem_nil _

theorem length_body_le (ts : List Token) : (Token.body ts).length ≤ ts.length :=
  (List.takeWhile_sublist _).length_le

theorem depth_of_finish {tree : Sheet} (h : finish o st = .ok tree) :
    Sheet.depth tree = st.depth := by
  unfold finish at h
  split at h
  · cases h
  · cases h
    rfl

theorem build_upTo (body : Body) (hroom : ts.length ≤ room) :
    Limited Sheet.depth limit (build (o.upTo limit) body ts) (build (o.upTo room) body ts) := by
  have hfit : 0 + (Token.body ts).length ≤ room :=
    Nat.le_trans (Nat.le_of_eq (Nat.zero_add _)) (Nat.le_trans (length_body_le ts) hroom)
  have hrun : Limited State.depth limit (run (o.upTo limit) ⟨body, [], []⟩ (Token.body ts))
      (run (o.upTo room) ⟨body, [], []⟩ (Token.body ts)) :=
    run_upTo (State.OpensBlocks.start body) (Nat.zero_le limit) hfit
  have hfinish : ∀ st, finish (o.upTo limit) st = finish (o.upTo room) st := fun _ => rfl
  unfold build
  cases hroomy : run (o.upTo room) ⟨body, [], []⟩ (Token.body ts) with
  | error e =>
      rw [hroomy] at hrun
      rcases hrun with ⟨e', hunder⟩
      rw [hunder]
      exact ⟨e', rfl⟩
  | ok st =>
      rw [hroomy] at hrun
      change _ = if st.depth ≤ limit then _ else _ at hrun
      dsimp only
      rw [hrun]
      by_cases hwithin : st.depth ≤ limit
      · rw [if_pos hwithin]
        dsimp only
        rw [hfinish]
        cases hnodes : finish (o.upTo room) st with
        | error e => exact ⟨e, rfl⟩
        | ok tree => exact (if_pos (depth_of_finish hnodes ▸ hwithin)).symm
      · rw [if_neg hwithin]
        cases hnodes : finish (o.upTo room) st with
        | error e => exact ⟨_, rfl⟩
        | ok tree => exact (if_neg (depth_of_finish hnodes ▸ hwithin)).symm

theorem parse_upTo {css : Bytes} (hroom : (Token.tokenize css).length ≤ room) :
    Limited Sheet.depth limit (parse (o.upTo limit) css) (parse (o.upTo room) css) := by
  have hbuild : Limited Sheet.depth limit
      (build (o.upTo limit) (.rules o.isStrict) (Token.tokenize css))
      (build (o.upTo room) (.rules o.isStrict) (Token.tokenize css)) :=
    build_upTo _ hroom
  have hstrict : ∀ depth, (o.upTo depth).isStrict = o.isStrict := fun _ => rfl
  unfold parse ofTokens
  rw [hstrict, hstrict]
  cases if o.isStrict then firstBad (Token.tokenize css) else none with
  | some e => exact ⟨e, rfl⟩
  | none => exact hbuild

theorem parse_upTo_of_ok {css : Bytes} {tree : Sheet} {room : Nat}
    (h : parse (o.upTo room) css = .ok tree) :
    Sheet.depth tree ≤ room ∧ Sheet.depth tree ≤ (Token.tokenize css).length ∧
      ∀ limit, parse (o.upTo limit) css =
        if Sheet.depth tree ≤ limit then .ok tree else .error (.tooDeep limit) := by
  have hlimited : ∀ limit, Limited Sheet.depth limit (parse (o.upTo limit) css)
      (parse (o.upTo (Token.tokenize css).length) css) :=
    fun limit => parse_upTo (Nat.le_refl _)
  cases hroomy : parse (o.upTo (Token.tokenize css).length) css with
  | error e =>
      simp only [hroomy] at hlimited
      rcases hlimited room with ⟨e', herror⟩
      rw [h] at herror
      cases herror
  | ok found =>
      simp only [hroomy] at hlimited
      have hwithin : ∀ {limit tree}, parse (o.upTo limit) css = .ok tree ->
          found = tree ∧ Sheet.depth found ≤ limit := by
        intro limit tree hread
        have hlimit : parse (o.upTo limit) css = _ := hlimited limit
        rw [hread] at hlimit
        split at hlimit
        · rename_i hdepth
          exact ⟨(Except.ok.inj hlimit).symm, hdepth⟩
        · cases hlimit
      obtain rfl : found = tree := (hwithin h).1
      exact ⟨(hwithin h).2, (hwithin hroomy).2, hlimited⟩

theorem parse_lenient {css : Bytes} (hlenient : o.isStrict = false)
    (hroom : (Token.tokenize css).length ≤ o.maxDepth) : ∃ tree, parse o css = .ok tree := by
  have hfit : 0 + (Token.body (Token.tokenize css)).length ≤ o.maxDepth :=
    Nat.le_trans (Nat.le_of_eq (Nat.zero_add _)) (Nat.le_trans (length_body_le _) hroom)
  rcases run_lenient hlenient (State.OpensBlocks.start (.rules o.isStrict)) hfit with ⟨st, hrun⟩
  refine ⟨State.closeAll st.nodes st.frames, ?_⟩
  rw [parse, ofTokens, hlenient]
  change build o (.rules false) _ = _
  rw [hlenient] at hrun
  rw [build, hrun]
  simp [finish, hlenient]

/-- The limit on nesting is exact. Lenient reading fails just where the tree that it gives with room
for all blocks is too deep, and then the fault is the limit. Strict reading gives the tree that it
gives with room for all blocks just where that tree is within the limit. -/
theorem nesting_limit_exact (css : Bytes) :
    (∃ tree : Sheet,
      (∀ room, (Token.tokenize css).length ≤ room ->
        parse { mode := .lenient, maxDepth := room } css = .ok tree) ∧
      ∀ limit, parse { mode := .lenient, maxDepth := limit } css =
        if Sheet.depth tree ≤ limit then .ok tree else .error (.tooDeep limit)) ∧
    ∀ room limit tree, (Token.tokenize css).length ≤ room ->
      (parse { mode := .strict, maxDepth := limit } css = .ok tree ↔
        parse { mode := .strict, maxDepth := room } css = .ok tree ∧
          Sheet.depth tree ≤ limit) := by
  constructor
  · let lenient : Options := { mode := .lenient }
    have hread : ∀ room, (Token.tokenize css).length ≤ room ->
        ∃ tree, parse (lenient.upTo room) css = .ok tree :=
      fun room hroom => parse_lenient rfl hroom
    rcases hread _ (Nat.le_refl _) with ⟨tree, htree⟩
    rcases parse_upTo_of_ok htree with ⟨_, hdepth, hlimit⟩
    refine ⟨tree, fun room hroom => ?_, hlimit⟩
    exact (hlimit room).trans (if_pos (Nat.le_trans hdepth hroom))
  · intro room limit tree hroom
    let strict : Options := { mode := .strict }
    change parse (strict.upTo limit) css = _ ↔ parse (strict.upTo room) css = _ ∧ _
    constructor
    · intro hread
      rcases parse_upTo_of_ok hread with ⟨hwithin, hdepth, hlimit⟩
      exact ⟨(hlimit room).trans (if_pos (Nat.le_trans hdepth hroom)), hwithin⟩
    · rintro ⟨hread, hwithin⟩
      rcases parse_upTo_of_ok hread with ⟨_, _, hlimit⟩
      exact (hlimit limit).trans (if_pos hwithin)

def groupText : Bytes :=
  ascii "@media x\x7ba\x7bb:c\x7d\x7d"

def groupSheet (selectors : Option SelectorList) : Sheet :=
  [⟨.atRule (ascii "media") (ascii "x") true,
    [⟨.rule (ascii "a") selectors, [⟨.declaration (ascii "b") (ascii "c") false, []⟩]⟩]⟩]

theorem nesting_limit_exact_in_group :
    (Token.tokenize groupText).length ≤ 12 ∧
      parse { mode := .strict, maxDepth := 2 } groupText =
        .ok (groupSheet (some [⟨[.element (ascii "a")], []⟩])) ∧
      parse { mode := .lenient, maxDepth := 1 } groupText = .error (.tooDeep 1) := by
  have hroom : (Token.tokenize groupText).length ≤ 12 := by decide +kernel
  rcases nesting_limit_exact groupText with ⟨⟨tree, hlenient, hlimit⟩, hstrict⟩
  refine ⟨hroom, (hstrict 12 2 _ hroom).mpr ⟨eq_ok_of_toOption (by decide +kernel), by decide⟩, ?_⟩
  have hread : parse { mode := .lenient, maxDepth := 12 } groupText = .ok (groupSheet none) :=
    eq_ok_of_toOption (by decide +kernel)
  obtain rfl : tree = groupSheet none := Except.ok.inj ((hlenient 12 hroom).symm.trans hread)
  exact (hlimit 1).trans (if_neg (by decide))

end Sheet
end StyleTrim
