import StyleTrim.Proofs.Sheet.Turns

/-!
# Rounds of reading sheets

A list of nodes is read by a loop that takes a turn in each round. Where the turn opens a block, the
nodes of the block are read by a loop of their own, with its rounds, before the round goes on behind
the closing brace. The machine with its stack of open blocks finds the same nodes and the same
errors, so what is shown of the loops holds of every reading.
-/

namespace StyleTrim

theorem SheetError.message_ne_nil (e : SheetError) : e.message ≠ [] := by
  cases e <;> simp [SheetError.message, ascii]

namespace Sheet

open Selector

/-!
## Loops
-/

def dropBrace : List Token -> List Token
  | [] => []
  | t :: ts => if t.kind = .rightBrace then ts else t :: ts

def closeBlock (o : Options) (head : Head) :
    Except SheetError (List Node × List Token) -> Except SheetError (Node × List Token)
  | .error e => .error e
  | .ok (children, left) =>
      if left.isEmpty && o.isStrict then .error .unclosedBlock
      else .ok (⟨head, children⟩, dropBrace left)

def prepend (nodes : List Node) (r : Except SheetError (List Node × List Token)) :
    Except SheetError (List Node × List Token) :=
  r.map fun found => (nodes ++ found.1, found.2)

def gapRounds (body : Body) : List Token -> List Round
  | [] => []
  | t :: ts => if body.isGap t then ⟨.gap, t :: ts, .goesOn ts⟩ :: gapRounds body ts else []

def turnRounds (body : Body) (ts : List Token) (ending : Ending) : List Round :=
  ⟨.nodes, ts, ending⟩ :: gapRounds body ts

/-- The rounds of reading the selectors of a prelude, where they are read. -/
inductive PreludeRounds : Option (List Token) -> List Round -> Prop where
  | unread : PreludeRounds none []
  | read {prelude : List Token} {r : Except SelectorError (SelectorList × List Token)}
      {log : List Round} (h : SelectorRounds prelude r log) : PreludeRounds (some prelude) log

/-- The rounds of reading the nodes of a list with `depth` open blocks. -/
inductive NodesRounds (o : Options) : Nat -> Body -> List Token ->
    Except SheetError (List Node × List Token) -> List Round -> Prop where
  | leaves {depth : Nat} {body : Body} {ts : List Token} (hturn : turn o depth body ts = .ends) :
      NodesRounds o depth body ts (.ok ([], body.dropGap ts)) (turnRounds body ts .leaves)
  | fails {depth : Nat} {body : Body} {ts : List Token} {e : SheetError}
      (hturn : turn o depth body ts = .fails e) :
      NodesRounds o depth body ts (.error e) (turnRounds body ts (.fails e.message))
  | takes {depth : Nat} {body : Body} {ts rest : List Token} {nodes : List Node}
      {r : Except SheetError (List Node × List Token)} {more : List Round}
      (hturn : turn o depth body ts = .takes nodes rest)
      (hmore : NodesRounds o depth body rest r more) :
      NodesRounds o depth body ts (prepend nodes r) (turnRounds body ts (.goesOn rest) ++ more)
  | tooDeep {depth : Nat} {body inner : Body} {ts rest : List Token} {head : Head}
      {prelude : Option (List Token)} {log : List Round}
      (hturn : turn o depth body ts = .opens head inner prelude rest)
      (hprelude : PreludeRounds prelude log) (hlimit : o.maxDepth < depth + 1) :
      NodesRounds o depth body ts (.error (.tooDeep o.maxDepth))
        (turnRounds body ts (.fails (SheetError.tooDeep o.maxDepth).message) ++ log)
  | blockFails {depth : Nat} {body inner : Body} {ts rest : List Token} {head : Head}
      {prelude : Option (List Token)} {found : Except SheetError (List Node × List Token)}
      {e : SheetError} {log children : List Round}
      (hturn : turn o depth body ts = .opens head inner prelude rest)
      (hprelude : PreludeRounds prelude log) (hlimit : depth + 1 ≤ o.maxDepth)
      (hchildren : NodesRounds o (depth + 1) inner rest found children)
      (hclose : closeBlock o head found = .error e) :
      NodesRounds o depth body ts (.error e)
        (turnRounds body ts (.fails e.message) ++ (log ++ children))
  | block {depth : Nat} {body inner : Body} {ts rest left : List Token} {head : Head} {node : Node}
      {prelude : Option (List Token)} {found r : Except SheetError (List Node × List Token)}
      {log children more : List Round}
      (hturn : turn o depth body ts = .opens head inner prelude rest)
      (hprelude : PreludeRounds prelude log) (hlimit : depth + 1 ≤ o.maxDepth)
      (hchildren : NodesRounds o (depth + 1) inner rest found children)
      (hclose : closeBlock o head found = .ok (node, left))
      (hmore : NodesRounds o depth body left r more) :
      NodesRounds o depth body ts (prepend [node] r)
        (turnRounds body ts (.goesOn left) ++ (log ++ (children ++ more)))

/-- The rounds of reading lists of declarations outside of all blocks, where a closing brace means
nothing. -/
inductive BareRounds (o : Options) :
    List Token -> Except SheetError (List Node × List Token) -> List Round -> Prop where
  | atEnd : BareRounds o [] (.ok ([], [])) []
  | fails {ts : List Token} {e : SheetError} {log : List Round} (hne : ts ≠ [])
      (hnodes : NodesRounds o 0 .declarations ts (.error e) log) :
      BareRounds o ts (.error e) (⟨.bare, ts, .fails e.message⟩ :: log)
  | goesOn {ts left : List Token} {nodes : List Node}
      {r : Except SheetError (List Node × List Token)} {log more : List Round} (hne : ts ≠ [])
      (hnodes : NodesRounds o 0 .declarations ts (.ok (nodes, left)) log)
      (hmore : BareRounds o (dropBrace left) r more) :
      BareRounds o ts (prepend nodes r)
        (⟨.bare, ts, .goesOn (dropBrace left)⟩ :: (log ++ more))

/-- The rounds of reading tokens as a sheet. -/
inductive SheetRounds (o : Options) (ts : List Token) :
    Except SheetError (List Node × List Token) -> List Round -> Prop where
  | bad {e : SheetError} (hbad : (if o.isStrict then firstBad ts else none) = some e) :
      SheetRounds o ts (.error e) []
  | nodes {r : Except SheetError (List Node × List Token)} {log : List Round}
      (hbad : (if o.isStrict then firstBad ts else none) = none)
      (hnodes : NodesRounds o 0 (.rules o.isStrict) (Token.body ts) r log) :
      SheetRounds o ts (among ts r) log

/-- The rounds of reading tokens as a list of declarations. -/
inductive DeclarationRounds (o : Options) (ts : List Token) :
    Except SheetError (List Node × List Token) -> List Round -> Prop where
  | bare {r : Except SheetError (List Node × List Token)} {log : List Round}
      (hbare : BareRounds o (Token.body ts) r log) : DeclarationRounds o ts (among ts r) log

variable {o : Options} {depth : Nat} {body inner : Body} {ts rest left : List Token} {head : Head}
  {nodes : List Node} {prelude : Option (List Token)} {log : List Round}
  {r found : Except SheetError (List Node × List Token)}

/-!
## What is left
-/

theorem leftBehind_prepend (nodes : List Node) (r : Except SheetError (List Node × List Token)) :
    leftBehind (prepend nodes r) = leftBehind r := by
  cases r <;> rfl

theorem dropBrace_suffix (ts : List Token) : dropBrace ts <:+ ts := by
  cases ts with
  | nil => exact List.suffix_refl _
  | cons t ts =>
      rw [dropBrace]
      split
      · exact List.suffix_cons t ts
      · exact List.suffix_refl _

theorem closeBlock_suffix {node : Node} (h : closeBlock o head found = .ok (node, left)) :
    left <:+ leftBehind found := by
  rcases found with e | ⟨children, after⟩
  · cases h
  · rw [closeBlock] at h
    split at h <;> cases h
    exact dropBrace_suffix after

theorem NodesRounds.stops (h : NodesRounds o depth body ts r log) :
    ∀ t ∈ (leftBehind r).head?, t.kind = .rightBrace ∧ (depth = 0 -> body = .declarations) := by
  induction h with
  | leaves hturn => exact turn_ends hturn
  | takes _ _ ih | block _ _ _ _ _ _ _ ih => rwa [leftBehind_prepend]
  | _ => rintro t ⟨⟩

theorem NodesRounds.suffix (h : NodesRounds o depth body ts r log) : leftBehind r <:+ ts := by
  induction h with
  | leaves _ => exact List.dropWhile_suffix _
  | takes hturn _ ih =>
      rw [leftBehind_prepend]
      exact ih.trans (turn_advances hturn rfl).suffix
  | block hturn _ _ _ hclose _ ihchildren ih =>
      rw [leftBehind_prepend]
      exact ((ih.trans (closeBlock_suffix hclose)).trans ihchildren).trans
        (turn_advances hturn rfl).suffix
  | _ => exact List.nil_suffix

theorem NodesRounds.leftBehind_eq_nil {selectors : Bool}
    (h : NodesRounds o 0 (.rules selectors) ts r log) : leftBehind r = [] := by
  rw [← List.head?_eq_none_iff, Option.eq_none_iff_forall_not_mem]
  intro t ht
  have hbody := (h.stops t ht).2 rfl
  cases hbody

theorem BareRounds.leftBehind_eq_nil (h : BareRounds o ts r log) : leftBehind r = [] := by
  induction h with
  | atEnd | fails _ _ => rfl
  | goesOn _ _ _ ih => rwa [leftBehind_prepend]

theorem block_advances {node : Node} {children : List Round}
    (hturn : turn o depth body ts = .opens head inner prelude rest)
    (hchildren : NodesRounds o (depth + 1) inner rest found children)
    (hclose : closeBlock o head found = .ok (node, left)) : Advances ts left :=
  (turn_advances hturn rfl).before ((closeBlock_suffix hclose).trans hchildren.suffix)

theorem NodesRounds.bare_advances (hne : ts ≠ [])
    (h : NodesRounds o 0 .declarations ts (.ok (nodes, left)) log) :
    Advances ts (dropBrace left) := by
  have hsuffix : left <:+ ts := h.suffix
  cases left with
  | nil => exact advances_of_suffix hsuffix (List.length_pos_iff.mpr hne)
  | cons t left =>
      rw [dropBrace, if_pos (h.stops t rfl).1]
      exact (advances_cons t left).behind hsuffix

/-!
## The same nodes and the same errors
-/

theorem complete_close {frame : Frame} {frames : List Frame}
    (hleft : ∀ t ∈ (leftBehind found).head?, t.kind = .rightBrace) :
    (found.bind fun found =>
        complete o (State.pushAll ⟨inner, [], frame :: frames⟩ found.1) found.2) =
      (closeBlock o frame.head found).bind fun closed =>
        complete o ⟨frame.body, closed.1 :: frame.before, frames⟩ closed.2 := by
  rcases found with e | ⟨children, left⟩
  · rfl
  · change complete o ⟨inner, children.reverse ++ [], frame :: frames⟩ left = _
    rw [List.append_nil, closeBlock]
    cases left with
    | nil =>
        cases hstrict : o.isStrict <;>
          simp [complete_nil, finish, hstrict, dropBrace, State.closeAll, Except.bind]
    | cons t left =>
        have hbrace : t.kind = .rightBrace := hleft t rfl
        have hstep : step o ⟨inner, children.reverse, frame :: frames⟩ t left =
            .ok (⟨frame.body, ⟨frame.head, children⟩ :: frame.before, frames⟩, left) := by
          cases inner <;> simp [step, stepInRules, stepInDeclarations, hbrace, State.close]
        rw [complete_of_ok hstep, List.isEmpty_cons, Bool.false_and, dropBrace, if_pos hbrace]
        rfl

theorem bind_prepend (st : State) (nodes : List Node)
    (r : Except SheetError (List Node × List Token)) :
    ((prepend nodes r).bind fun found => complete o (st.pushAll found.1) found.2) =
      r.bind fun found => complete o ((st.pushAll nodes).pushAll found.1) found.2 := by
  cases r with
  | error e => rfl
  | ok found => exact congrArg (complete o · found.2) (st.pushAll_pushAll nodes found.1).symm

theorem NodesRounds.complete_eq (h : NodesRounds o depth body ts r log) (st : State)
    (hbody : st.body = body) (hdepth : st.frames.length = depth) :
    complete o st ts = r.bind fun found => complete o (st.pushAll found.1) found.2 := by
  induction h generalizing st with
  | leaves hturn =>
      subst hbody
      exact complete_dropGap o st _
  | fails hturn =>
      subst hbody hdepth
      rcases complete_of_turn hturn (by rintro ⟨⟩) with ⟨tail, hcomplete⟩
      exact hcomplete
  | takes hturn hmore ih =>
      subst hbody hdepth
      rcases complete_of_turn hturn (by rintro ⟨⟩) with ⟨tail, hcomplete⟩
      rw [bind_prepend, hcomplete]
      exact ih _ rfl rfl
  | tooDeep hturn hprelude hlimit =>
      subst hbody hdepth
      rcases complete_of_turn hturn (by rintro ⟨⟩) with ⟨tail, hcomplete⟩
      rw [hcomplete, Turn.act, State.enter, if_pos hlimit]
      rfl
  | blockFails hturn hprelude hlimit hchildren hclose ih =>
      subst hbody hdepth
      have hbrace := fun t ht => (hchildren.stops t ht).1
      rw [complete_of_opens hturn hlimit, ih _ rfl rfl, complete_close hbrace, hclose]
      rfl
  | block hturn hprelude hlimit hchildren hclose hmore ihchildren ih =>
      subst hbody hdepth
      have hbrace := fun t ht => (hchildren.stops t ht).1
      rw [complete_of_opens hturn hlimit, ihchildren _ rfl rfl, complete_close hbrace, hclose,
        bind_prepend]
      exact ih _ rfl rfl

theorem BareRounds.complete_eq (h : BareRounds o ts r log) (st : State)
    (hbody : st.body = .declarations) (hframes : st.frames = []) :
    complete o st ts = r.bind fun found => complete o (st.pushAll found.1) found.2 := by
  induction h generalizing st with
  | atEnd => rfl
  | fails _ hnodes => exact hnodes.complete_eq st hbody (by rw [hframes]; rfl)
  | @goesOn _ left nodes _ _ _ _ hnodes _ ih =>
      -- the brace that stops the inner loop closes nothing
      have hdrop : complete o (st.pushAll nodes) left =
          complete o (st.pushAll nodes) (dropBrace left) := by
        cases left with
        | nil => rfl
        | cons t left =>
            have hbrace := (hnodes.stops t rfl).1
            have hstep : step o (st.pushAll nodes) t left = .ok (st.pushAll nodes, left) := by
              simp [step, stepInDeclarations, State.pushAll, State.close, hbody, hframes, hbrace]
            rw [complete_of_ok hstep, dropBrace, if_pos hbrace]
      rw [hnodes.complete_eq st hbody (by rw [hframes]; rfl), bind_prepend]
      exact hdrop.trans (ih _ hbody hframes)

theorem complete_end {root : Body} (h : leftBehind r = []) :
    (r.bind fun found => complete o (State.pushAll ⟨root, [], []⟩ found.1) found.2) =
      r.map Prod.fst := by
  rcases r with e | ⟨found, left⟩
  · rfl
  · obtain rfl : left = [] := h
    change complete o ⟨root, found.reverse ++ [], []⟩ [] = .ok found
    rw [complete_nil]
    cases hstrict : o.isStrict <;> simp [finish, hstrict, State.closeAll]

/-!
## Every list of tokens has a reading
-/

theorem exists_preludeRounds (prelude : Option (List Token)) :
    ∃ log, PreludeRounds prelude log := by
  cases prelude with
  | none => exact ⟨_, .unread⟩
  | some prelude =>
      rcases exists_selectorRounds prelude with ⟨r, log, hread⟩
      exact ⟨log, .read hread⟩

theorem exists_nodesRounds (o : Options) (depth : Nat) (body : Body) (ts : List Token) :
    ∃ r log, NodesRounds o depth body ts r log := by
  induction hn : ts.length using Nat.strongRecOn generalizing depth body ts with
  | ind n ih =>
    cases hturn : turn o depth body ts with
    | ends => exact ⟨_, _, .leaves hturn⟩
    | fails e => exact ⟨_, _, .fails hturn⟩
    | takes nodes rest =>
        have hlt := (turn_advances hturn rfl).length_lt
        rcases ih rest.length (hn ▸ hlt) depth body rest rfl with ⟨r, more, hmore⟩
        exact ⟨_, _, .takes hturn hmore⟩
    | opens head inner prelude rest =>
        have hlt := (turn_advances hturn rfl).length_lt
        rcases exists_preludeRounds prelude with ⟨log, hprelude⟩
        by_cases hlimit : o.maxDepth < depth + 1
        · exact ⟨_, _, .tooDeep hturn hprelude hlimit⟩
        · rcases ih rest.length (hn ▸ hlt) (depth + 1) inner rest rfl with
            ⟨found, children, hchildren⟩
          have hlimit := Nat.not_lt.mp hlimit
          rcases hclose : closeBlock o head found with e | ⟨node, left⟩
          · exact ⟨_, _, .blockFails hturn hprelude hlimit hchildren hclose⟩
          · have hlt := (block_advances hturn hchildren hclose).length_lt
            rcases ih left.length (hn ▸ hlt) depth body left rfl with ⟨r, more, hmore⟩
            exact ⟨_, _, .block hturn hprelude hlimit hchildren hclose hmore⟩

theorem exists_bareRounds (o : Options) (ts : List Token) : ∃ r log, BareRounds o ts r log := by
  induction hn : ts.length using Nat.strongRecOn generalizing ts with
  | ind n ih =>
    by_cases hne : ts = []
    · exact hne ▸ ⟨_, _, .atEnd⟩
    · rcases exists_nodesRounds o 0 .declarations ts with ⟨e | ⟨nodes, left⟩, log, hnodes⟩
      · exact ⟨_, _, .fails hne hnodes⟩
      · have hlt := (hnodes.bare_advances hne).length_lt
        rcases ih (dropBrace left).length (hn ▸ hlt) (dropBrace left) rfl with ⟨r, more, hmore⟩
        exact ⟨_, _, .goesOn hne hnodes hmore⟩

/-!
## Every round makes progress
-/

theorem progresses_sheetError {loop : Loop} (e : SheetError) :
    Round.Progresses ⟨loop, ts, .fails e.message⟩ :=
  e.message_ne_nil

theorem gapRounds_progresses (body : Body) (ts : List Token) :
    ∀ round ∈ gapRounds body ts, round.Progresses := by
  induction ts with
  | nil => exact List.forall_mem_nil _
  | cons t ts ih =>
      rw [gapRounds]
      split
      · exact List.forall_mem_cons.mpr ⟨progresses_goesOn (advances_cons t ts), ih⟩
      · exact List.forall_mem_nil _

theorem turnRounds_progresses {ending : Ending} (h : Round.Progresses ⟨.nodes, ts, ending⟩) :
    ∀ round ∈ turnRounds body ts ending, round.Progresses :=
  List.forall_mem_cons.mpr ⟨h, gapRounds_progresses body ts⟩

theorem PreludeRounds.progresses (h : PreludeRounds prelude log) :
    ∀ round ∈ log, round.Progresses := by
  cases h with
  | unread => exact List.forall_mem_nil _
  | read hread => exact hread.progresses

theorem NodesRounds.progresses (h : NodesRounds o depth body ts r log) :
    ∀ round ∈ log, round.Progresses := by
  induction h with
  | leaves _ => exact turnRounds_progresses progresses_leaves
  | fails _ => exact turnRounds_progresses (progresses_sheetError _)
  | takes hturn _ ih =>
      have hadvances := turn_advances hturn rfl
      exact List.forall_mem_append.mpr
        ⟨turnRounds_progresses (progresses_goesOn hadvances), ih⟩
  | tooDeep _ hprelude _ =>
      exact List.forall_mem_append.mpr
        ⟨turnRounds_progresses (progresses_sheetError _), hprelude.progresses⟩
  | blockFails _ hprelude _ _ _ ih =>
      have hinside := List.forall_mem_append.mpr ⟨hprelude.progresses, ih⟩
      exact List.forall_mem_append.mpr ⟨turnRounds_progresses (progresses_sheetError _), hinside⟩
  | block hturn hprelude _ hchildren hclose _ ihchildren ih =>
      have hadvances := block_advances hturn hchildren hclose
      have hinside := List.forall_mem_append.mpr
        ⟨hprelude.progresses, List.forall_mem_append.mpr ⟨ihchildren, ih⟩⟩
      exact List.forall_mem_append.mpr
        ⟨turnRounds_progresses (progresses_goesOn hadvances), hinside⟩

theorem BareRounds.progresses (h : BareRounds o ts r log) :
    ∀ round ∈ log, round.Progresses := by
  induction h with
  | atEnd => exact List.forall_mem_nil _
  | fails _ hnodes => exact List.forall_mem_cons.mpr ⟨progresses_sheetError _, hnodes.progresses⟩
  | goesOn hne hnodes _ ih =>
      have hadvances := hnodes.bare_advances hne
      have hinside := List.forall_mem_append.mpr ⟨hnodes.progresses, ih⟩
      exact List.forall_mem_cons.mpr ⟨progresses_goesOn hadvances, hinside⟩

/-!
## The number of rounds

Four rounds are paid for with each token. The selectors of a prelude take four rounds for each of
its tokens and two more; the brace that opens the block pays for these two, for the round that takes
it and for the last round in the block.
-/

theorem gapRounds_length (body : Body) (ts : List Token) :
    (gapRounds body ts).length + (body.dropGap ts).length = ts.length := by
  induction ts with
  | nil => rfl
  | cons t ts ih =>
      rw [gapRounds, Body.dropGap, List.dropWhile_cons]
      split
      · rw [List.length_cons, List.length_cons, ← ih, Body.dropGap]
        omega
      · exact Nat.zero_add _

theorem turnRounds_length (body : Body) (ts : List Token) (ending : Ending) :
    (turnRounds body ts ending).length + (body.dropGap ts).length = ts.length + 1 := by
  rw [turnRounds, List.length_cons, ← gapRounds_length body ts]
  omega

theorem dropGap_length_le (body : Body) (ts : List Token) :
    (body.dropGap ts).length ≤ ts.length :=
  (List.dropWhile_suffix _).length_le

theorem takes_length_le (h : turn o depth body ts = .takes nodes rest) (ending : Ending) :
    (turnRounds body ts ending).length + 4 * rest.length + 3 ≤ 4 * ts.length := by
  have hlog := turnRounds_length body ts ending
  have hgap := dropGap_length_le body ts
  have hlt := (turn_advances_gap h rfl).length_lt
  omega

theorem opens_length_le (h : turn o depth body ts = .opens head inner prelude rest)
    (ending : Ending) :
    (turnRounds body ts ending).length + 4 * (prelude.getD []).length + 4 * rest.length + 3 ≤
      4 * ts.length := by
  have hlog := turnRounds_length body ts ending
  have hgap := dropGap_length_le body ts
  have hopens := turn_opens_length h
  omega

theorem PreludeRounds.length_le (h : PreludeRounds prelude log) :
    log.length ≤ 4 * (prelude.getD []).length + 2 := by
  cases h with
  | unread => exact Nat.zero_le _
  | read hread => exact hread.length_le

theorem NodesRounds.length_le (h : NodesRounds o depth body ts r log) :
    log.length + 4 * (leftBehind r).length ≤ 4 * ts.length + 1 := by
  induction h with
  | @leaves _ body ts _ =>
      have hlog := turnRounds_length body ts .leaves
      have hgap := dropGap_length_le body ts
      rw [leftBehind_ok]
      omega
  | @fails _ body ts e _ =>
      have hlog := turnRounds_length body ts (.fails e.message)
      rw [leftBehind_error, List.length_nil]
      omega
  | @takes _ _ _ rest _ _ _ hturn _ ih =>
      have hround := takes_length_le hturn (.goesOn rest)
      rw [leftBehind_prepend, List.length_append]
      omega
  | tooDeep hturn hprelude _ =>
      have hround := opens_length_le hturn (.fails (SheetError.tooDeep o.maxDepth).message)
      have hlog := hprelude.length_le
      rw [leftBehind_error, List.length_nil, List.length_append]
      omega
  | @blockFails _ _ _ _ _ _ _ _ e _ _ hturn hprelude _ _ _ ih =>
      have hround := opens_length_le hturn (.fails e.message)
      have hlog := hprelude.length_le
      rw [leftBehind_error, List.length_nil, List.length_append, List.length_append]
      omega
  | @block _ _ _ _ _ left _ _ _ _ _ _ _ _ hturn hprelude _ _ hclose _ ihchildren ih =>
      have hround := opens_length_le hturn (.goesOn left)
      have hlog := hprelude.length_le
      have hle := (closeBlock_suffix hclose).length_le
      rw [leftBehind_prepend, List.length_append, List.length_append, List.length_append]
      omega

theorem BareRounds.length_le (h : BareRounds o ts r log) :
    log.length + 4 * (leftBehind r).length ≤ 4 * ts.length + 2 := by
  induction h with
  | atEnd => exact Nat.zero_le _
  | fails _ hnodes =>
      have hlog := hnodes.length_le
      rw [leftBehind_error, List.length_nil] at hlog ⊢
      rw [List.length_cons]
      omega
  | @goesOn _ left _ _ _ _ _ hnodes hmore ih =>
      have hlog := hnodes.length_le
      rw [leftBehind_ok] at hlog
      rw [leftBehind_prepend, List.length_cons, List.length_append]
      cases left with
      | nil =>
          cases hmore with
          | atEnd =>
              rw [leftBehind_ok, List.length_nil]
              omega
          | fails hne _ => exact absurd rfl hne
          | goesOn hne _ _ => exact absurd rfl hne
      | cons t left =>
          rw [dropBrace, if_pos (hnodes.stops t rfl).1] at ih
          rw [List.length_cons] at hlog
          omega

/-!
## Reading finishes
-/

theorem concludes_sheet (o : Options) (ts : List Token) :
    Concludes ts (ofTokens o ts) (SheetRounds o ts) := by
  constructor
  · cases hbad : (if o.isStrict then firstBad ts else none) with
    | some e => exact ⟨_, _, .bad hbad⟩
    | none =>
        rcases exists_nodesRounds o 0 (.rules o.isStrict) (Token.body ts) with ⟨r, log, hnodes⟩
        exact ⟨_, _, .nodes hbad hnodes⟩
  · intro r log h
    rw [ofTokens]
    cases h with
    | bad hbad =>
        rw [hbad]
        refine ⟨rfl, List.forall_mem_nil _, Nat.zero_le _, ?_⟩
        rintro found ⟨⟩
    | nodes hbad hnodes =>
        have hlog := hnodes.length_le
        have hbody := Token.body_length_le ts
        have hend := hnodes.leftBehind_eq_nil
        rw [hbad]
        dsimp only
        rw [build_eq_complete, hnodes.complete_eq ⟨.rules o.isStrict, [], []⟩ rfl rfl,
          complete_end hend, fst_among]
        exact ⟨rfl, hnodes.progresses, by omega, examined_among hend⟩

theorem concludes_declarations (o : Options) (ts : List Token) :
    Concludes ts (build o .declarations ts) (DeclarationRounds o ts) := by
  constructor
  · rcases exists_bareRounds o (Token.body ts) with ⟨r, log, hbare⟩
    exact ⟨_, _, .bare hbare⟩
  · rintro r log ⟨hbare⟩
    have hlog := hbare.length_le
    have hbody := Token.body_length_le ts
    have hend := hbare.leftBehind_eq_nil
    rw [build_eq_complete, hbare.complete_eq ⟨.declarations, [], []⟩ rfl rfl, complete_end hend,
      fst_among]
    exact ⟨rfl, hbare.progresses, by omega, examined_among hend⟩

/-- Reading ends, for all tokens, whether they come from a text or not, in both modes and under
every limit on nesting: for a sheet, for a list of declarations and for a list of selectors. Each
round of each loop ends the loop, fails or takes tokens, all loops together take at most four rounds
for a token and two more, and what is read successfully is read to the end of the text. -/
theorem reading_finishes (o : Options) (ts : List Token) :
    Concludes ts (ofTokens o ts) (SheetRounds o ts) ∧
      Concludes ts (build o .declarations ts) (DeclarationRounds o ts) ∧
      Concludes ts (SelectorList.ofTokens ts) (SelectorRounds ts) :=
  ⟨concludes_sheet o ts, concludes_declarations o ts, concludes_selectors ts⟩

end Sheet
end StyleTrim
