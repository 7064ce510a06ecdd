import StyleTrim.Proofs.Sheet.Braces
import StyleTrim.Proofs.Sheet.Nested
import StyleTrim.Proofs.Sheet.Pieces

/-!
# The inside of a block

What stands in a block is read without a look at the blocks around it, up to the brace that closes
it. So the nodes in a block are those of its text alone, read as a list of declarations.
-/

namespace StyleTrim
namespace Sheet

open Token

/-!
## Filling a block
-/

/-- The tokens fill a block that the brace `b` closes. The steps lead from the state to another one,
with the brace in sight and still left at the end, and all open blocks are closed by then. The
states are those of the list in the block, as if there were no block around it. -/
inductive Fills (o : Options) (b : Token) : State -> List Token -> State -> Prop where
  | done {st : State} (hframes : st.frames = []) : Fills o b st [] st
  | take {st next st' : State} {t : Token} {ts rest : List Token}
      (hstays : st.frames = [] -> t.kind ≠ .rightBrace)
      (hended : Moment.isEnded ⟨st.body, t :: (ts ++ [b])⟩ = true)
      (hstep : Sheet.step o st t (ts ++ [b]) = .ok (next, rest ++ [b]))
      (htail : Fills o b next rest st') : Fills o b st (t :: ts) st'

variable {o : Options} {b : Token} {st st' : State} {ts : List Token}

theorem isEnded_unread (body : Body) (ts : List Token) :
    Moment.isEnded ⟨body.unread, ts⟩ = Moment.isEnded ⟨body, ts⟩ := by
  cases body <;> rfl

theorem step_unread_of_brace {next : State} {t : Token} {rest : List Token}
    (hb : b.kind = .rightBrace) (hended : Moment.isEnded ⟨st.body, t :: (ts ++ [b])⟩ = true)
    (hstep : step o st t (ts ++ [b]) = .ok (next, rest ++ [b])) :
    step o.leniently st.unread t ts = .ok (next.unread, rest) := by
  have hlenient := step_leniently hstep
  rw [step_brace rfl hb (by rwa [← isEnded_unread] at hended)] at hlenient
  cases hfound : step o.leniently st.unread t ts with
  | error e =>
      rw [hfound] at hlenient
      cases hlenient
  | ok found =>
      rw [hfound] at hlenient
      rcases found with ⟨found, left⟩
      rcases Prod.mk.inj (Except.ok.inj hlenient) with ⟨rfl, hleft⟩
      obtain rfl : left = rest := List.append_cancel_right hleft
      rfl

theorem Fills.run_leniently (h : Fills o b st ts st') (hb : b.kind = .rightBrace) :
    run o.leniently st.unread ts = .ok st'.unread := by
  induction h with
  | done hframes => exact run_nil _ _
  | take hstays hended hstep htail ih =>
      rw [run_cons_of_ok (step_unread_of_brace hb hended hstep)]
      exact ih

/-- The tokens that are left when a step is taken outside of all blocks. -/
def outerMoments (o : Options) (st : State) (ts : List Token) : List (List Token) :=
  match ts with
  | [] => []
  | t :: rest =>
      (if st.frames.isEmpty then [t :: rest] else []) ++
        match _h : Sheet.step o st t rest with
        | .error _ => []
        | .ok (st', rest') => outerMoments o st' rest'
termination_by ts.length
decreasing_by exact step_length (by assumption)

theorem outerMoments_cons {t : Token} {rest : List Token}
    (h : step o st t ts = .ok (st', rest)) :
    outerMoments o st (t :: ts) =
      (if st.frames.isEmpty then [t :: ts] else []) ++ outerMoments o st' rest := by
  rw [outerMoments]
  congr 1
  split
  · rename_i e herror
    rw [h] at herror
    cases herror
  · rename_i st'' rest'' hok
    rw [h] at hok
    cases hok
    rfl

theorem Fills.run_nested {limit : Nat} (h : Fills (o.upTo limit) b st ts st')
    (hgrown : st.Grown (o.upTo limit) (fun _ => True) .declarations)
    (hbegins : ∀ left ∈ outerMoments (o.upTo limit).leniently st.unread ts,
      beginsRule left = true)
    (hb : b.kind = .rightBrace) (below : List Frame) (more : List Token) :
    run (o.upTo (limit + below.length)) (st.nested (.rules o.isStrict) below) (ts ++ b :: more) =
      run (o.upTo (limit + below.length)) (st'.nested (.rules o.isStrict) below) (b :: more) := by
  induction h with
  | done hframes => rfl
  | take hstays hended hstep htail ih =>
      rename_i st next st' t ts rest
      rw [outerMoments_cons (step_unread_of_brace hb hended hstep), List.forall_mem_append]
        at hbegins
      have hmore : step (o.upTo limit) st t (ts ++ b :: more) = .ok (next, rest ++ b :: more) := by
        have hbehind : step (o.upTo limit) st t ((ts ++ [b]) ++ more) = _ := step_more hended
        rw [hstep] at hbehind
        simpa [Except.map, andMore] using hbehind
      have hfits : Fits o (.rules o.isStrict) st (t :: (ts ++ b :: more)) := by
        intro hempty
        refine ⟨by simpa using hstays hempty, Or.inr ⟨hgrown.body_eq hempty, rfl, ?_⟩⟩
        have hopen : st.unread.frames.isEmpty = true := by simp [State.unread, hempty]
        rw [hopen] at hbegins
        exact beginsRule_more (hbegins.1 _ List.mem_cons_self) _
      have hnested := step_nested limit below hfits
      rw [hmore] at hnested
      rw [List.cons_append, run_cons_of_ok (eq_ok_of_toOption hnested)]
      exact ih (hgrown.takes trivial (step_takes hstep)) hbegins.2

/-!
## Blocks that are the only one

When a text is read as one rule, its last brace closes the block of the rule. Had the block been
closed before, another one would have been opened for the last brace to close, and there would be
more than one node.
-/

def State.count (st : State) : Nat :=
  (closeAll st.nodes st.frames).length

theorem State.count_push (st : State) (node : Node) :
    (st.push node).count = st.count + if st.frames.isEmpty then 1 else 0 := by
  have hcons : ∀ (frames : List Frame) (nodes : List Node) (node : Node),
      (closeAll (node :: nodes) frames).length =
        (closeAll nodes frames).length + if frames.isEmpty then 1 else 0 := by
    intro frames
    induction frames with
    | nil => simp [closeAll]
    | cons frame frames ih =>
        intro nodes node
        rw [closeAll, closeAll, ih, ih]
        rfl
  exact hcons st.frames st.nodes node

theorem State.count_close (st : State) : st.close.count = st.count := by
  rcases st with ⟨body, nodes, frames⟩
  cases frames <;> rfl

theorem State.count_enter {head : Head} {body : Body} (h : st.enter o head body = .ok st') :
    st'.count = (st.push ⟨head, []⟩).count := by
  obtain ⟨_, rfl⟩ := State.enter_ok h
  rfl

/-- One node is there already, and the tokens end in a brace. A block that is open is one of a
second node, and so is the one that the last brace closes. -/
structure OpensSecond (o : Options) (selectors : Bool) (st : State) (ts : List Token) : Prop where
  grown : st.Grown o (fun _ => True) (.rules selectors)
  brace : EndsInBrace ts
  one : 1 ≤ st.count
  two : st.frames ≠ [] ∨ ts = [] -> 2 ≤ st.count

theorem OpensSecond.push {selectors : Bool} (h : OpensSecond o selectors st ts) (node : Node) :
    2 ≤ (st.push node).count := by
  rw [State.count_push]
  cases hframes : st.frames with
  | nil => exact Nat.succ_le_succ h.one
  | cons frame frames => exact h.two (Or.inl (by simp [hframes]))

theorem OpensSecond.counts {selectors : Bool} {t : Token} {rest : List Token}
    (hstrict : o.isStrict = true) (h : OpensSecond o selectors st (t :: ts))
    (htakes : Takes o st t ts st' rest) :
    1 ≤ st'.count ∧ (st'.frames ≠ [] ∨ rest = [] -> 2 ≤ st'.count) := by
  have hmore : ∀ {count : Nat}, 2 ≤ count ->
      1 ≤ count ∧ (st'.frames ≠ [] ∨ rest = [] -> 2 ≤ count) :=
    fun htwo => ⟨Nat.le_of_lt htwo, fun _ => htwo⟩
  cases htakes with
  | pass hskip =>
      refine ⟨h.one, fun hend => h.two (hend.imp_right ?_)⟩
      rintro rfl
      have hkind := h.brace t rfl
      rw [hkind] at hskip
      cases hbody : st.body <;> simp [hbody, Body.skips] at hskip
  | close hkind hinside =>
      have hopen : st.frames ≠ [] := by
        intro hempty
        have hlenient := hinside (by simp [h.grown.body_eq hempty]) hempty
        rw [hstrict] at hlenient
        cases hlenient
      rw [State.count_close]
      exact hmore (h.two (Or.inl hopen))
  | statement hat hend => exact hmore (h.push _)
  | enterAtRule hat hsplit hopen henter =>
      rw [State.count_enter henter]
      exact hmore (h.push _)
  | enterRule hkind hseek hsplit hopen henter =>
      rw [State.count_enter henter]
      exact hmore (h.push _)
  | dropRule hkind hseek hend hopen =>
      refine ⟨h.one, fun hleft => h.two (hleft.imp_right fun hempty => ?_)⟩
      have hlenient := hend hempty
      rw [hstrict] at hlenient
      cases hlenient
  | declare hbody hkind hahead =>
      apply hmore
      unfold stepDeclaration
      dsimp only
      split
      · exact h.push _
      · exact h.two (Or.inl (h.grown.frames_ne_nil hbody))
  | malformed hbody hkind hahead hrule =>
      exact hmore (h.two (Or.inl (h.grown.frames_ne_nil hbody)))

theorem OpensSecond.takes {selectors : Bool} {t : Token} {rest : List Token}
    (hstrict : o.isStrict = true) (h : OpensSecond o selectors st (t :: ts))
    (htakes : Takes o st t ts st' rest) : OpensSecond o selectors st' rest := by
  rcases h.counts hstrict htakes with ⟨hone, htwo⟩
  exact ⟨h.grown.takes trivial htakes, h.brace.suffix htakes.suffix, hone, htwo⟩

theorem two_le_count {selectors : Bool} (hstrict : o.isStrict = true)
    (hgrown : st.Grown o (fun _ => True) (.rules selectors)) (hbrace : EndsInBrace ts)
    (hne : ts ≠ []) (hframes : st.frames = []) (hcount : 1 ≤ st.count)
    (hrun : run o st ts = .ok st') : 2 ≤ st'.count := by
  have hstart : OpensSecond o selectors st ts :=
    ⟨hgrown, hbrace, hcount, fun hend => absurd hend (by simp [hframes, hne])⟩
  have hend := run_induction (OpensSecond o selectors) (fun h => h.takes hstrict) hstart hrun
  exact hend.two (Or.inr rfl)

theorem exists_concat_of_suffix {rest : List Token} (hne : rest ≠ []) (h : rest <:+ ts ++ [b]) :
    ∃ front, rest = front ++ [b] := by
  rcases List.eq_nil_or_concat rest with hnil | ⟨front, u, rfl⟩
  · exact absurd hnil hne
  · rcases h with ⟨before, hbefore⟩
    rw [List.concat_eq_append, ← List.append_assoc] at hbefore
    obtain rfl : u = b := by simpa using (List.append_inj' hbefore rfl).2
    exact ⟨front, List.concat_eq_append⟩

theorem frames_nested_ne_nil (st : State) (root : Body) (frame : Frame) :
    (st.nested root [frame]).frames ≠ [] := by
  intro hempty
  have hlength := framesNested_length root [frame] st.frames
  rw [show framesNested root [frame] st.frames = [] from hempty] at hlength
  simp at hlength

theorem close_nested {root : Body} {frame : Frame} {frames : List Frame} (h : st.frames = []) :
    (st.nested root (frame :: frames)).close =
      ⟨frame.body, ⟨frame.head, st.nodes.reverse⟩ :: frame.before, frames⟩ := by
  rcases st with ⟨body, nodes, inner⟩
  obtain rfl : inner = [] := h
  rfl

theorem run_close_nested {root : Body} {frame : Frame} {frames : List Frame} {t : Token}
    (hkind : t.kind = .rightBrace) (h : st.frames = []) :
    run o (st.nested root (frame :: frames)) (t :: ts) =
      run o ⟨frame.body, ⟨frame.head, st.nodes.reverse⟩ :: frame.before, frames⟩ ts := by
  rcases st with ⟨body, nodes, inner⟩
  obtain rfl : inner = [] := h
  exact run_close hkind

theorem two_le_of_closed {limit : Nat} {frame : Frame} {selectors : Bool} {final : State}
    {t : Token} (hstrict : o.isStrict = true) (hkind : t.kind = .rightBrace)
    (hempty : st.frames = [])
    (houter : (st.nested .declarations [frame]).Grown (o.upTo (limit + 1)) (fun _ => True)
      (.rules selectors))
    (hbrace : EndsInBrace ts) (hne : ts ≠ [])
    (hrun : run (o.upTo (limit + 1)) (st.nested .declarations [frame]) (t :: ts) = .ok final) :
    2 ≤ final.count := by
  have hgrown := houter.close
  rw [close_nested hempty] at hgrown
  rw [run_close_nested hkind hempty] at hrun
  exact two_le_count (show (o.upTo (limit + 1)).isStrict = true from hstrict) hgrown hbrace hne rfl
    (by simp [State.count, State.closeAll]) hrun

theorem fills_of_closed {limit : Nat} {frame : Frame} {selectors : Bool} {final : State}
    (hstrict : o.isStrict = true) (hb : b.kind = .rightBrace)
    (hinner : st.Grown (o.upTo limit) (fun _ => True) .declarations)
    (houter : (st.nested .declarations [frame]).Grown (o.upTo (limit + 1)) (fun _ => True)
      (.rules selectors))
    (hrun : run (o.upTo (limit + 1)) (st.nested .declarations [frame]) (ts ++ [b]) = .ok final)
    (hframes : final.frames = []) (hone : final.nodes.length = 1) :
    ∃ st', Fills (o.upTo limit) b st ts st' ∧
      final.nodes = ⟨frame.head, st'.nodes.reverse⟩ :: frame.before := by
  induction hlength : ts.length using Nat.strongRecOn generalizing st ts with
  | ind length ih =>
    have hbrace : EndsInBrace (ts ++ [b]) := by simpa [EndsInBrace] using hb
    cases ts with
    | nil =>
        rw [List.nil_append] at hrun
        by_cases hempty : st.frames = []
        · rw [run_close_nested hb hempty, run_nil] at hrun
          cases hrun
          exact ⟨st, .done hempty, rfl⟩
        · -- The brace closes another block, and then the one around it is left open.
          rcases run_cons_ok hrun with ⟨next, rest, hstep, hnext⟩
          rcases exists_of_step_nested limit [frame]
              (fun h => absurd h hempty) hstep with ⟨inner, rfl, hsame⟩
          obtain rfl : rest = [] := List.eq_nil_of_length_eq_zero (by simpa using step_length hsame)
          rw [run_nil] at hnext
          cases hnext
          exact absurd hframes (frames_nested_ne_nil _ _ _)
    | cons t ts =>
        rw [List.cons_append] at hrun hbrace
        by_cases hcloses : st.frames = [] ∧ t.kind = .rightBrace
        · -- The block is closed before its end, so another one has to be opened.
          have htwo := two_le_of_closed hstrict hcloses.2 hcloses.1 houter
            (hbrace.suffix (List.suffix_cons t _)) (by simp) hrun
          rw [State.count, hframes, State.closeAll, List.length_reverse, hone] at htwo
          omega
        · rcases run_cons_ok hrun with ⟨next, rest, hstep, hnext⟩
          have hstays : st.frames = [] -> t.kind ≠ .rightBrace := fun hempty hkind =>
            hcloses ⟨hempty, hkind⟩
          have hfits : Fits o .declarations st (t :: (ts ++ [b])) := fun hempty =>
            ⟨by simpa using hstays hempty, Or.inl (hinner.body_eq hempty)⟩
          have hended : Moment.isEnded ⟨st.body, t :: (ts ++ [b])⟩ = true := by
            have hall := isEnded_of_closed houter hrun hframes hbrace
            rw [moments_cons_of_ok hstep, State.nested_body hinner.body_eq] at hall
            exact hall _ List.mem_cons_self
          rcases exists_of_step_nested limit [frame] hfits hstep with
            ⟨inner, rfl, hsame⟩
          have hrest : rest ≠ [] := by
            rintro rfl
            rw [run_nil] at hnext
            cases hnext
            exact frames_nested_ne_nil _ _ _ hframes
          have hsuffix : rest <:+ (t :: ts) ++ [b] := (step_takes hsame).suffix
          rcases exists_concat_of_suffix hrest hsuffix with ⟨left, rfl⟩
          have hshorter := step_length hsame
          simp only [List.length_cons, List.length_append] at hlength hshorter
          rcases ih left.length (by omega) (hinner.takes trivial (step_takes hsame))
              (houter.takes trivial (step_takes hstep)) hnext rfl with ⟨st', hfills, hnodes⟩
          exact ⟨st', .take hstays hended hsame hfills, hnodes⟩

theorem Fills.frames (h : Fills o b st ts st') : st'.frames = [] := by
  induction h with
  | done hframes => exact hframes
  | take hstays hended hstep htail ih => exact ih

/-!
## Texts with a block
-/

/-- A word, and a block behind it. -/
def blockText (word d : Bytes) : Bytes :=
  word ++ 0x7B :: (d ++ [0x7D])

def wordAt (offset : Nat) (word : Bytes) : Token :=
  ofLexeme ⟨.ident, word, word, false⟩ offset false

def braceAt (offset : Nat) : Token :=
  ofLexeme (.verbatim .leftBrace [0x7B]) offset false

theorem streamFrom_word {word : Bytes} (hne : word ≠ []) (hletters : word.all Byte.isAlpha = true)
    (offset : Nat) (s : Bytes) :
    streamFrom offset (word ++ 0x7B :: s) =
      wordAt offset word :: braceAt (offset + word.length) ::
        streamFrom (offset + word.length + 1) s := by
  have hstart : Lexeme.StartsNamed word := by
    cases word with
    | nil => exact absurd rfl hne
    | cons b word =>
        rw [List.all_cons, Bool.and_eq_true] at hletters
        refine ⟨Lexeme.startsName_of_isNameStart (by simp [Byte.isNameStart, hletters.1]) word, ?_⟩
        rw [Bool.eq_false_iff]
        intro hcdc
        rcases Lexeme.startsCdc_cases hcdc with ⟨rest, hrest⟩
        rw [(List.cons.inj hrest).1] at hletters
        exact absurd hletters.1 (by decide)
  have hname : word.all Byte.isName = true := by
    rw [List.all_eq_true] at hletters ⊢
    intro b hb
    simp [Byte.isName, Byte.isNameStart, hletters b hb]
  have hcdc : word ≠ [0x2D, 0x2D] := by
    rintro rfl
    cases hletters
  have hstop : Lexeme.EndsName (0x7B :: s) := by
    rintro b ⟨⟩
    decide
  have hstands := stands_word (s := 0x7B :: s) hstart hname hcdc hstop (by simp)
  rw [streamFrom_of_stands offset hstands, streamFrom_punctuation _ _ rfl]
  rfl

theorem tokenize_block {word : Bytes} (hne : word ≠ []) (hletters : word.all Byte.isAlpha = true)
    (d : Bytes) :
    tokenize (blockText word d) = wordAt 0 word :: braceAt word.length ::
      (tokenize (d ++ [0x7D])).map (moved (word.length + 1)) := by
  rw [tokenize, blockText, streamFrom_word hne hletters, streamFrom_eq_map, Nat.zero_add]

theorem body_of_brace {d : Bytes} (h : EndsWithBrace (d ++ [0x7D])) :
    ∃ b, b.kind = .rightBrace ∧
      Token.body (tokenize (d ++ [0x7D])) = Token.body (tokenize d) ++ [b] := by
  rcases h with ⟨b, hlast, hkind, hstop⟩
  rcases (streamFrom_append (laid_tokenize _) hlast (by simp [isTerminator, hkind])
    (by simpa using hstop)).1 with ⟨x, c, _, hsplit, hfront⟩
  obtain ⟨rfl, _⟩ := List.append_inj' hsplit rfl
  refine ⟨b, hkind, ?_⟩
  rw [tokenize, tokenize, hfront]
  exact (List.dropLast_append_getLast? b hlast).symm

variable {word d : Bytes}

theorem body_block (hne : word ≠ []) (hletters : word.all Byte.isAlpha = true) (d : Bytes) :
    Token.body (tokenize (blockText word d)) = wordAt 0 word :: braceAt word.length ::
      (Token.body (tokenize (d ++ [0x7D]))).map (moved (word.length + 1)) := by
  rw [tokenize_block hne hletters, body_cons _ (by rintro ⟨⟩),
    body_cons _ (by rintro ⟨⟩), body_map]

theorem endsWithBrace_of_block (hne : word ≠ []) (hletters : word.all Byte.isAlpha = true)
    (h : EndsWithBrace (blockText word d)) : EndsWithBrace (d ++ [0x7D]) := by
  rcases h with ⟨t, hlast, hkind, hstop⟩
  rw [body_block hne hletters] at hlast
  cases hbody : Token.body (tokenize (d ++ [0x7D])) with
  | nil =>
      rw [hbody] at hlast
      cases hlast
      cases hkind
  | cons u us =>
      rw [hbody, List.map_cons, List.getLast?_cons_cons, List.getLast?_cons_cons, ← List.map_cons,
        List.getLast?_map, Option.map_eq_some_iff] at hlast
      rcases hlast with ⟨b, hb, rfl⟩
      refine ⟨b, by rw [hbody, hb], hkind, ?_⟩
      simp [blockText, Token.stop, moved] at hstop ⊢
      omega

def ruleFrame (selectors : Bool) (prelude : List Token) : Frame :=
  ⟨ruleHead selectors prelude, .rules selectors, []⟩

theorem step_word (o : Options) (limit : Nat) (word : Bytes) (offset offset' : Nat)
    (selectors : Bool) (rest : List Token) :
    step (o.upTo (limit + 1)) ⟨.rules selectors, [], []⟩ (wordAt offset word)
        (braceAt offset' :: rest) =
      .ok (State.nested .declarations [ruleFrame selectors [wordAt offset word]]
        ⟨.declarations, [], []⟩, rest) := by
  have hsplit : splitPrelude false 0 (wordAt offset word :: braceAt offset' :: rest) =
      ([wordAt offset word], braceAt offset' :: rest) := rfl
  have hdepth : (⟨.rules selectors, [], []⟩ : State).frames.length + 1 ≤
      (o.upTo (limit + 1)).maxDepth := Nat.le_add_left 1 limit
  have hrule : step (o.upTo (limit + 1)) ⟨.rules selectors, [], []⟩ (wordAt offset word)
      (braceAt offset' :: rest) =
        stepRule (o.upTo (limit + 1)) ⟨.rules selectors, [], []⟩ selectors
          (wordAt offset word :: braceAt offset' :: rest) := rfl
  rw [hrule, stepRule, hsplit]
  dsimp only
  rw [if_pos (show (braceAt offset').kind = .leftBrace from rfl), State.enter_of_le hdepth]
  rfl

theorem fills_of_parse {limit : Nat} {node : Node} (hstrict : o.isStrict = true) (hne : word ≠ [])
    (hletters : word.all Byte.isAlpha = true)
    (hread : parse (o.upTo (limit + 1)) (blockText word d) = .ok [node])
    (hbrace : EndsWithBrace (blockText word d)) :
    ∃ b st, b.kind = .rightBrace ∧
      Token.body (tokenize (d ++ [0x7D])) = Token.body (tokenize d) ++ [b] ∧
      Fills (o.upTo limit) b ⟨.declarations, [], []⟩ (Token.body (tokenize d)) st ∧
      node = ⟨ruleHead o.isStrict [wordAt 0 word], st.nodes.reverse⟩ := by
  rcases body_of_brace (endsWithBrace_of_block hne hletters hbrace) with ⟨b, hb, hbody⟩
  have hbuild := build_of_parse hread
  unfold build at hbuild
  split at hbuild
  · cases hbuild
  · rename_i final hrun
    have hframes : final.frames = [] := frames_of_finish hstrict hbuild
    have hnodes : final.nodes = [node] := by
      rw [finish, hframes] at hbuild
      simpa [State.closeAll] using hbuild
    have hstep := step_word o limit word 0 word.length o.isStrict
      ((Token.body (tokenize (d ++ [0x7D]))).map (moved (word.length + 1)))
    have hgrown := (State.Grown.start (o.upTo (limit + 1)) (fun _ => True)
      (.rules o.isStrict)).takes trivial (step_takes hstep)
    rw [body_block hne hletters] at hrun
    change run _ ⟨.rules o.isStrict, [], []⟩ _ = _ at hrun
    rw [run_cons_of_ok hstep, run_map, hbody] at hrun
    rcases fills_of_closed hstrict hb (State.Grown.start _ _ _) hgrown hrun hframes
        (by rw [hnodes]; rfl) with ⟨st, hfills, hfilled⟩
    rw [hnodes] at hfilled
    exact ⟨b, st, hb, hbody, hfills, (List.cons.inj hfilled).1⟩

theorem fills_of_block {node : Node} (hne : word ≠ []) (hletters : word.all Byte.isAlpha = true)
    (hread : parse {} (blockText word d) = .ok [node])
    (hbrace : EndsWithBrace (blockText word d)) :
    ∃ b st, b.kind = .rightBrace ∧
      Fills {} b ⟨.declarations, [], []⟩ (Token.body (tokenize d)) st ∧
      node = ⟨ruleHead true [wordAt 0 word], st.nodes.reverse⟩ := by
  have hlimit : ({} : Options).upTo 256 = {} := rfl
  have hdeeper : parse (({} : Options).upTo (256 + 1)) (blockText word d) = .ok [node] := by
    rw [← hlimit] at hread
    rcases parse_upTo_of_ok hread with ⟨hdepth, _, hlimited⟩
    exact (hlimited 257).trans (if_pos (Nat.le_succ_of_le hdepth))
  rcases fills_of_parse rfl hne hletters hdeeper hbrace with ⟨b, st, hb, _, hfills, hnode⟩
  exact ⟨b, st, hb, hfills, hnode⟩

theorem build_of_fills (hb : b.kind = .rightBrace)
    (h : Fills {} b ⟨.declarations, [], []⟩ (Token.body (tokenize d)) st) :
    build { mode := .lenient } .declarations (tokenize d) =
      .ok (mapHeads Head.unread st.nodes.reverse) := by
  have hrun : run { mode := .lenient } ⟨.declarations, [], []⟩ (Token.body (tokenize d)) =
      .ok st.unread := h.run_leniently hb
  have hframes : st.unread.frames = [] := by simp [State.unread, h.frames]
  rw [build, hrun]
  simp only [finish, hframes, State.closeAll]
  simp [State.unread, mapHeads_eq_map, Options.isStrict]

theorem parseDeclarations_of_fills (hb : b.kind = .rightBrace)
    (h : Fills {} b ⟨.declarations, [], []⟩ (Token.body (tokenize d)) st) :
    parseDeclarations d = mapHeads Head.unread st.nodes.reverse := by
  rw [parseDeclarations, build_of_fills hb h]

/-!
## Two ways to read a list of declarations
-/

/-- A text that is the whole block of a rule can be read alone as well, with the nodes that the rule
has. Only the selectors of nested rules are not looked for, and they are no part of what is
written. -/
theorem block_read_alone {node : Node} (hread : parse {} (blockText (ascii "a") d) = .ok [node])
    (hbrace : EndsWithBrace (blockText (ascii "a") d)) :
    build { mode := .lenient } .declarations (tokenize d) =
        .ok (mapHeads Head.unread node.children) ∧
      parseDeclarations d = mapHeads Head.unread node.children ∧
      (parseDeclarations d).map Node.write = node.children.map Node.write := by
  rcases fills_of_block (by decide) (by decide) hread hbrace with ⟨b, st, hb, hfills, hnode⟩
  have hchildren : node.children = st.nodes.reverse := by rw [hnode]
  have halone : parseDeclarations d = mapHeads Head.unread node.children := by
    rw [hchildren]
    exact parseDeclarations_of_fills hb hfills
  constructor
  · rw [hchildren]
    exact build_of_fills hb hfills
  · constructor
    · exact halone
    · rw [halone, mapHeads_eq_map, List.map_map]
      apply List.map_congr_left
      intro child _
      exact Node.write_mapHeads Head.retains_unread child

def nestedText : Bytes :=
  ascii "--x:\x7b;\x7d;b:hover\x7bc:d\x7d@media e\x7bf\x7b\x7d\x7d"

def nestedNodes (selectors : List Simple -> Option SelectorList) : List Node :=
  [⟨.declaration (ascii "--x") (ascii "\x7b;\x7d") false, []⟩,
    ⟨.rule (ascii "b:hover") (selectors [.element (ascii "b"), .pseudoClass (ascii "hover") []]),
      [⟨.declaration (ascii "c") (ascii "d") false, []⟩]⟩,
    ⟨.atRule (ascii "media") (ascii "e") true,
      [⟨.rule (ascii "f") (selectors [.element (ascii "f")]), []⟩]⟩]

theorem block_read_alone_with_nested :
    parse {} (blockText (ascii "a") nestedText) =
        .ok [⟨ruleHead true [wordAt 0 (ascii "a")], nestedNodes fun c => some [⟨c, []⟩]⟩] ∧
      parseDeclarations nestedText = nestedNodes fun _ => none := by
  have hread : parse {} (blockText (ascii "a") nestedText) =
      .ok [⟨ruleHead true [wordAt 0 (ascii "a")], nestedNodes fun c => some [⟨c, []⟩]⟩] :=
    eq_ok_of_toOption (by decide +kernel)
  have hbrace : EndsWithBrace (blockText (ascii "a") nestedText) :=
    ⟨ofLexeme (.verbatim .rightBrace [0x7D]) 35 false, by decide +kernel, rfl, rfl⟩
  constructor
  · exact hread
  · exact (block_read_alone hread hbrace).2.1

end Sheet
end StyleTrim
