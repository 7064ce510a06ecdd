import StyleTrim.Proofs.Sheet.Heads
import StyleTrim.Proofs.Sheet.Pieces

/-!
# Reading a written tree again

A tree that has grown from sound stretches is read again from its text. The proof follows the
growth of the tree: whatever stands behind the text of a node, the text is read as tokens on which
the machine puts a node with the same head in front of the list it builds. The heads are compared
through a function `f`, because the selectors of a rule are read anew.
-/

namespace StyleTrim
namespace Sheet

open Token

/-!
## The same list in two readings
-/

/-- The kinds of one list of nodes in two readings, which may differ in mode. -/
inductive Body.Mates (o o' : Options) : Body -> Body -> Prop where
  | declarations : Body.Mates o o' .declarations .declarations
  | plain : Body.Mates o o' (.rules false) (.rules false)
  | rules : Body.Mates o o' (.rules o.isStrict) (.rules o'.isStrict)

variable {o o' : Options} {seen : Moment -> Prop} {f : Head -> Head} {n : Nat} {body body' : Body}

theorem mates_bodyOf (o o' : Options) (name : Bytes) :
    Body.Mates o o' (bodyOf o name) (bodyOf o' name) := by
  unfold bodyOf
  split
  · exact .plain
  · split
    · exact .rules
    · exact .declarations

theorem Body.Mates.opensOn (h : Body.Mates o o' body body') {kind : TokenKind}
    (hopens : body.opensOn kind) : body'.opensOn kind := by
  cases h <;> exact hopens

theorem Body.Mates.eq_declarations (h : Body.Mates o o' body body')
    (hbody : body' = .declarations) : body = .declarations := by
  cases h with
  | declarations => rfl
  | plain => cases hbody
  | rules => cases hbody

def Faithful (o o' : Options) (seen : Moment -> Prop) (f : Head -> Head) : Prop :=
  ∀ {body body' : Body} {left prelude us : List Token}, Body.Mates o o' body body' ->
    seen ⟨body, left⟩ -> Moment.stretch? ⟨body, left⟩ = some (.rule prelude) -> Lexed prelude ->
    NoSlash prelude -> Settles .selector prelude us ->
    f (ruleHead (body'.readsSelectors o') us) = f (ruleHead (body.readsSelectors o) prelude)

/-!
## What is read from the text of a node
-/

def SawBad (seen : Moment -> Prop) : Prop :=
  ∃ moment, seen moment ∧ moment.left.any Token.isBad = true

def ReadFrom (reads : Bool) (head : Head) : Prop :=
  head.isRule = true -> ∃ prelude us, Lexed prelude ∧ NoSlash prelude ∧
    separable .selector none false prelude = true ∧ Settles .selector prelude us ∧
    head = ruleHead reads us

def EndsNode (node : Node) (rest : List Token) : Prop :=
  node.head.isDeclaration = true -> EndsDeclaration rest

def after (node : Node) (rest : List Token) : List Token :=
  if node.head.isDeclaration then dropSemicolon rest else rest

structure Retold (o' : Options) (seen : Moment -> Prop) (f : Head -> Head) (n : Nat) (body' : Body)
    (node : Node) (us : List Token) (node' : Node) : Prop where
  heads : node'.mapHeads f = node.mapHeads f
  own : ReadFrom (body'.readsSelectors o') node'.head
  clean : us.any Token.isBad = true -> SawBad seen
  run : ∀ st rest, st.body = body' -> st.frames.length = n -> EndsNode node rest ->
    run o' st (us ++ rest) = run o' (st.push node') (after node rest)

def EndsText (node : Node) (tail : Bytes) : Prop :=
  node.head.isDeclaration = true -> ∃ b x, tail = b :: x ∧ (b = 0x3B ∨ b = 0x7D)

def Rereads (o' : Options) (seen : Moment -> Prop) (f : Head -> Head) (n : Nat) (body' : Body)
    (node : Node) : Prop :=
  ∀ offset tail, EndsText node tail -> ∃ us offset' node',
    streamFrom offset (node.write ++ tail) = us ++ streamFrom offset' tail ∧
      Retold o' seen f n body' node us node'

/-!
## Blocks
-/

structure BlockRetold (o' : Options) (seen : Moment -> Prop) (f : Head -> Head) (n : Nat)
    (body' : Body) (nodes : List Node) (us : List Token) (nodes' : List Node) : Prop where
  heads : Sheet.mapHeads f nodes' = Sheet.mapHeads f nodes
  clean : us.any Token.isBad = true -> SawBad seen
  brace : nodes = [] -> ∃ u more, us = u :: more ∧ u.kind = .rightBrace
  run : ∀ head b before frames built rest, frames.length = n ->
    run o' ⟨body', built, ⟨head, b, before⟩ :: frames⟩ (us ++ rest) =
      run o' ⟨b, ⟨head, built.reverse ++ nodes'⟩ :: before, frames⟩ rest

theorem after_of_ne {node : Node} {rest : List Token}
    (h : ∀ t ∈ rest.head?, t.kind ≠ .semicolon) : after node rest = rest := by
  unfold after
  split
  · cases rest with
    | nil => rfl
    | cons t rest => rw [dropSemicolon, if_neg (h t rfl)]
  · rfl

def separator (node : Node) (nodes : List Node) : Bytes :=
  if node.head.isDeclaration && !nodes.isEmpty then [0x3B] else []

/-- The tokens that are read from what is written behind a node: a declaration ends there, and a
semicolon is all that it takes along. -/
structure Separates (node : Node) (nodes : List Node) (ms : List Token) : Prop where
  clean : ms.any Token.isBad = false
  ends : ∀ rest, (nodes = [] -> ∀ t ∈ rest.head?, t.kind = .rightBrace) ->
    EndsNode node (ms ++ rest)
  after : ∀ rest, (nodes = [] -> ∀ t ∈ rest.head?, t.kind = .rightBrace) ->
    after node (ms ++ rest) = rest

theorem read_separator (node : Node) (nodes : List Node) (offset : Nat) (tail : Bytes) :
    ∃ ms offset', streamFrom offset (separator node nodes ++ tail) =
      ms ++ streamFrom offset' tail ∧ Separates node nodes ms := by
  unfold separator
  cases hdeclaration : node.head.isDeclaration with
  | false =>
      refine ⟨[], offset, rfl, rfl, ?_, ?_⟩
      · intro rest hrest hyes
        rw [hdeclaration] at hyes
        cases hyes
      · intro rest hrest
        simp [after, hdeclaration]
  | true =>
      cases nodes with
      | nil =>
          refine ⟨[], offset, rfl, rfl, ?_, ?_⟩
          · intro rest hrest _ t ht
            exact Or.inr (hrest rfl t ht)
          · intro rest hrest
            apply after_of_ne
            intro t ht
            rw [hrest rfl t ht]
            decide
      | cons next nodes =>
          refine ⟨[Token.ofLexeme (Lexeme.verbatim .semicolon [0x3B]) offset false], offset + 1,
            streamFrom_punctuation offset tail rfl, rfl, ?_, ?_⟩
          · intro rest hrest _ t ht
            obtain rfl := Option.some.inj ht
            exact Or.inl rfl
          · intro rest hrest
            simp [after, hdeclaration, dropSemicolon, Token.ofLexeme, Lexeme.verbatim]

theorem endsText_of_block (node : Node) (nodes : List Node) (tail : Bytes) :
    EndsText node (separator node nodes ++ (Node.writeBlock nodes ++ tail)) := by
  intro hdeclaration
  cases nodes with
  | nil => exact ⟨0x7D, tail, by simp [separator, Node.writeBlock], Or.inr rfl⟩
  | cons next nodes =>
      exact ⟨0x3B, Node.writeBlock (next :: nodes) ++ tail, by simp [separator, hdeclaration],
        Or.inl rfl⟩

theorem reread_block {nodes : List Node} (h : ∀ node ∈ nodes, Rereads o' seen f (n + 1) body' node)
    (offset : Nat) (tail : Bytes) :
    ∃ us offset' nodes', streamFrom offset (Node.writeBlock nodes ++ tail) =
        us ++ streamFrom offset' tail ∧ BlockRetold o' seen f n body' nodes us nodes' := by
  induction nodes generalizing offset with
  | nil =>
      refine ⟨[Token.ofLexeme (Lexeme.verbatim .rightBrace [0x7D]) offset false], offset + 1, [],
        ?_, rfl, by rintro ⟨⟩, ?_, ?_⟩
      · rw [Node.writeBlock]
        exact streamFrom_punctuation offset tail rfl
      · intro _
        exact ⟨_, [], rfl, rfl⟩
      · intro head b before frames built rest hframes
        rw [List.singleton_append, run_close rfl, List.append_nil]
  | cons node nodes ih =>
      rcases h node List.mem_cons_self offset _ (endsText_of_block node nodes tail) with
        ⟨us, next, node', hread, hnode⟩
      rcases read_separator node nodes next (Node.writeBlock nodes ++ tail) with
        ⟨ms, next', hmark, hms⟩
      rcases ih (fun child hchild => h child (List.mem_cons_of_mem _ hchild)) next' with
        ⟨vs, offset', nodes', hrest, hnodes⟩
      refine ⟨us ++ (ms ++ vs), offset', node' :: nodes', ?_, ?_, ?_, by simp, ?_⟩
      · rw [Node.writeBlock, List.append_assoc, List.append_assoc, ← separator, hread, hmark, hrest]
        simp
      · rw [Sheet.mapHeads, Sheet.mapHeads, hnode.heads, hnodes.heads]
      · intro hbad
        rw [List.any_append, List.any_append, hms.clean, Bool.false_or, Bool.or_eq_true] at hbad
        rcases hbad with hbad | hbad
        · exact hnode.clean hbad
        · exact hnodes.clean hbad
      · intro head b before frames built rest hframes
        have hbrace : nodes = [] -> ∀ t ∈ (vs ++ rest).head?, t.kind = .rightBrace := by
          intro hnil t ht
          rcases hnodes.brace hnil with ⟨u, more, rfl, hu⟩
          obtain rfl : u = t := by simpa using ht
          exact hu
        rw [List.append_assoc, List.append_assoc, hnode.run _ _ rfl (by simp [hframes])
          (hms.ends _ hbrace), hms.after _ hbrace, State.push, hnodes.run _ _ _ _ _ _ hframes]
        simp

/-!
## Stretches come from text
-/

theorem lexed_front {xs ys : List Token} (h : Lexed (xs ++ ys))
    (hcut : ∀ u ∈ ys.head?, u.kind ≠ .whitespace ∧ ¬u.isQuoted) : Lexed xs := by
  apply h.front
  intro u hu
  cases ys with
  | nil => cases hu
  | cons v ys =>
      have hv := hcut v rfl
      obtain rfl : v = u := by simpa [firstVisible, hv.1] using hu
      exact hv.2

theorem lexed_prelude {statement : Bool} {depth : Nat} {ts : List Token} (h : Lexed ts) :
    Lexed (splitPrelude statement depth ts).1 := by
  have happ := splitPrelude_append statement depth ts
  rw [← happ] at h
  apply lexed_front h
  intro u hu
  rcases List.head?_eq_some_iff.mp hu with ⟨rest, hrest⟩
  rcases splitPrelude_head_ends hrest with hkind | hkind | ⟨_, hkind⟩ <;>
    simp [isQuoted, hkind]

theorem splitValue_head_ends {depth braces : Nat} {ts : List Token} :
    EndsDeclaration (splitValue depth braces ts).2 := by
  induction ts generalizing depth braces with
  | nil => nofun
  | cons t ts ih =>
      rw [splitValue]
      split
      · rename_i hends
        intro u hu
        obtain rfl : t = u := Option.some.inj hu
        exact hends.2.2
      · exact ih

theorem bad_prelude {statement : Bool} {depth : Nat} {ts : List Token}
    (h : (splitPrelude statement depth ts).1.any Token.isBad = true) :
    ts.any Token.isBad = true := by
  rw [← splitPrelude_append statement depth ts, List.any_append, h, Bool.true_or]

theorem not_bad {t : Token} (hstring : t.kind ≠ .badString) (hurl : t.kind ≠ .badUrl) :
    t.isBad = false := by
  simp [Token.isBad, hstring, hurl]

/-!
## At-rules
-/

theorem reread_atOpening {t : Token} {ts : List Token}
    (hsound : ∀ moment, seen moment -> moment.Sound) (hseen : seen ⟨body, t :: ts⟩)
    (hat : t.kind = .atKeyword) {b : UInt8} {kind : TokenKind}
    (hmark : Lexeme.punctuation? b = some kind) (hb : b = 0x3B ∨ b = 0x7B) (tail : Bytes)
    (offset : Nat) :
    ∃ k us u offset', streamFrom offset (0x40 :: t.value ++
          ((if (Token.write .prelude (splitPrelude true 0 ts).1).isEmpty then []
            else 0x20 :: Token.write .prelude (splitPrelude true 0 ts).1) ++ b :: tail)) =
        k :: (us ++ u :: streamFrom offset' tail) ∧
      u.kind = kind ∧ AtOpening t.value (splitPrelude true 0 ts).1 k us ∧
      ((k :: (us ++ [u])).any Token.isBad = true -> SawBad seen) := by
  have hmoment := hsound _ hseen
  have hstretch := hmoment.stretch _ (stretch_of_atKeyword hat)
  simp only [Stretch.isSound, Bool.and_eq_true] at hstretch
  rcases hstretch with ⟨⟨hstart, hall⟩, hsep⟩
  rcases splitPrelude_counted true 0 ts with ⟨d, hcount⟩
  have hlexed : Lexed (splitPrelude true 0 ts).1 := lexed_prelude hmoment.lexed.tail
  rcases read_atOpening hstart hall hlexed hsep hcount hmark hb tail offset with
    ⟨k, us, u, offset', hread, hu, hopening⟩
  refine ⟨k, us, u, offset', hread, hu, hopening, ?_⟩
  intro hbad
  have hk : k.isBad = false := by
    apply not_bad <;> simp [hopening.kind]
  have hu' : u.isBad = false := by
    apply not_bad <;> rw [hu] <;> rcases hb with rfl | rfl <;> cases hmark <;> decide
  rw [List.any_cons, hk, Bool.false_or, List.any_append, List.any_cons, hu', List.any_nil,
    Bool.or_false, Bool.or_false] at hbad
  refine ⟨_, hseen, ?_⟩
  rw [List.any_cons, bad_prelude (hopening.clean hbad), Bool.or_true]

theorem rereads_statement {t : Token} {ts : List Token}
    (hsound : ∀ moment, seen moment -> moment.Sound) (hseen : seen ⟨body, t :: ts⟩)
    (hat : t.kind = .atKeyword) :
    Rereads o' seen f n body'
      ⟨.atRule t.value (Token.write .prelude (splitPrelude true 0 ts).1) false, []⟩ := by
  intro offset tail _
  rcases reread_atOpening hsound hseen hat (b := 0x3B) rfl (Or.inl rfl) tail offset with
    ⟨k, us, u, offset', hread, hu, hopening, hclean⟩
  refine ⟨k :: (us ++ [u]), offset', _, ?_, rfl, nofun, hclean, ?_⟩
  · rw [Node.write]
    simpa using hread
  · intro st rest hbody hframes _
    rw [List.cons_append, List.append_assoc, List.singleton_append,
      run_statement hopening.kind hopening.count hu, hopening.value, hopening.text]
    rfl

theorem rereads_atRule {t : Token} {ts : List Token} {children : List Node}
    (hsound : ∀ moment, seen moment -> moment.Sound) (hseen : seen ⟨body, t :: ts⟩)
    (hat : t.kind = .atKeyword) (hdepth : n + 1 ≤ o'.maxDepth)
    (hchildren : ∀ child ∈ children, Rereads o' seen f (n + 1) (bodyOf o' t.value) child) :
    Rereads o' seen f n body'
      ⟨.atRule t.value (Token.write .prelude (splitPrelude true 0 ts).1) true, children⟩ := by
  intro offset tail _
  rcases reread_atOpening hsound hseen hat (b := 0x7B) rfl (Or.inr rfl)
    (Node.writeBlock children ++ tail) offset with ⟨k, us, u, next, hread, hu, hopening, hclean⟩
  rcases reread_block hchildren next tail with ⟨vs, offset', nodes', hblock, hnodes⟩
  refine ⟨k :: (us ++ [u]) ++ vs, offset',
    ⟨.atRule t.value (Token.write .prelude (splitPrelude true 0 ts).1) true, nodes'⟩, ?_, ?_,
    nofun, ?_, ?_⟩
  · rw [Node.write]
    rw [hblock] at hread
    simpa using hread
  · rw [Node.mapHeads, Node.mapHeads, hnodes.heads]
  · intro hbad
    rw [List.any_append, Bool.or_eq_true] at hbad
    rcases hbad with hbad | hbad
    · exact hclean hbad
    · exact hnodes.clean hbad
  · intro st rest hbody hframes _
    rw [List.append_assoc, List.cons_append, List.append_assoc, List.singleton_append,
      run_enterAtRule hopening.kind hopening.count hu (by omega), hopening.value, hopening.text,
      State.inside, hnodes.run _ _ _ _ _ _ hframes]
    rfl

/-!
## Rules
-/

theorem Body.opensOn_answers {t u : Token} (h : body.opensOn t.kind) (hanswers : Answers t u) :
    body.opensOn u.kind := by
  have hkind : ∀ kind ∈ [TokenKind.whitespace, .cdo, .cdc, .semicolon, .rightBrace, .atKeyword],
      (u.kind == kind) = (t.kind == kind) := by
    intro kind hmem
    apply hanswers.kind_beq
    simp only [List.mem_cons, List.not_mem_nil, or_false] at hmem
    rcases hmem with rfl | rfl | rfl | rfl | rfl | rfl <;> decide
  rcases h with ⟨hskip, hbrace, hat⟩
  rw [← beq_eq_false_iff_ne] at hbrace hat
  refine ⟨?_, ?_, ?_⟩
  · cases body <;> simpa [Body.skips, hkind] using hskip
  · rw [← beq_eq_false_iff_ne, hkind _ (by simp), hbrace]
  · rw [← beq_eq_false_iff_ne, hkind _ (by simp), hat]

theorem settles_first {place : Place} {ts us : List Token} (h : Settles place ts us)
    (hplain : NoSlash ts) (hfirst : ∀ t ∈ ts.head?, t.kind ≠ .whitespace) :
    (ts = [] ∧ us = []) ∨ ∃ t ts' u us', ts = t :: ts' ∧ us = u :: us' ∧ Answers t u := by
  cases h with
  | intro hechoes hclosers =>
      cases hechoes with
      | nil =>
          cases hclosers
          exact Or.inl ⟨rfl, rfl⟩
      | space hspace htail => exact absurd hspace (hfirst _ rfl)
      | slash hslash htail =>
          rw [hplain _ List.mem_cons_self] at hslash
          cases hslash
      | token hspace hsilent hbetween hu hhead htail =>
          cases hbetween with
          | nothing => exact Or.inr ⟨_, _, _, _, rfl, rfl, hu, hhead⟩

theorem Body.ne_space_of_opensOn {kind : TokenKind} (h : body.opensOn kind) :
    kind ≠ .whitespace := by
  rintro rfl
  have hskip := h.1
  cases body <;> cases hskip

theorem prelude_head {statement : Bool} {depth : Nat} {t v : Token} {ts : List Token}
    (h : v ∈ (splitPrelude statement depth (t :: ts)).1.head?) : v = t := by
  rw [splitPrelude] at h
  split at h
  · cases h
  · exact (Option.some.inj h).symm

theorem seeksRule_again {t u u' : Token} {ts us rest : List Token} (rest' : List Token)
    (hmates : Body.Mates o o' body body') (hseek : body.seeksRule (t :: ts))
    (hkind : body.opensOn t.kind) (hsplit : (splitPrelude false 0 (t :: ts)).2 = u :: rest)
    (hopen : u.kind = .leftBrace) (hopen' : u'.kind = .leftBrace)
    (hplain : NoSlash (splitPrelude false 0 (t :: ts)).1)
    (hsettles : Settles .selector (splitPrelude false 0 (t :: ts)).1 us) :
    body'.seeksRule (us ++ u' :: rest') := by
  intro hbody
  rcases hseek (hmates.eq_declarations hbody) with ⟨hahead, hrule⟩
  have happ : t :: ts = (splitPrelude false 0 (t :: ts)).1 ++ u :: rest := by
    rw [← hsplit, splitPrelude_append]
  rcases splitPrelude_counted false 0 (t :: ts) with ⟨d, hcount⟩
  have hfirst : ∀ v ∈ (splitPrelude false 0 (t :: ts)).1.head?, v.kind ≠ .whitespace := by
    intro v hv
    rw [prelude_head hv]
    exact Body.ne_space_of_opensOn hkind
  generalize (splitPrelude false 0 (t :: ts)).1 = prelude at happ hcount hfirst hplain hsettles
  rw [declarationAhead?_eq_none hrule, happ] at hahead
  rw [happ] at hrule
  have hrule' : ruleAhead 0 (us ++ u' :: rest') = true :=
    ruleAhead_settles rest' hsettles hcount hopen' hrule
  refine ⟨?_, hrule'⟩
  rw [declarationAhead?_eq_none hrule', opening?_settles rest rest' hsettles hplain hfirst hopen
    hopen']
  exact hahead

theorem opens_again {t u' : Token} {ts us : List Token} (hkind : body.opensOn t.kind)
    (hplain : NoSlash (splitPrelude false 0 (t :: ts)).1)
    (hsettles : Settles .selector (splitPrelude false 0 (t :: ts)).1 us)
    (hopen' : u'.kind = .leftBrace) (rest' : List Token) :
    ∃ v y, us ++ u' :: rest' = v :: y ∧ body.opensOn v.kind := by
  have hhead : ∀ v ∈ (splitPrelude false 0 (t :: ts)).1.head?, v = t := fun v hv => prelude_head hv
  generalize (splitPrelude false 0 (t :: ts)).1 = prelude at hhead hplain hsettles
  have hfirst : ∀ v ∈ prelude.head?, v.kind ≠ .whitespace := by
    intro v hv
    rw [hhead v hv]
    exact Body.ne_space_of_opensOn hkind
  rcases settles_first hsettles hplain hfirst with ⟨_, rfl⟩ | ⟨v, _, u, us, rfl, rfl, hanswers⟩
  · refine ⟨u', rest', rfl, ?_⟩
    rw [hopen']
    cases body <;> exact ⟨rfl, nofun, nofun⟩
  · obtain rfl := hhead v rfl
    exact ⟨u, us ++ u' :: rest', rfl, Body.opensOn_answers hkind hanswers⟩

theorem rereads_rule {t u : Token} {ts rest : List Token} {children : List Node}
    (hsound : ∀ moment, seen moment -> moment.Sound) (hf : Faithful o o' seen f)
    (hmates : Body.Mates o o' body body') (hseen : seen ⟨body, t :: ts⟩)
    (hkind : body.opensOn t.kind) (hseek : body.seeksRule (t :: ts))
    (hsplit : (splitPrelude false 0 (t :: ts)).2 = u :: rest) (hopen : u.kind = .leftBrace)
    (hdepth : n + 1 ≤ o'.maxDepth)
    (hchildren : ∀ child ∈ children, Rereads o' seen f (n + 1) .declarations child) :
    Rereads o' seen f n body'
      ⟨ruleHead (body.readsSelectors o) (splitPrelude false 0 (t :: ts)).1, children⟩ := by
  intro offset tail _
  have hmoment := hsound _ hseen
  have hstretch := stretch_of_rule hkind hseek hsplit hopen
  rcases sound_rule (hmoment.stretch _ hstretch) with ⟨hplain, hsep⟩
  have hlexed : Lexed (splitPrelude false 0 (t :: ts)).1 := lexed_prelude hmoment.lexed
  rcases splitPrelude_counted false 0 (t :: ts) with ⟨d, hcount⟩
  have hends : EndsRun (0x7B :: (Node.writeBlock children ++ tail)) :=
    endsRun_cons (by decide) (by decide) (by decide) _
  rcases read_write hlexed hsep hends offset with ⟨us, next, hread, hsettles⟩
  rcases reread_block hchildren (next + 1) tail with ⟨vs, offset', nodes', hblock, hnodes⟩
  have hmark := streamFrom_punctuation (b := 0x7B) next (Node.writeBlock children ++ tail) rfl
  have hopen' : (Token.ofLexeme (Lexeme.verbatim .leftBrace [0x7B]) next false).kind =
    .leftBrace := rfl
  refine ⟨us ++ (Token.ofLexeme (Lexeme.verbatim .leftBrace [0x7B]) next false :: vs), offset',
    ⟨ruleHead (body'.readsSelectors o') us, nodes'⟩, ?_, ?_, ?_, ?_, ?_⟩
  · rw [hmark, hblock] at hread
    rw [ruleHead, Node.write]
    simpa using hread
  · rw [Node.mapHeads, Node.mapHeads, hnodes.heads, hf hmates hseen hstretch hlexed hplain
      hsettles]
  · intro _
    exact ⟨_, us, hlexed, hplain, hsep, hsettles, rfl⟩
  · intro hbad
    rw [List.any_append, List.any_cons, Bool.or_eq_true] at hbad
    rcases hbad with hbad | hbad
    · exact ⟨_, hseen, bad_prelude (bad_of_settles hsettles hbad)⟩
    · exact hnodes.clean hbad
  · intro st more hbody hframes _
    subst hbody
    have hseek' := seeksRule_again (vs ++ more) hmates hseek hkind hsplit hopen hopen' hplain
      hsettles
    have hcount' := preludeAfter_settles hsettles hcount
    rcases opens_again hkind hplain hsettles hopen' (vs ++ more) with ⟨v, y, hfront, hv⟩
    rw [List.append_assoc, List.cons_append,
      run_enterRule hfront (hmates.opensOn hv) hseek' hcount' rfl (by omega), State.inside,
      hnodes.run _ _ _ _ _ _ hframes]
    rfl

/-!
## Declarations
-/

def keptValue (value : List Token) : List Token :=
  (dropImportant? value).getD value

theorem declaration?_eq {property : Bytes} {value : List Token}
    (h : value.any Token.isBad = false) :
    declaration? property value =
      some ⟨.declaration property (Token.write .value (keptValue value))
        (dropImportant? value).isSome, []⟩ := by
  rw [declaration?, if_neg (by simp [h]), keptValue]
  cases dropImportant? value <;> rfl

theorem keptValue_split (value : List Token) :
    ∃ more, value = keptValue value ++ more ∧ ∀ t ∈ more.head?, t.isDelim 0x21 = true := by
  unfold keptValue
  cases himportant : dropImportant? value with
  | none => exact ⟨[], by simp, nofun⟩
  | some rest =>
      rcases dropImportant?_some himportant with ⟨bang, gap, hvalue, hbang⟩
      refine ⟨bang :: gap, hvalue, ?_⟩
      intro t ht
      obtain rfl : bang = t := Option.some.inj ht
      exact hbang

theorem foldl_valueAfter_front {xs ys : List Token} {depths : Option (Nat × Nat)} {d : Nat × Nat}
    (h : (xs ++ ys).foldl valueAfter depths = some d) :
    ∃ d', xs.foldl valueAfter depths = some d' := by
  rw [List.foldl_append] at h
  cases hfold : xs.foldl valueAfter depths with
  | none =>
      rw [hfold, foldl_valueAfter_none] at h
      cases h
  | some d' => exact ⟨d', rfl⟩

theorem lexed_keptValue {ts : List Token} (h : Lexed ts) :
    Lexed (keptValue (splitValue 0 0 ts).1) := by
  rcases keptValue_split (splitValue 0 0 ts).1 with ⟨more, hmore, hbang⟩
  have happ := splitValue_append 0 0 ts
  rw [hmore, List.append_assoc] at happ
  rw [← happ] at h
  apply lexed_front h
  intro t ht
  cases more with
  | nil => rcases splitValue_head_ends t ht with hkind | hkind <;> simp [isQuoted, hkind]
  | cons bang more =>
      obtain rfl : bang = t := Option.some.inj ht
      have hdelim := hbang bang rfl
      simp only [Token.isDelim, Bool.and_eq_true, beq_iff_eq] at hdelim
      simp [isQuoted, hdelim.1]

structure Marks (important : Bool) (ms : List Token) : Prop where
  plain : ∀ m ∈ ms, isPlain m
  clean : ms.any Token.isBad = false
  value : ∀ us, (important = false -> dropImportant? us = none) ->
    dropImportant? (us ++ ms) = (if important then some us else none) ∧
      keptValue (us ++ ms) = us

theorem read_marks (important : Bool) {tail : Bytes}
    (htail : ∃ b x, tail = b :: x ∧ (b = 0x3B ∨ b = 0x7D)) (offset : Nat) :
    ∃ ms offset', streamFrom offset ((if important then ascii "!important" else []) ++ tail) =
      ms ++ streamFrom offset' tail ∧ Marks important ms := by
  cases important with
  | false =>
      refine ⟨[], offset, rfl, nofun, rfl, ?_⟩
      intro us hnone
      rw [keptValue, List.append_nil, hnone rfl]
      exact ⟨rfl, rfl⟩
  | true =>
      rcases htail with ⟨b, x, rfl, hb⟩
      rcases read_important hb x offset with ⟨bang, word, offset', hread, hbang, hword, hvalue⟩
      have hkind : bang.kind = .delim := by
        simp only [Token.isDelim, Bool.and_eq_true, beq_iff_eq] at hbang
        exact hbang.1
      refine ⟨[bang, word], offset', hread, ?_, ?_, ?_⟩
      · intro m hm
        rcases List.mem_cons.mp hm with rfl | hm
        · exact Or.inr (Or.inr (Or.inr hkind))
        · rw [List.mem_singleton.mp hm]
          exact Or.inr (Or.inl hword)
      · simp [Token.isBad, hkind, hword]
      · intro us _
        rw [keptValue, dropImportant?_mark us hbang hword hvalue]
        exact ⟨rfl, rfl⟩

theorem endsRun_marks (important : Bool) {tail : Bytes}
    (htail : ∃ b x, tail = b :: x ∧ (b = 0x3B ∨ b = 0x7D)) :
    EndsRun ((if important then ascii "!important" else []) ++ tail) := by
  cases important with
  | false =>
      rcases htail with ⟨b, x, rfl, hb⟩
      rcases hb with rfl | rfl
      · exact endsRun_cons (by decide) (by decide) (by decide) x
      · exact endsRun_cons (by decide) (by decide) (by decide) x
  | true => exact endsRun_important tail

theorem opening?_of_declarationAhead? {ts : List Token} {opening : Opening}
    (h : declarationAhead? ts = some opening) :
    opening? ts = some opening ∧
      ((ascii "--").isPrefixOf opening.name = true ∨ ruleAhead 0 ts = false) := by
  rw [declarationAhead?] at h
  split at h
  · cases h
  · rename_i found hfound
    split at h
    · rename_i hahead
      cases h
      exact ⟨hfound, by simpa using hahead⟩
    · cases h

theorem Opening.Stands.plain {opening : Opening} {star gap : List Token} {name colon : Token}
    (h : opening.Stands star name gap colon) :
    ∀ t ∈ star ++ name :: (gap ++ [colon]), isPlain t := by
  intro t ht
  simp only [List.mem_append, List.mem_cons, List.not_mem_nil, or_false] at ht
  rcases ht with hstar | rfl | hgap | rfl
  · rcases h.front with rfl | ⟨s, rfl, hs⟩
    · cases hstar
    · rw [List.mem_singleton.mp hstar]
      simp only [Token.isDelim, Bool.and_eq_true, beq_iff_eq] at hs
      exact Or.inr (Or.inr (Or.inr hs.1))
  · exact Or.inr (Or.inl h.ident)
  · exact Or.inl (h.spaces t hgap)
  · exact Or.inr (Or.inr (Or.inl h.ends))

theorem sound_keptValue {t : Token} {ts : List Token} {opening : Opening}
    (hsound : ∀ moment, seen moment -> moment.Sound) (hseen : seen ⟨.declarations, t :: ts⟩)
    (hkind : Body.declarations.opensOn t.kind)
    (hahead : declarationAhead? (t :: ts) = some opening)
    (hgood : (splitValue 0 0 opening.rest).1.any Token.isBad = false) :
    Lexed (keptValue (splitValue 0 0 opening.rest).1) ∧
      separable .value none false (keptValue (splitValue 0 0 opening.rest).1) = true ∧
      bracesAgree (keptValue (splitValue 0 0 opening.rest).1) = true ∧
      marksAgree (keptValue (splitValue 0 0 opening.rest).1) = true := by
  have hmoment := hsound _ hseen
  constructor
  · rcases declarationAhead?_suffix hahead with ⟨front, hfront⟩
    have hlexed := hmoment.lexed
    rw [← hfront] at hlexed
    exact lexed_keptValue hlexed.suffix
  · have hstretch : Moment.stretch? ⟨.declarations, t :: ts⟩ =
        some (.declaration (keptValue (splitValue 0 0 opening.rest).1)) := by
      rw [stretch_of_declaration hkind hahead, declarationStretch?]
      simp [hgood, keptValue]
    simpa [Stretch.isSound, and_assoc] using hmoment.stretch _ hstretch

theorem ruleAhead_again {t : Token} {ts us ms rest star star' gap : List Token}
    {opening opening' : Opening} {name name' colon colon' : Token}
    (hts : t :: ts = star ++ name :: (gap ++ colon :: opening.rest))
    (hstands : opening.Stands star name gap colon)
    (hstands' : opening'.Stands star' name' [] colon')
    (hsettles : Settles .value (keptValue (splitValue 0 0 opening.rest).1) us)
    (hms : ∀ m ∈ ms, isPlain m) (hrest : EndsDeclaration rest)
    (hahead : ruleAhead 0 (t :: ts) = false) :
    ruleAhead 0 (star' ++ name' :: colon' :: (us ++ ms ++ rest)) = false := by
  rcases keptValue_split (splitValue 0 0 opening.rest).1 with ⟨more, hmore, _⟩
  have happ := splitValue_append 0 0 opening.rest
  rw [hmore, List.append_assoc] at happ
  have hfront : t :: ts = (star ++ name :: (gap ++ [colon])) ++
      (keptValue (splitValue 0 0 opening.rest).1 ++ (more ++ (splitValue 0 0 opening.rest).2)) := by
    rw [happ, hts]
    simp
  rw [hfront] at hahead
  have hno := ruleAhead_value hsettles hstands.plain hstands'.plain hms hrest hahead
  simpa using hno

theorem dropImportant?_again {value us : List Token} (hmarks : marksAgree (keptValue value) = true)
    (hsettles : Settles .value (keptValue value) us) (h : (dropImportant? value).isSome = false) :
    dropImportant? us = none := by
  have hnone : dropImportant? value = none := by simpa using h
  have hkept : keptValue value = value := by
    rw [keptValue, hnone]
    rfl
  rw [hkept] at hmarks hsettles
  rw [marksAgree, h, Bool.false_or, Option.isNone_iff_eq_none] at hmarks
  exact dropImportant?_settles hsettles hmarks

theorem declaration?_again (property : Bytes) {value us ms : List Token}
    (hgood : (keptValue value).any Token.isBad = false)
    (hmarks : marksAgree (keptValue value) = true)
    (hsettles : Settles .value (keptValue value) us)
    (hms : Marks (dropImportant? value).isSome ms) :
    (us ++ ms).any Token.isBad = false ∧ declaration? property (us ++ ms) =
      some ⟨.declaration property (Token.write .value (keptValue value))
        (dropImportant? value).isSome, []⟩ := by
  have hus : us.any Token.isBad = false := by
    rw [Bool.eq_false_iff]
    intro hbad
    rw [bad_of_settles hsettles hbad] at hgood
    cases hgood
  have hany : (us ++ ms).any Token.isBad = false := by
    rw [List.any_append, hus, hms.clean]
    rfl
  refine ⟨hany, ?_⟩
  rcases hms.value us (dropImportant?_again hmarks hsettles) with ⟨hdrop, hkept⟩
  rw [declaration?_eq hany, hkept, hdrop, write_settles hsettles]
  cases (dropImportant? value).isSome <;> rfl

theorem Opening.Stands.clean {opening : Opening} {star gap : List Token} {name colon : Token}
    (h : opening.Stands star name gap colon) :
    star.any Token.isBad = false ∧ name.isBad = false ∧ colon.isBad = false := by
  refine ⟨?_, not_bad (by simp [h.ident]) (by simp [h.ident]),
    not_bad (by simp [h.ends]) (by simp [h.ends])⟩
  rcases h.front with rfl | ⟨s, rfl, hs⟩
  · rfl
  · simp only [Token.isDelim, Bool.and_eq_true, beq_iff_eq] at hs
    simp [Token.isBad, hs.1]

theorem rereads_declaration {t : Token} {ts : List Token} {opening : Opening} {node : Node}
    (hsound : ∀ moment, seen moment -> moment.Sound) (hseen : seen ⟨.declarations, t :: ts⟩)
    (hkind : Body.declarations.opensOn t.kind)
    (hahead : declarationAhead? (t :: ts) = some opening)
    (hnode : declaration? opening.property (splitValue 0 0 opening.rest).1 = some node) :
    Rereads o' seen f n .declarations node := by
  have hgood : (splitValue 0 0 opening.rest).1.any Token.isBad = false := by
    rw [Bool.eq_false_iff]
    intro hbad
    rw [declaration?, if_pos hbad] at hnode
    cases hnode
  rcases sound_keptValue hsound hseen hkind hahead hgood with ⟨hlexed, hsep, hbraces, hmarks⟩
  rcases opening?_of_declarationAhead? hahead with ⟨hopening, hrule⟩
  rcases opening?_some hopening with ⟨star, name, gap, colon, hts, hstands⟩
  rcases keptValue_split (splitValue 0 0 opening.rest).1 with ⟨more, hmore, _⟩
  have hkept : (keptValue (splitValue 0 0 opening.rest).1).any Token.isBad = false := by
    rw [hmore, List.any_append, Bool.or_eq_false_iff] at hgood
    exact hgood.1
  have hcount : ∃ d, (keptValue (splitValue 0 0 opening.rest).1).foldl valueAfter (some (0, 0)) =
      some d := by
    rcases splitValue_counted 0 0 opening.rest with ⟨d, b, hcount⟩
    rw [hmore] at hcount
    exact foldl_valueAfter_front hcount
  have hlexed' := (hsound _ hseen).lexed
  rw [declaration?_eq hgood] at hnode
  cases hnode
  intro offset tail htail
  have hends := endsRun_marks (dropImportant? (splitValue 0 0 opening.rest).1).isSome (htail rfl)
  rcases read_property (hts ▸ hlexed') hstands
    (Token.write .value (keptValue (splitValue 0 0 opening.rest).1) ++
      ((if (dropImportant? (splitValue 0 0 opening.rest).1).isSome then ascii "!important"
        else []) ++ tail)) offset with ⟨star', name', colon', next, hproperty, hstands'⟩
  rcases read_write hlexed hsep hends next with ⟨us, next', hvalue, hsettles⟩
  rcases read_marks (dropImportant? (splitValue 0 0 opening.rest).1).isSome (htail rfl) next' with
    ⟨ms, offset', hmark, hms⟩
  have hagain := declaration?_again opening.property hkept hmarks hsettles hms
  refine ⟨star' ++ name' :: colon' :: (us ++ ms), offset', _, ?_, rfl, nofun, ?_, ?_⟩
  · rw [hvalue, hmark] at hproperty
    rw [Node.write]
    simpa using hproperty
  · intro hbad
    rcases (hstands' []).clean with ⟨hstar, hname, hcolon⟩
    rw [List.any_append, List.any_cons, List.any_cons, hstar, hname, hcolon, hagain.1] at hbad
    cases hbad
  · intro st rest hbody hframes hrest
    have hcount' : (us ++ ms).foldl valueAfter (some (0, 0)) = some (0, 0) := by
      rcases hcount with ⟨d, hcount⟩
      rw [List.foldl_append, foldl_valueAfter_plain _ hms.plain]
      exact valueAfter_settles hsettles hcount (by simpa [bracesAgree] using hbraces)
    have hrun := run_declaration (o := o') hbody (hstands' (us ++ ms ++ rest)) rfl hcount'
      (hrest rfl) (hrule.imp_right
        (ruleAhead_again hts hstands (hstands' []) hsettles hms.plain (hrest rfl))) hagain.2
    simpa [after, Head.isDeclaration] using hrun

/-!
## The whole tree
-/

theorem rereads_of_grown {node : Node} (hsound : ∀ moment, seen moment -> moment.Sound)
    (hf : Faithful o o' seen f) (hdepth : o.maxDepth ≤ o'.maxDepth)
    (h : Grown o seen n body node) (hmates : Body.Mates o o' body body') :
    Rereads o' seen f n body' node := by
  induction h generalizing body' with
  | statement hseen hat hend => exact rereads_statement hsound hseen hat
  | atRule hseen hat hsplit hopen hlimit hchildren ih =>
      apply rereads_atRule hsound hseen hat (Nat.le_trans hlimit hdepth)
      intro child hchild
      exact ih child hchild (mates_bodyOf o o' _)
  | rule hseen hkind hseek hsplit hopen hlimit hchildren ih =>
      apply rereads_rule hsound hf hmates hseen hkind hseek hsplit hopen
        (Nat.le_trans hlimit hdepth)
      intro child hchild
      exact ih child hchild .declarations
  | declaration hseen hkind hahead hnode =>
      cases hmates
      exact rereads_declaration hsound hseen hkind hahead hnode

/-- The nodes of a list that stands outside of all blocks, read again. -/
structure ListRetold (o' : Options) (seen : Moment -> Prop) (f : Head -> Head) (body' : Body)
    (nodes : List Node) (us : List Token) (nodes' : List Node) : Prop where
  heads : Sheet.mapHeads f nodes' = Sheet.mapHeads f nodes
  own : ∀ node' ∈ nodes', ReadFrom (body'.readsSelectors o') node'.head
  clean : us.any Token.isBad = true -> SawBad seen
  run : ∀ built rest, Sheet.run o' ⟨body', built, []⟩ (us ++ rest) =
    Sheet.run o' ⟨body', nodes'.reverse ++ built, []⟩ rest

theorem reread_list {nodes : List Node} (h : ∀ node ∈ nodes, Rereads o' seen f 0 body' node)
    (hrules : ∀ node ∈ nodes, node.head.isDeclaration = false) (offset : Nat) (tail : Bytes) :
    ∃ us offset' nodes', streamFrom offset (Sheet.write nodes ++ tail) =
        us ++ streamFrom offset' tail ∧ ListRetold o' seen f body' nodes us nodes' := by
  induction nodes generalizing offset with
  | nil => exact ⟨[], offset, [], rfl, rfl, nofun, nofun, fun _ _ => rfl⟩
  | cons node nodes ih =>
      have hrule := hrules node List.mem_cons_self
      have hends : ∀ tail, EndsText node tail := by
        intro tail hdeclaration
        rw [hrule] at hdeclaration
        cases hdeclaration
      rcases h node List.mem_cons_self offset _ (hends (Sheet.write nodes ++ tail)) with
        ⟨us, next, node', hread, hnode⟩
      rcases ih (fun child hchild => h child (List.mem_cons_of_mem _ hchild))
        (fun child hchild => hrules child (List.mem_cons_of_mem _ hchild)) next with
        ⟨vs, offset', nodes', hrest, hnodes⟩
      refine ⟨us ++ vs, offset', node' :: nodes', ?_, ?_, ?_, ?_, ?_⟩
      · rw [Sheet.write, List.flatMap_cons, List.append_assoc, ← Sheet.write, hread, hrest,
          List.append_assoc]
      · rw [Sheet.mapHeads, Sheet.mapHeads, hnode.heads, hnodes.heads]
      · intro child hchild
        rcases List.mem_cons.mp hchild with rfl | hchild
        · exact hnode.own
        · exact hnodes.own child hchild
      · intro hbad
        rw [List.any_append, Bool.or_eq_true] at hbad
        rcases hbad with hbad | hbad
        · exact hnode.clean hbad
        · exact hnodes.clean hbad
      · intro built rest
        have hno : EndsNode node (vs ++ rest) := by
          intro hdeclaration
          rw [hrule] at hdeclaration
          cases hdeclaration
        rw [List.append_assoc, hnode.run _ _ rfl rfl hno, after, hrule, State.push]
        simp only [Bool.false_eq_true, if_false]
        rw [hnodes.run]
        simp

theorem isDeclaration_of_grown {selectors : Bool} {node : Node}
    (h : Grown o seen n (.rules selectors) node) : node.head.isDeclaration = false := by
  cases h <;> rfl

theorem reread_grown {nodes : List Node} (hsound : ∀ moment, seen moment -> moment.Sound)
    (hf : Faithful o o' seen f) (hdepth : o.maxDepth ≤ o'.maxDepth)
    (hgrown : ∀ node ∈ nodes, Grown o seen 0 (.rules o.isStrict) node) :
    ∃ us offset' nodes', tokenize (Sheet.write nodes) = us ++ streamFrom offset' [] ∧
      ListRetold o' seen f (.rules o'.isStrict) nodes us nodes' := by
  have hrereads : ∀ node ∈ nodes, Rereads o' seen f 0 (.rules o'.isStrict) node :=
    fun node hnode => rereads_of_grown hsound hf hdepth (hgrown node hnode) .rules
  have hread := reread_list hrereads
    (fun node hnode => isDeclaration_of_grown (hgrown node hnode)) 0 []
  rw [List.append_nil] at hread
  exact hread

theorem parse_write_of_grown {nodes : List Node} (hsound : ∀ moment, seen moment -> moment.Sound)
    (hf : Faithful o o' seen f) (hdepth : o.maxDepth ≤ o'.maxDepth)
    (hgrown : ∀ node ∈ nodes, Grown o seen 0 (.rules o.isStrict) node)
    (hgood : o'.isStrict = true -> (tokenize (Sheet.write nodes)).any Token.isBad = false) :
    ∃ nodes', parse o' (Sheet.write nodes) = .ok nodes' ∧
      Sheet.mapHeads f nodes' = Sheet.mapHeads f nodes ∧
      ∀ node' ∈ nodes', ReadFrom o'.isStrict node'.head := by
  rcases reread_grown hsound hf hdepth hgrown with ⟨us, offset', nodes', hread, hnodes⟩
  refine ⟨nodes', ?_, hnodes.heads, hnodes.own⟩
  have hrun := hnodes.run [] []
  rw [List.append_nil, List.append_nil, run_nil] at hrun
  rw [parse, ofTokens_eq_build hgood, build, tokenize, body_of_streamFrom hread, hrun]
  simp [finish, State.closeAll]

theorem sawBad_of_write {nodes : List Node} (hsound : ∀ moment, seen moment -> moment.Sound)
    (hf : Faithful o o' seen f) (hdepth : o.maxDepth ≤ o'.maxDepth)
    (hgrown : ∀ node ∈ nodes, Grown o seen 0 (.rules o.isStrict) node)
    (hbad : (tokenize (Sheet.write nodes)).any Token.isBad = true) : SawBad seen := by
  rcases reread_grown hsound hf hdepth hgrown with ⟨us, offset', nodes', hread, hnodes⟩
  apply hnodes.clean
  rw [hread, streamFrom_nil offset' (by rw [Reader.comment.scan_none rfl])] at hbad
  simpa [Token.isBad, Token.endAt, Token.ofLexeme, Lexeme.verbatim] using hbad

end Sheet
end StyleTrim
