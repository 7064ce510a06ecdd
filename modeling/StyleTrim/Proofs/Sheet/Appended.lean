import StyleTrim.Proofs.Sheet.Places
import StyleTrim.Proofs.Sheet.Roundtrip

/-!
# One text behind another

When the tokens of a text have built some nodes outside of all blocks, what comes behind the text
builds the nodes that it builds alone. So a sheet that is read leniently can be written in front of
any text: everything that its own text left open is closed.
-/

namespace StyleTrim
namespace Sheet

open Token

/-!
## Nodes that were there before

The nodes that were there before stand at the end of the outermost list, which is the list of the
state, or that of the last frame.
-/

variable (below : List Node)

def rooted (frames : List Frame) (nodes : List Node) : List Node :=
  if frames.isEmpty then nodes ++ below else nodes

def framesOnto : List Frame -> List Frame
  | [] => []
  | frame :: frames =>
      { frame with before := rooted below frames frame.before } :: framesOnto frames

def State.onto (st : State) : State :=
  { body := st.body
    nodes := rooted below st.frames st.nodes
    frames := framesOnto below st.frames }

theorem rooted_cons (frames : List Frame) (node : Node) (nodes : List Node) :
    rooted below frames (node :: nodes) = node :: rooted below frames nodes := by
  rw [rooted, rooted]
  cases frames <;> rfl

theorem framesOnto_length (frames : List Frame) :
    (framesOnto below frames).length = frames.length := by
  induction frames with
  | nil => rfl
  | cons frame frames ih => rw [framesOnto, List.length_cons, List.length_cons, ih]

theorem framesOnto_isEmpty (frames : List Frame) :
    (framesOnto below frames).isEmpty = frames.isEmpty := by
  cases frames <;> rfl

theorem State.onto_push (st : State) (node : Node) :
    (st.onto below).push node = (st.push node).onto below := by
  rw [push, push, onto, onto, rooted_cons]

theorem State.onto_close (st : State) : (st.onto below).close = st.close.onto below := by
  rcases st with ⟨body, nodes, frames⟩
  cases frames with
  | nil => rfl
  | cons frame frames =>
      rw [close, close, onto, onto, rooted_cons]
      rfl

theorem State.onto_enter (o : Options) (st : State) (head : Head) (body : Body) :
    (st.onto below).enter o head body = (st.enter o head body).map (State.onto below) := by
  have hlength : (st.onto below).frames.length = st.frames.length :=
    framesOnto_length below st.frames
  simp only [enter, hlength, apply_ite (Except.map _)]
  rfl

theorem State.closeAll_onto (nodes : List Node) (frames : List Frame) :
    closeAll (rooted below frames nodes) (framesOnto below frames) =
      below.reverse ++ closeAll nodes frames := by
  induction frames generalizing nodes with
  | nil => exact List.reverse_append
  | cons frame frames ih =>
      rw [framesOnto, closeAll, closeAll, ← ih, rooted_cons]
      rfl

/-!
## The machine does not look at them
-/

def ontoRest (found : State × List Token) : State × List Token :=
  (found.1.onto below, found.2)

theorem stepAtRule_onto (o : Options) (st : State) (name : Bytes) (ts : List Token) :
    stepAtRule o (st.onto below) name ts = (stepAtRule o st name ts).map (ontoRest below) := by
  simp only [stepAtRule, State.onto_push, State.onto_enter]
  cases (splitPrelude true 0 ts).2 with
  | nil => rfl
  | cons t rest =>
      simp only [apply_ite (Except.map _)]
      cases st.enter o (.atRule name (Token.write .prelude (splitPrelude true 0 ts).1) true)
        (bodyOf o name) <;> rfl

theorem stepRule_onto (o : Options) (st : State) (selectors : Bool) (ts : List Token) :
    stepRule o (st.onto below) selectors ts =
      (stepRule o st selectors ts).map (ontoRest below) := by
  simp only [stepRule, State.onto_enter]
  cases (splitPrelude false 0 ts).2 with
  | nil =>
      simp only [apply_ite (Except.map _)]
      rfl
  | cons t rest =>
      simp only [apply_ite (Except.map _)]
      cases st.enter o (ruleHead selectors (splitPrelude false 0 ts).1) .declarations <;> rfl

theorem stepDeclaration_onto (st : State) (opening : Opening) :
    stepDeclaration (st.onto below) opening = ontoRest below (stepDeclaration st opening) := by
  simp only [stepDeclaration, State.onto_push]
  cases declaration? opening.property (splitValue 0 0 opening.rest).1 <;> rfl

theorem step_onto (o : Options) (st : State) (t : Token) (ts : List Token) :
    step o (st.onto below) t ts = (step o st t ts).map (ontoRest below) := by
  have hbody : (st.onto below).body = st.body := rfl
  rw [step, step, hbody]
  cases st.body with
  | rules selectors =>
      have hframes : (st.onto below).frames.isEmpty = st.frames.isEmpty :=
        framesOnto_isEmpty below st.frames
      simp only [stepInRules, hframes, State.onto_close, stepAtRule_onto, stepRule_onto]
      cases t.kind with
      | rightBrace =>
          simp only [apply_ite (Except.map _)]
          rfl
      | _ => rfl
  | declarations =>
      simp only [stepInDeclarations, State.onto_close, stepAtRule_onto, stepRule_onto,
        stepDeclaration_onto]
      cases declarationAhead? (t :: ts) with
      | some opening => cases t.kind <;> rfl
      | none => cases ruleAhead 0 (t :: ts) <;> cases t.kind <;> rfl

theorem run_onto (o : Options) (st : State) (ts : List Token) :
    run o (st.onto below) ts = (run o st ts).map (State.onto below) := by
  induction hlength : ts.length using Nat.strongRecOn generalizing st ts with
  | ind length ih =>
    cases ts with
    | nil =>
        rw [run_nil, run_nil]
        rfl
    | cons t ts =>
        have honto := step_onto below o st t ts
        cases hstep : step o st t ts with
        | error e =>
            rw [hstep] at honto
            rw [run_cons_of_error honto, run_cons_of_error hstep]
            rfl
        | ok found =>
            rw [hstep] at honto
            rw [run_cons_of_ok honto, run_cons_of_ok hstep]
            exact ih _ (hlength ▸ step_length hstep) _ _ rfl

theorem finish_onto (o : Options) (st : State) :
    finish o (st.onto below) = (finish o st).map (below.reverse ++ ·) := by
  have hframes : (st.onto below).frames.isEmpty = st.frames.isEmpty :=
    framesOnto_isEmpty below st.frames
  have hclose : State.closeAll (st.onto below).nodes (st.onto below).frames =
      below.reverse ++ State.closeAll st.nodes st.frames :=
    State.closeAll_onto below st.nodes st.frames
  simp only [finish, hframes, hclose, apply_ite (Except.map _)]
  rfl

/-!
## Two texts
-/

variable {o : Options}

def Builds (o : Options) (body : Body) (us : List Token) (nodes : List Node) : Prop :=
  ∀ built rest, run o ⟨body, built, []⟩ (us ++ rest) =
    run o ⟨body, nodes.reverse ++ built, []⟩ rest

theorem body_append {us : List Token} (h : ∀ u ∈ us, u.kind ≠ .endOfText) (ts : List Token) :
    Token.body (us ++ ts) = us ++ Token.body ts := by
  rw [Token.body, List.takeWhile_append_of_pos, ← Token.body]
  intro u hu
  exact bne_iff_ne.mpr (h u hu)

theorem kind_of_mem_body {t : Token} {ts : List Token} (h : t ∈ Token.body ts) :
    t.kind ≠ .endOfText := by
  have hkept := List.mem_takeWhile_imp h
  exact bne_iff_ne.mp hkept

theorem build_append {body : Body} {us : List Token} {nodes : List Node}
    (hbuilds : Builds o body us nodes) (hus : ∀ u ∈ us, u.kind ≠ .endOfText) (offset : Nat)
    (y : Bytes) :
    build o body (us ++ streamFrom offset y) =
      (build o body (tokenize y)).map (nodes ++ ·) := by
  have hstart : (⟨body, nodes.reverse ++ [], []⟩ : State) =
      State.onto nodes.reverse ⟨body, [], []⟩ := by
    rw [List.append_nil]
    rfl
  rw [build, body_append hus, hbuilds, streamFrom_eq_map, body_map, run_map, hstart, run_onto,
    build]
  cases run o ⟨body, [], []⟩ (Token.body (tokenize y)) with
  | error e => rfl
  | ok st =>
      have hfinish := finish_onto nodes.reverse o st
      rw [List.reverse_reverse] at hfinish
      exact hfinish

theorem kind_of_front {us : List Token} {offset offset' : Nat} {s s' : Bytes}
    (h : streamFrom offset s = us ++ streamFrom offset' s') : ∀ u ∈ us, u.kind ≠ .endOfText := by
  rcases laid_body (laid_streamFrom offset s) with ⟨e, he, _⟩
  rcases laid_body (laid_streamFrom offset' s') with ⟨e', he', _⟩
  rw [he', ← List.append_assoc, he] at h
  have hfront := (List.append_inj' h rfl).1
  intro u hu hkind
  have hmem : u ∈ Token.body (streamFrom offset s) := by
    rw [hfront]
    exact List.mem_append_left _ hu
  exact kind_of_mem_body hmem hkind

/-!
## Sheets that are read leniently
-/

theorem faithful_lenient {seen : Moment -> Prop} (hlenient : o.isStrict = false) :
    Faithful o o seen id := by
  intro body body' left prelude us hmates _ _ _ _ hsettles
  have hreads : body.readsSelectors o = false := by
    rw [Bool.eq_false_iff]
    intro hreads
    rw [hmates.isStrict hreads] at hlenient
    cases hlenient
  rw [hmates.eq, ruleHead, ruleHead, write_settles hsettles, hreads]
  rfl

theorem ofTokens_of_lenient (hlenient : o.isStrict = false) (ts : List Token) :
    ofTokens o ts = build o (.rules o.isStrict) ts := by
  rw [ofTokens, hlenient]
  rfl

theorem parse_write_append {x y : Bytes} {sheet : Sheet} (hlenient : o.isStrict = false)
    (hx : parse o x = .ok sheet) (hsound : ∀ stretch ∈ stretches o x, stretch.isSound = true) :
    parse o (Sheet.write sheet ++ y) = (parse o y).map (sheet ++ ·) := by
  have hgrown := grown_of_parse hx
  have hrereads : ∀ node ∈ sheet,
      Rereads o (· ∈ buildMoments o (.rules o.isStrict) (tokenize x)) id 0 (.rules o.isStrict)
        node :=
    fun node hnode => rereads_of_grown (sound_of_stretches hsound) (faithful_lenient hlenient)
      (Nat.le_refl _) (hgrown node hnode) .rules
  rcases reread_list hrereads (fun node hnode => isDeclaration_of_grown (hgrown node hnode)) 0 y
    with ⟨us, offset, nodes, hread, hnodes⟩
  have hsame : nodes = sheet := by
    have hheads := hnodes.heads
    rwa [mapHeads_nodes, mapHeads_nodes] at hheads
  subst hsame
  rw [parse, parse, ofTokens_of_lenient hlenient, ofTokens_of_lenient hlenient, tokenize, hread,
    build_append hnodes.run (kind_of_front hread)]

theorem parse_write_alone {x : Bytes} {sheet : Sheet} (hlenient : o.isStrict = false)
    (hx : parse o x = .ok sheet) (hsound : ∀ stretch ∈ stretches o x, stretch.isSound = true) :
    parse o (Sheet.write sheet) = .ok sheet := by
  have halone := parse_write_append (y := []) hlenient hx hsound
  rw [List.append_nil, parse_nil] at halone
  rw [halone]
  exact congrArg Except.ok (List.append_nil sheet)

/-- The text of a sheet that was read leniently is read as that sheet, and whatever comes behind
the text is read as it is alone. -/
theorem lenient_text_closed {depth : Nat} {x y : Bytes} {sheet more : Sheet}
    (hx : parse { mode := .lenient, maxDepth := depth } x = .ok sheet)
    (hsound : ∀ stretch ∈ stretches { mode := .lenient, maxDepth := depth } x,
      stretch.isSound = true)
    (hy : parse { mode := .lenient, maxDepth := depth } y = .ok more) :
    parse { mode := .lenient, maxDepth := depth } (Sheet.write sheet) = .ok sheet ∧
      parse { mode := .lenient, maxDepth := depth } (Sheet.write sheet ++ y) =
        .ok (sheet ++ more) := by
  constructor
  · exact parse_write_alone rfl hx hsound
  · rw [parse_write_append rfl hx hsound, hy]
    rfl

def cutText : Bytes :=
  ascii "@media print\x7ba\x7bb:url(c);d:[\"e\\"

def cutSheet : Sheet :=
  [⟨.atRule (ascii "media") (ascii "print") true,
    [⟨.rule (ascii "a") none,
      [⟨.declaration (ascii "b") (ascii "url(c)") false, []⟩,
        ⟨.declaration (ascii "d") (ascii "[\"e\"]") false, []⟩]⟩]⟩]

theorem lenient_text_closed_in_string :
    parse { mode := .lenient, maxDepth := 256 } cutText = .ok cutSheet ∧
      parse { mode := .lenient, maxDepth := 256 } (Sheet.write cutSheet) = .ok cutSheet ∧
      parse { mode := .lenient, maxDepth := 256 } (Sheet.write cutSheet ++ ascii "f\x7b\x7d") =
        .ok (cutSheet ++ [⟨.rule (ascii "f") none, []⟩]) := by
  have hx : parse { mode := .lenient, maxDepth := 256 } cutText = .ok cutSheet :=
    eq_ok_of_toOption (by decide +kernel)
  have hy : parse { mode := .lenient, maxDepth := 256 } (ascii "f\x7b\x7d") =
      .ok [⟨.rule (ascii "f") none, []⟩] :=
    eq_ok_of_toOption (by decide +kernel)
  exact ⟨hx, lenient_text_closed hx (by decide +kernel) hy⟩

/-!
## Writing once is enough

The text of a sheet does not change when it is read and written again. A text that cannot be read is
written as the empty text, which stays empty.
-/

theorem parseLenient_write {x : Bytes}
    (hsound : ∀ stretch ∈ stretches { mode := .lenient } x, stretch.isSound = true) :
    parseLenient (Sheet.write (parseLenient x)) = parseLenient x := by
  cases hx : parse { mode := .lenient } x with
  | error e =>
      have hempty : parseLenient x = [] := by rw [parseLenient, hx]
      rw [hempty, Sheet.write, List.flatMap_nil, parseLenient, parse_nil]
  | ok sheet =>
      have hsheet : parseLenient x = sheet := by rw [parseLenient, hx]
      rw [hsheet, parseLenient, parse_write_alone rfl hx hsound]

theorem lenient_text_fixed {x : Bytes}
    (hsound : ∀ stretch ∈ stretches { mode := .lenient } x, stretch.isSound = true) :
    Sheet.write (parseLenient (Sheet.write (parseLenient x))) = Sheet.write (parseLenient x) := by
  rw [parseLenient_write hsound]

theorem lenient_text_fixed_in_string :
    Sheet.write (parseLenient cutText) = ascii "@media print\x7ba\x7bb:url(c);d:[\"e\"]\x7d\x7d" ∧
      Sheet.write (parseLenient (Sheet.write (parseLenient cutText))) =
        ascii "@media print\x7ba\x7bb:url(c);d:[\"e\"]\x7d\x7d" := by
  have hwrite : Sheet.write (parseLenient cutText) =
      ascii "@media print\x7ba\x7bb:url(c);d:[\"e\"]\x7d\x7d" := by
    decide +kernel
  exact ⟨hwrite, (lenient_text_fixed (by decide +kernel)).trans hwrite⟩

end Sheet
end StyleTrim
