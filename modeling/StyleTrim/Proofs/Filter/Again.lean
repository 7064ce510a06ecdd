import StyleTrim.Proofs.Filter.Liveness
import StyleTrim.Proofs.Sheet.Appended

/-!
# Filtering what was filtered

What the filter wrote can be filtered again, with the facts of the same page. This gives the same
text and removes nothing when the stretches of the first text are repeatable and the sanitizer had
nothing to cut, with one exception: a text that was read leniently has kept rules that the page has
no use for, and these go if what was written can be read strictly.
-/

namespace StyleTrim

/-!
## The facts do not see white space
-/

theorem Head.retains_squeeze : Head.Retains Head.squeeze := by
  constructor
  · intro head children
    cases head <;> simp only [Head.squeeze, Node.write]
  · intro head
    cases head <;> rfl

variable {facts : Facts}

theorem Simple.mayMatch_squeeze (s : Simple) : s.squeeze.mayMatch facts = s.mayMatch facts := by
  cases s <;> rfl

theorem Compound.all_squeeze (c : Compound) :
    (Compound.squeeze c).all (Simple.mayMatch facts) = c.all (Simple.mayMatch facts) := by
  rw [Compound.squeeze, List.all_map]
  exact congrArg c.all (funext Simple.mayMatch_squeeze)

theorem Complex.mayMatch_squeeze (c : Complex) : c.squeeze.mayMatch facts = c.mayMatch facts := by
  rw [Complex.mayMatch, Complex.mayMatch, Complex.compounds, Complex.compounds, Complex.squeeze,
    List.all_cons, List.all_cons, Compound.all_squeeze, List.map_map, List.all_map, List.all_map]
  exact congrArg (_ && c.more.all ·) (funext fun part => Compound.all_squeeze part.2)

theorem SelectorList.mayMatchAny_squeeze (list : SelectorList) :
    SelectorList.mayMatchAny facts (SelectorList.squeeze list) =
      SelectorList.mayMatchAny facts list := by
  rw [SelectorList.mayMatchAny, SelectorList.mayMatchAny, SelectorList.squeeze, List.isEmpty_map,
    List.any_map]
  exact congrArg (_ || list.any ·) (funext Complex.mayMatch_squeeze)

theorem Filter.keeps_squeeze (head : Head) :
    Filter.keeps facts head.squeeze = Filter.keeps facts head := by
  cases head with
  | rule prelude selectors =>
      cases selectors with
      | none => rfl
      | some list => exact congrArg (_ || ·) (SelectorList.mayMatchAny_squeeze list)
  | atRule name prelude block => rfl
  | declaration property value important => rfl

/-!
## Reading what was written
-/

namespace Sheet

theorem faithful_unread (o o' : Options) (seen : Moment -> Prop) :
    Faithful o o' seen Head.unread := by
  intro body body' left prelude us _ _ _ _ _ hsettles
  rw [ruleHead, ruleHead, Token.write_settles hsettles]
  rfl

theorem write_of_parse_strict {css : Bytes} {sheet sheet' : Sheet}
    (hparse : parse { mode := .lenient } css = .ok sheet)
    (hsound : ∀ stretch ∈ stretches { mode := .lenient } css, stretch.isSound = true)
    (hstrict : parse { mode := .strict } (Sheet.write sheet) = .ok sheet') :
    Sheet.write sheet' = Sheet.write sheet := by
  have hfaithful : Faithful { mode := .lenient } { mode := .strict }
      (· ∈ buildMoments { mode := .lenient } (.rules false) (Token.tokenize css)) Head.unread :=
    faithful_unread _ _ _
  rcases parse_write_of_grown (sound_of_stretches hsound) hfaithful (Nat.le_refl _)
    (grown_of_parse hparse) (fun _ => noBad_of_parse rfl hstrict) with ⟨nodes', hread, hheads, -⟩
  rw [hstrict] at hread
  cases hread
  exact write_of_mapHeads Head.retains_unread hheads

/-- The stretches that are cut off in the mode in which the text is read can be read again. -/
def isRepeatable (css : Bytes) : Bool :=
  match (parseWithFallback css).strictError with
  | none =>
      (stretches { mode := .strict } css).all fun stretch => stretch.isSound && stretch.isWhole
  | some _ => (stretches { mode := .lenient } css).all Stretch.isSound

end Sheet

/-!
## The second run
-/

namespace Filter

/-- Strict reading, where it succeeds, finds no rule in the text that can be removed. -/
def FindsNothing (facts : Facts) (css : Bytes) : Prop :=
  ∀ sheet, Sheet.parse { mode := .strict } css = .ok sheet ->
    ∀ node ∈ sheet, keeps facts node.head = true

theorem keeps_of_removed_eq_zero {sheet : Sheet} (h : (statsOf facts sheet).removed = 0) :
    ∀ node ∈ sheet, keeps facts node.head = true := by
  intro node hnode
  by_contra hdrops
  have hremoved : node ∈ removedNodes facts sheet :=
    mem_removedNodes.mpr ⟨hnode, eq_false_of_ne_true hdrops⟩
  have hrule : node.head.isRule = true := by
    cases hhead : node.head with
    | rule prelude selectors => rfl
    | atRule name prelude block => exact absurd (by rw [hhead]; rfl) hdrops
    | declaration property value important => exact absurd (by rw [hhead]; rfl) hdrops
  exact List.countP_eq_zero.mp h node hremoved hrule

theorem outputOf_again {css : Bytes} {sheet : Sheet} (hwrite : Sheet.write sheet = css)
    (hclean : sanitize css = css) :
    ((outputOf facts sheet).css = css ∧ (outputOf facts sheet).stats.removed = 0) ↔
      ∀ node ∈ sheet, keeps facts node.head = true := by
  constructor
  · intro h
    exact keeps_of_removed_eq_zero h.2
  · intro hkeeps
    rcases removed_eq_zero hkeeps with ⟨hkept, hremoved⟩
    refine ⟨?_, hremoved⟩
    rw [outputOf, hkept, hwrite, hclean]

theorem parseWithFallback_of_lenient {css : Bytes} {e : SheetError} {sheet : Sheet}
    (hstrict : Sheet.parse { mode := .strict } css = .error e)
    (h : Sheet.parse { mode := .lenient } css = .ok sheet) :
    (Sheet.parseWithFallback css).result = .ok sheet := by
  rw [Sheet.parseWithFallback, hstrict]
  exact h

theorem strict_part_again (facts : Facts) {css : Bytes} {sheet : Sheet}
    (hparse : Sheet.parse { mode := .strict } css = .ok sheet)
    (hsound : ∀ stretch ∈ Sheet.stretches { mode := .strict } css,
      stretch.isSound = true ∧ stretch.isWhole = true) :
    ∃ sheet', Sheet.parse { mode := .strict } (Sheet.write (keptNodes facts sheet)) = .ok sheet' ∧
      Sheet.write sheet' = Sheet.write (keptNodes facts sheet) ∧
      ∀ node' ∈ sheet', keeps facts node'.head = true := by
  rcases Sheet.parse_write_part hparse (fun node hnode => (mem_keptNodes.mp hnode).1)
    (fun stretch hstretch => (hsound stretch hstretch).1)
    (fun _ stretch hstretch => (hsound stretch hstretch).2) with ⟨sheet', hparse', hheads⟩
  refine ⟨sheet', hparse', Sheet.write_of_mapHeads Head.retains_squeeze hheads, ?_⟩
  intro node' hnode'
  rcases Sheet.exists_of_mapHeads hheads node' hnode' with ⟨node, hnode, hhead⟩
  rw [← keeps_squeeze, hhead, keeps_squeeze]
  exact (mem_keptNodes.mp hnode).2

theorem lenient_again (facts : Facts) {css : Bytes} {sheet : Sheet}
    (hparse : Sheet.parse { mode := .lenient } css = .ok sheet)
    (hsound : ∀ stretch ∈ Sheet.stretches { mode := .lenient } css, stretch.isSound = true) :
    ∃ sheet', (Sheet.parseWithFallback (Sheet.write sheet)).result = .ok sheet' ∧
      Sheet.write sheet' = Sheet.write sheet ∧
      ((∀ node' ∈ sheet', keeps facts node'.head = true) ↔
        FindsNothing facts (Sheet.write sheet)) := by
  cases hstrict : Sheet.parse { mode := .strict } (Sheet.write sheet) with
  | ok sheet' =>
      refine ⟨sheet', parseWithFallback_of_strict hstrict,
        Sheet.write_of_parse_strict hparse hsound hstrict, ?_⟩
      constructor
      · intro hkeeps found hfound
        rw [hstrict] at hfound
        cases hfound
        exact hkeeps
      · intro hnothing
        exact hnothing sheet' hstrict
  | error e =>
      have halone := Sheet.parse_write_alone rfl hparse hsound
      refine ⟨sheet, parseWithFallback_of_lenient hstrict halone, rfl, ?_⟩
      constructor
      · intro _ found hfound
        rw [hstrict] at hfound
        cases hfound
      · intro _ node hnode
        exact keeps_of_selectors_none (Sheet.selectors_of_parse_lenient hparse node hnode)

/-- Filtering the output again succeeds. It gives the same text and removes nothing just when
strict reading finds no rule in the output that can be removed, and so it does whenever the first
text was read strictly. -/
theorem filtered_again {o : Options} {css : Bytes} {sheet : Sheet} {output : Output}
    (hread : (Sheet.parseWithFallback css).result = .ok sheet)
    (hrun : (run o facts css).1 = .ok output) (hrepeat : Sheet.isRepeatable css = true)
    (hclean : output.css = Sheet.write (keptNodes facts sheet)) :
    ∃ output', (∀ o' : Options, o'.Admits output.css -> (run o' facts output.css).1 = .ok output') ∧
      (output'.css = output.css ∧ output'.stats.removed = 0 ↔ FindsNothing facts output.css) ∧
      ((Sheet.parseWithFallback css).strictError = none ->
        output'.css = output.css ∧ output'.stats.removed = 0) := by
  rcases run_cases hrun with ⟨sheet', hread', rfl⟩
  rw [hread] at hread'
  cases hread'
  have hsanitize : sanitize (outputOf facts sheet).css = (outputOf facts sheet).css := by
    conv_lhs => rw [hclean]
    rfl
  rcases Sheet.parse_of_parseWithFallback hread with ⟨hstrict, hnone⟩ | ⟨hlenient, e, hfail, hsome⟩
  · rw [Sheet.isRepeatable, hnone] at hrepeat
    have hsound : ∀ stretch ∈ Sheet.stretches { mode := .strict } css,
        stretch.isSound = true ∧ stretch.isWhole = true := by
      intro stretch hstretch
      exact Bool.and_eq_true_iff.mp (List.all_eq_true.mp hrepeat stretch hstretch)
    rcases strict_part_again facts hstrict hsound with
      ⟨again, hagain, hwrite, hkeeps⟩
    rw [← hclean] at hagain hwrite
    have hsame := (outputOf_again hwrite hsanitize).mpr hkeeps
    refine ⟨outputOf facts again, fun o' hsize => ?_, ⟨fun _ => ?_, fun _ => hsame⟩,
      fun _ => hsame⟩
    · exact run_of_parse hsize (parseWithFallback_of_strict hagain)
    · intro found hfound
      rw [hagain] at hfound
      cases hfound
      exact hkeeps
  · rw [Sheet.isRepeatable, hsome] at hrepeat
    have hall : keptNodes facts sheet = sheet :=
      (removed_eq_zero fun node hnode =>
        keeps_of_selectors_none (Sheet.selectors_of_parse_lenient hlenient node hnode)).1
    rw [hall] at hclean
    rcases lenient_again facts hlenient (List.all_eq_true.mp hrepeat) with
      ⟨again, hagain, hwrite, hnothing⟩
    rw [← hclean] at hagain hwrite hnothing
    refine ⟨outputOf facts again, fun o' hsize => run_of_parse hsize hagain,
      (outputOf_again hwrite hsanitize).trans hnothing, fun hnone => ?_⟩
    rw [hsome] at hnone
    cases hnone

def cardText : Bytes :=
  ascii ".card > p\x7ba:b\x7d.gone\x7b\x7d"

theorem filtered_again_on_card :
    (run {} cardFacts cardText).1 = .ok (outputOf cardFacts [cardRule, goneRule]) ∧
      (outputOf cardFacts [cardRule, goneRule]).css = ascii ".card>p\x7ba:b\x7d" ∧
      ∃ output', (run { maxBytes := 0 } cardFacts (ascii ".card>p\x7ba:b\x7d")).1 = .ok output' ∧
        output'.css = ascii ".card>p\x7ba:b\x7d" ∧ output'.stats.removed = 0 := by
  have hread : (Sheet.parseWithFallback cardText).result = .ok [cardRule, goneRule] :=
    eq_ok_of_toOption (by decide +kernel)
  have hstrict : (Sheet.parseWithFallback cardText).strictError = none := by decide +kernel
  have hrun : (run {} cardFacts cardText).1 = .ok (outputOf cardFacts [cardRule, goneRule]) :=
    run_of_parse (Or.inr (by decide +kernel)) hread
  have hcss : (outputOf cardFacts [cardRule, goneRule]).css = ascii ".card>p\x7ba:b\x7d" := by
    decide +kernel
  rcases filtered_again hread hrun (by decide +kernel) (by decide +kernel) with
    ⟨output', hagain, -, hsame⟩
  rw [hcss] at hagain hsame
  exact ⟨hrun, hcss, output', hagain _ (Or.inl rfl), hsame hstrict⟩

/-- The string that breaks off is gone from the output, which can be read strictly. -/
example :
    ((run {} cardFacts (ascii ".gone\x7b\x7dp\x7ba:\"\n\x7d")).1.toOption.bind fun first =>
        (run {} cardFacts first.css).1.toOption).map
          (fun second => (second.css, second.stats.removed)) =
      some (ascii "p\x7b\x7d", 1) := by
  decide +kernel

end Filter
end StyleTrim
