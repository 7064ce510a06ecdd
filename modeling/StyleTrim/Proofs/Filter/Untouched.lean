import StyleTrim.Proofs.Filter.Liveness
import StyleTrim.Proofs.Sanitize.Pieces
import StyleTrim.Proofs.Sheet.Closed

/-!
# Cuts and the rules around them

The sanitizer works on the text of all kept rules at once, and cuts out only the beginning of a
dangerous construct. What is left of it may hold a quote or a bracket whose partner is gone, and
then it takes in the rules behind it. Where nothing is left open, each rule is sanitized as if it
stood alone, and a rule with nothing dangerous in it is read from the output as it was written.
-/

namespace StyleTrim

/-!
## The last byte of a node
-/

theorem Node.writeBlock_ends (nodes : List Node) : ∃ x, Node.writeBlock nodes = x ++ [0x7D] := by
  induction nodes with
  | nil => exact ⟨[], rfl⟩
  | cons node nodes ih =>
      rcases ih with ⟨x, hx⟩
      rw [Node.writeBlock, hx]
      exact ⟨_, by rw [← List.append_assoc, ← List.append_assoc]⟩

theorem Node.write_ends {node : Node} (h : node.head.isDeclaration = false) :
    ∃ x c, IsTerminator c ∧ node.write = x ++ [c] := by
  rcases node with ⟨head, children⟩
  rcases Node.writeBlock_ends children with ⟨x, hx⟩
  cases head with
  | rule prelude selectors =>
      refine ⟨prelude ++ 0x7B :: x, 0x7D, Or.inr rfl, ?_⟩
      rw [Node.write, hx]
      simp
  | atRule name prelude block =>
      cases block with
      | true =>
          refine ⟨0x40 :: name ++ (if prelude.isEmpty then [] else 0x20 :: prelude) ++ 0x7B :: x,
            0x7D, Or.inr rfl, ?_⟩
          rw [Node.write, if_pos rfl, hx]
          simp
      | false => exact ⟨_, 0x3B, Or.inl rfl, rfl⟩
  | declaration property value important => cases h

/-!
## Pieces that leave nothing open
-/

/-- What the passes leave of the text ends with a token of its own and, read leniently, leaves
nothing open. -/
structure Contained (both : Bool) (s : Bytes) : Prop where
  plain : Token.isTerminated (Sanitize.replacePatterns s) = true
  whole : Sheet.isClosed { mode := .lenient } (Sanitize.runPasses both s) = true

namespace Sheet

open Sanitize

variable {both : Bool}

theorem runPasses_write {nodes : Sheet}
    (hplace : ∀ node ∈ nodes, node.head.isDeclaration = false)
    (hcontained : ∀ node ∈ nodes, Contained both node.write) (y : Bytes) :
    runPasses both (Sheet.write nodes ++ y) =
      (nodes.flatMap fun node => runPasses both node.write) ++ runPasses both y := by
  induction nodes with
  | nil => rfl
  | cons node nodes ih =>
      rw [List.forall_mem_cons] at hplace hcontained
      rcases Node.write_ends hplace.1 with ⟨x, c, hc, hwrite⟩
      have hplain := hcontained.1.plain
      rw [hwrite] at hplain
      rw [Sheet.write, List.flatMap_cons, List.flatMap_cons, List.append_assoc, List.append_assoc,
        hwrite, runPasses_append hc fun _ => hplain, ← Sheet.write, ih hplace.2 hcontained.2]

theorem parse_runPasses {nodes : Sheet} (hcontained : ∀ node ∈ nodes, Contained both node.write) :
    ∃ found, ∀ y,
      parse { mode := .lenient } ((nodes.flatMap fun node => runPasses both node.write) ++ y) =
        (parse { mode := .lenient } y).map (found ++ ·) := by
  induction nodes with
  | nil =>
      refine ⟨[], fun y => ?_⟩
      rw [List.flatMap_nil, List.nil_append]
      cases parse { mode := .lenient } y <;> rfl
  | cons node nodes ih =>
      rw [List.forall_mem_cons] at hcontained
      rcases parse_append_of_closed rfl hcontained.1.whole with ⟨first, -, hfirst⟩
      rcases ih hcontained.2 with ⟨found, hfound⟩
      refine ⟨first ++ found, fun y => ?_⟩
      rw [List.flatMap_cons, List.append_assoc, hfirst, hfound]
      cases parse { mode := .lenient } y with
      | error e => rfl
      | ok more => simp [Except.map]

end Sheet

/-!
## A rule among others
-/

namespace Filter

open Sanitize

variable {facts : Facts}

/-- The second pass runs over all kept rules when one of them holds a backslash. -/
def runsBoth (facts : Facts) (sheet : Sheet) : Bool :=
  (Sheet.write (keptNodes facts sheet)).contains 0x5C

theorem outputOf_css (facts : Facts) (sheet : Sheet) :
    (outputOf facts sheet).css =
      runPasses (runsBoth facts sheet) (Sheet.write (keptNodes facts sheet)) :=
  sanitize_eq_runPasses _

/-- A rule in which the passes find nothing, and that is read from its own text as a node with that
text, is read from the output too, as long as the passes leave nothing open in it and the rules
before it. -/
theorem rule_untouched_by_cuts {css : Bytes} {sheet before after : Sheet} {node alone : Node}
    {more : Sheet} (hparse : Sheet.parse { mode := .strict } css = .ok sheet)
    (hkept : keptNodes facts sheet = before ++ node :: after)
    (hclean : runPasses (runsBoth facts sheet) node.write = node.write)
    (halone : Sheet.parse { mode := .lenient } node.write = .ok [alone])
    (hsame : alone.write = node.write)
    (hcontained : ∀ other ∈ before ++ [node], Contained (runsBoth facts sheet) other.write)
    (hafter : Sheet.parse { mode := .lenient }
      (runPasses (runsBoth facts sheet) (Sheet.write after)) = .ok more) :
    ∃ output read, (∀ o : Options, o.Admits css -> (run o facts css).1 = .ok output) ∧
      Sheet.parse { mode := .lenient } output.css = .ok read ∧
      ∃ node' ∈ read, node'.write = node.write := by
  have hplace : ∀ other ∈ before ++ [node], other.head.isDeclaration = false := by
    intro other hother
    have hmem : other ∈ keptNodes facts sheet := by
      rw [hkept, List.append_cons]
      exact List.mem_append_left after hother
    exact Sheet.isDeclaration_of_grown (Sheet.grown_of_parse hparse other (mem_keptNodes.mp hmem).1)
  have hcss : (outputOf facts sheet).css =
      (before.flatMap fun other => runPasses (runsBoth facts sheet) other.write) ++
        (node.write ++ runPasses (runsBoth facts sheet) (Sheet.write after)) := by
    have hwrite : Sheet.write (keptNodes facts sheet) =
        Sheet.write (before ++ [node]) ++ Sheet.write after := by
      rw [hkept]
      simp [Sheet.write]
    rw [outputOf_css, hwrite, Sheet.runPasses_write hplace hcontained, List.flatMap_append,
      List.flatMap_singleton, hclean, List.append_assoc]
  have hbefore := fun other hother => hcontained other (List.mem_append_left [node] hother)
  rcases Sheet.parse_runPasses hbefore with ⟨found, hfound⟩
  have hclosed := (hcontained node (by simp)).whole
  rw [hclean] at hclosed
  rcases Sheet.parse_append_of_closed rfl hclosed with ⟨nodes, hnodes, happend⟩
  rw [halone] at hnodes
  cases hnodes
  refine ⟨outputOf facts sheet, found ++ ([alone] ++ more), fun o hsize => ?_, ?_, alone, ?_, hsame⟩
  · exact run_of_parse hsize (parseWithFallback_of_strict hparse)
  · rw [hcss, hfound, happend, hafter]
    rfl
  · simp

def marginRule : Node :=
  ⟨.rule (ascii "html") (some [⟨[.element (ascii "html")], []⟩]),
    [⟨.declaration (ascii "margin") (ascii "0") false, []⟩]⟩

theorem parse_marginRule :
    Sheet.parse { mode := .lenient } marginRule.write = .ok [marginRule.mapHeads Head.unread] :=
  eq_ok_of_toOption (by decide +kernel)

def paragraphRule (value : Bytes) : Node :=
  ⟨.rule (ascii "p") (some [⟨[.element (ascii "p")], []⟩]),
    [⟨.declaration (ascii "b") value false, []⟩]⟩

def expressionRule : Node :=
  paragraphRule (ascii "expression(1)")

def expressionText : Bytes :=
  ascii "p\x7bb:expression(1)\x7dhtml\x7bmargin:0\x7d"

theorem rule_untouched_behind_expression :
    Sheet.parse { mode := .strict } expressionText = .ok [expressionRule, marginRule] ∧
      ∃ output read, (run {} cardFacts expressionText).1 = .ok output ∧
        Sheet.parse { mode := .lenient } output.css = .ok read ∧
        ∃ node' ∈ read, node'.write = marginRule.write := by
  have hparse : Sheet.parse { mode := .strict } expressionText = .ok [expressionRule, marginRule] :=
    eq_ok_of_toOption (by decide +kernel)
  have hkept : keptNodes cardFacts [expressionRule, marginRule] =
      [expressionRule] ++ marginRule :: [] := by
    decide +kernel
  have hcontained : ∀ other ∈ [expressionRule] ++ [marginRule],
      Contained (runsBoth cardFacts [expressionRule, marginRule]) other.write := by
    intro other hother
    rcases List.mem_pair.mp hother with rfl | rfl <;>
    · exact ⟨by decide +kernel, by decide +kernel⟩
  have hafter : Sheet.parse { mode := .lenient }
      (runPasses (runsBoth cardFacts [expressionRule, marginRule])
        (Sheet.write [])) = .ok [] :=
    eq_ok_of_toOption (by decide +kernel)
  rcases rule_untouched_by_cuts hparse hkept (by decide +kernel) parse_marginRule
    (by decide +kernel) hcontained hafter with ⟨output, read, hrun, hread, hnode⟩
  exact ⟨hparse, output, read, hrun {} (Or.inr (by decide +kernel)), hread, hnode⟩

def quotedRule : Node :=
  paragraphRule (ascii "url(\"javascript:x\")")

def quotedText : Bytes :=
  ascii "p\x7bb:url(\"javascript:x\")\x7dhtml\x7bmargin:0\x7d"

def swallowedRule : Node :=
  ⟨.rule (ascii "p") none,
    [⟨.declaration (ascii "b") (ascii "x\")\x7dhtml\x7bmargin:0\x7d\"") false, []⟩]⟩

theorem cut_reaches_next_rule :
    ∃ output read,
      Sheet.parse { mode := .strict } quotedText = .ok [quotedRule, marginRule] ∧
      keptNodes cardFacts [quotedRule, marginRule] = [quotedRule, marginRule] ∧
      sanitize marginRule.write = marginRule.write ∧
      Sheet.parse { mode := .lenient } marginRule.write = .ok [marginRule.mapHeads Head.unread] ∧
      (marginRule.mapHeads Head.unread).write = marginRule.write ∧
      (run {} cardFacts quotedText).1 = .ok output ∧
      Sheet.parse { mode := .lenient } output.css = .ok read ∧
      ∀ node' ∈ read, node'.write ≠ marginRule.write := by
  have hparse : Sheet.parse { mode := .strict } quotedText = .ok [quotedRule, marginRule] :=
    eq_ok_of_toOption (by decide +kernel)
  refine ⟨outputOf cardFacts [quotedRule, marginRule], [swallowedRule], hparse, ?_, ?_,
    parse_marginRule, ?_, ?_, ?_, ?_⟩
  · decide +kernel
  · decide +kernel
  · decide +kernel
  · exact run_of_parse (Or.inr (by decide +kernel)) (parseWithFallback_of_strict hparse)
  · exact eq_ok_of_toOption (by decide +kernel)
  · decide +kernel

/-- A backslash in one rule makes the second pass look at the other ones. -/
example :
    sanitize (ascii "p\x7bb:@import\"javascript:x\"\x7d") =
        ascii "p\x7bb:@import\"javascript:x\"\x7d" ∧
      sanitize (ascii "a\x7bb:\\63\x7dp\x7bb:@import\"javascript:x\"\x7d") =
        ascii "a\x7bb:\\63\x7dp\x7bb:@import/* [sanitized] */\x7d" := by
  decide +kernel

end Filter
end StyleTrim
