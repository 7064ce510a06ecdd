import StyleTrim.Proofs.Merge.Isolation
import StyleTrim.Proofs.Sheet.Joined

/-!
# Cutting an input in two

Where a sheet is cut behind a closing brace, and both parts can be read strictly, the nodes of the
parts are the nodes of the whole. What a merge writes and counts depends on nothing but the nodes,
so it does not matter whether it is given the whole or the parts.
-/

namespace StyleTrim
namespace Merge

/-- The size of a text is within the limit, if there is one. -/
def admits (o : Options) (text : Bytes) : Prop :=
  o.maxBytes = 0 ∨ text.length ≤ o.maxBytes

variable {o : Options}

theorem admits_append {x y : Bytes} (h : admits o (x ++ y)) : admits o x ∧ admits o y := by
  unfold admits at h ⊢
  rw [List.length_append] at h
  omega

theorem accepts_of_strict {input : Input} {sheet : Sheet} (hsize : admits o input.text)
    (h : Sheet.parse { mode := .strict } input.text = .ok sheet) :
    accepts o input = true ∧ acceptedNodes o input = sheet := by
  constructor
  · have hsize' : (o.maxBytes == 0 || decide (input.text.length ≤ o.maxBytes)) = true := by
      simpa [admits] using hsize
    have hlenient : (Sheet.parse { mode := .lenient } input.text).toOption.isSome = true := by
      rw [← Sheet.isSome_parseWithFallback, Sheet.parseWithFallback, h]
      rfl
    rw [accepts, hsize', hlenient, Bool.true_and, Bool.or_true]
  · unfold admits at hsize
    rw [acceptedNodes, if_pos hsize, Sheet.parseWithFallback, h]

/-- Two sheets can be read one behind the other, where the first ends with a closing brace. A merge
of the two is a merge of both in one, but for the number of its inputs. -/
theorem run_cut :
    (∀ (options : Sheet.Options) (x y : Bytes) (front back : Sheet), options.isStrict = true ->
      Sheet.parse options x = .ok front -> Sheet.parse options y = .ok back ->
      Sheet.EndsWithBrace x -> Sheet.parse options (x ++ y) = .ok (front ++ back)) ∧
    (∀ (o : Options) (A B : List Input) (first second both : Input) (front back : Sheet),
      Sheet.parse { mode := .strict } first.text = .ok front ->
      Sheet.parse { mode := .strict } second.text = .ok back ->
      Sheet.EndsWithBrace first.text -> both.text = first.text ++ second.text ->
      admits o both.text ->
      let cut := (run o (A ++ first :: second :: B)).1
      let whole := (run o (A ++ both :: B)).1
      cut.css = whole.css ∧ cut.stats = whole.stats ∧ cut.warnings = whole.warnings ∧
        cut.merged = whole.merged + 1) := by
  refine ⟨fun options x y front back hstrict hx hy hbrace =>
    Sheet.parse_append_of_brace hstrict hx hy hbrace, ?_⟩
  intro o A B first second both front back hfirst hsecond hbrace htext hsize cut whole
  have hboth : Sheet.parse { mode := .strict } both.text = .ok (front ++ back) := by
    rw [htext]
    exact Sheet.parse_append_of_brace rfl hfirst hsecond hbrace
  rcases admits_append (htext ▸ hsize) with ⟨hsizeFirst, hsizeSecond⟩
  rcases accepts_of_strict hsizeFirst hfirst with ⟨hacceptsFirst, hnodesFirst⟩
  rcases accepts_of_strict hsizeSecond hsecond with ⟨hacceptsSecond, hnodesSecond⟩
  rcases accepts_of_strict hsize hboth with ⟨haccepts, hnodes⟩
  have hsame : (A ++ first :: second :: B).flatMap (acceptedNodes o) =
      (A ++ both :: B).flatMap (acceptedNodes o) := by
    simp only [List.flatMap_append, List.flatMap_cons, hnodesFirst, hnodesSecond, hnodes,
      List.append_assoc]
  rcases run_eq_of_nodes hsame with ⟨hcss, hstats⟩
  rcases run_accounts o (A ++ first :: second :: B) with ⟨hmerged, hwarnings⟩
  rcases run_accounts o (A ++ both :: B) with ⟨hmerged', hwarnings'⟩
  refine ⟨hcss, hstats, ?_, ?_⟩
  · rw [hwarnings, hwarnings', List.filterMap_append, List.filterMap_append,
      List.filterMap_cons_none (warning?_of_accepts hacceptsFirst),
      List.filterMap_cons_none (warning?_of_accepts hacceptsSecond),
      List.filterMap_cons_none (warning?_of_accepts haccepts)]
  · rw [hmerged, hmerged', List.countP_append, List.countP_append,
      List.countP_cons_of_pos hacceptsFirst, List.countP_cons_of_pos hacceptsSecond,
      List.countP_cons_of_pos haccepts]
    omega

def ruleText : Bytes :=
  ascii "a\x7bb:c\x7d"

def ruleSheet : Sheet :=
  [⟨.rule (ascii "a") (some [⟨[.element (ascii "a")], []⟩]),
    [⟨.declaration (ascii "b") (ascii "c") false, []⟩]⟩]

def repeatedText : Bytes :=
  ascii "/*\x7b*/" ++ ruleText

theorem run_cut_repeated_rule :
    let o : Options := { maxBytes := 17 }
    let big : Input := ⟨ascii "big", List.replicate 18 0x20⟩
    let cut := (run o [big, ⟨ascii "x", ruleText⟩, ⟨ascii "y", repeatedText⟩]).1
    let whole := (run o [big, ⟨ascii "xy", ruleText ++ repeatedText⟩]).1
    Sheet.parse { mode := .strict } (ruleText ++ repeatedText) = .ok (ruleSheet ++ ruleSheet) ∧
      cut.css = whole.css ∧ cut.stats = whole.stats ∧ cut.warnings = whole.warnings ∧
        cut.merged = 2 ∧ cut.warnings.length = 1 ∧ cut.stats.duplicates = 1 := by
  intro o big cut whole
  have hrule : Sheet.parse { mode := .strict } ruleText = .ok ruleSheet :=
    eq_ok_of_toOption (by decide +kernel)
  have hrepeated : Sheet.parse { mode := .strict } repeatedText = .ok ruleSheet :=
    eq_ok_of_toOption (by decide +kernel)
  have hbrace : Sheet.EndsWithBrace ruleText :=
    ⟨⟨.rightBrace, ascii "\x7d", ascii "\x7d", 5, false, false⟩, by decide +kernel, rfl,
      by decide +kernel⟩
  rcases run_cut.2 o [big] [] ⟨ascii "x", ruleText⟩ ⟨ascii "y", repeatedText⟩
    ⟨ascii "xy", ruleText ++ repeatedText⟩ ruleSheet ruleSheet hrule hrepeated hbrace rfl
    (Or.inr (by decide +kernel)) with ⟨hcss, hstats, hwarnings, hmerged⟩
  exact ⟨run_cut.1 _ _ _ _ _ rfl hrule hrepeated hbrace, hcss, hstats, hwarnings,
    hmerged.trans (by decide +kernel), by decide +kernel, by decide +kernel⟩

end Merge
end StyleTrim
