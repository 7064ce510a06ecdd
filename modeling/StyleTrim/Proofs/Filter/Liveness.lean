import StyleTrim.Filter
import StyleTrim.Proofs.Page.Forest
import StyleTrim.Proofs.Sheet.Compare
import StyleTrim.Proofs.Sheet.Growth

/-!
# No live rule is lost

A rule is live when one of its selectors matches an element of a page that the facts speak of. The
filter keeps every live rule, however the page looks and whatever the selectors mean that the
facts cannot tell. A sheet that was read leniently has no selectors to go by, and keeps all its
rules.
-/

namespace StyleTrim

/-- A selector of the rule matches an element of the forest. -/
def Node.Live (forest : Forest) (holds : Simple -> ElementPath -> Prop) (node : Node) : Prop :=
  ∃ prelude list c path,
    node.head = .rule prelude (some list) ∧ c ∈ list ∧ c.Matches forest holds path

def Head.selectors? : Head -> Option SelectorList
  | .rule _ selectors => selectors
  | _ => none

namespace Sheet

theorem Grown.selectors {o : Options} {seen : Moment -> Prop} {n : Nat} {body : Body}
    {node : Node} (h : Grown o seen n body node) (hbody : body.readsSelectors o = false) :
    node.head.selectors? = none := by
  cases h with
  | statement hseen hat hend => rfl
  | atRule hseen hat hsplit hopen hdepth hchildren => rfl
  | rule hseen hkind hseek hsplit hopen hdepth hchildren =>
      simp [ruleHead, hbody, Head.selectors?]
  | declaration hseen hkind hahead hnode =>
      rcases declaration?_some hnode with ⟨text, important, rfl⟩
      rfl

theorem selectors_of_parse_lenient {s : Bytes} {sheet : Sheet}
    (h : parse { mode := .lenient } s = .ok sheet) :
    ∀ node ∈ sheet, node.head.selectors? = none := by
  intro node hnode
  exact (grown_of_parse h node hnode).selectors rfl

theorem parse_of_parseWithFallback {s : Bytes} {sheet : Sheet}
    (h : (parseWithFallback s).result = .ok sheet) :
    (parse { mode := .strict } s = .ok sheet ∧ (parseWithFallback s).strictError = none) ∨
      (parse { mode := .lenient } s = .ok sheet ∧
        ∃ e, parse { mode := .strict } s = .error e ∧
          (parseWithFallback s).strictError = some e) := by
  unfold parseWithFallback at h ⊢
  cases hstrict : parse { mode := .strict } s with
  | ok strictSheet =>
      rw [hstrict] at h
      exact Or.inl ⟨h, rfl⟩
  | error e =>
      rw [hstrict] at h
      exact Or.inr ⟨h, e, rfl, rfl⟩

end Sheet

namespace Filter

variable {facts : Facts}

theorem keeps_of_selectors_none {head : Head} (h : head.selectors? = none) :
    keeps facts head = true := by
  cases head with
  | rule prelude selectors =>
      obtain rfl : selectors = none := h
      simp [keeps]
  | atRule name prelude block => rfl
  | declaration property value important => rfl

theorem keeps_of_live {forest : Forest} {holds : Simple -> ElementPath -> Prop} {node : Node}
    (hcover : facts.Cover forest) (hlive : node.Live forest holds) :
    keeps facts node.head = true := by
  obtain ⟨prelude, list, c, path, hhead, hmem, hmatch⟩ := hlive
  have hany := SelectorList.mayMatchAny_of_matches hcover hmem hmatch
  simp [hhead, keeps, hany]

theorem mem_keptNodes {sheet : Sheet} {node : Node} :
    node ∈ keptNodes facts sheet ↔ node ∈ sheet ∧ keeps facts node.head = true :=
  List.mem_filter

theorem mem_removedNodes {sheet : Sheet} {node : Node} :
    node ∈ removedNodes facts sheet ↔ node ∈ sheet ∧ keeps facts node.head = false := by
  simp [removedNodes, List.mem_filter]

theorem removed_eq_zero {sheet : Sheet} (h : ∀ node ∈ sheet, keeps facts node.head = true) :
    keptNodes facts sheet = sheet ∧ (statsOf facts sheet).removed = 0 := by
  have hremoved : removedNodes facts sheet = [] := by
    apply List.filter_eq_nil_iff.mpr
    intro node hnode
    simp [h node hnode]
  constructor
  · exact List.filter_eq_self.mpr h
  · simp [statsOf, hremoved, countRules]

/-- The size of the text is within what the options allow. -/
def Options.Admits (o : Options) (css : Bytes) : Prop :=
  o.maxBytes = 0 ∨ css.length ≤ o.maxBytes

theorem parseWithFallback_of_strict {css : Bytes} {sheet : Sheet}
    (h : Sheet.parse { mode := .strict } css = .ok sheet) :
    (Sheet.parseWithFallback css).result = .ok sheet := by
  rw [Sheet.parseWithFallback, h]

theorem run_of_parse {o : Options} {css : Bytes} {sheet : Sheet} (hsize : o.Admits css)
    (hread : (Sheet.parseWithFallback css).result = .ok sheet) :
    (run o facts css).1 = .ok (outputOf facts sheet) := by
  have hfits : ¬ (0 < o.maxBytes ∧ o.maxBytes < css.length) := by
    unfold Options.Admits at hsize
    omega
  simp only [run, if_neg hfits, hread]

theorem run_cases {o : Options} {css : Bytes} {output : Output}
    (h : (run o facts css).1 = .ok output) :
    ∃ sheet, (Sheet.parseWithFallback css).result = .ok sheet ∧ output = outputOf facts sheet := by
  unfold run at h
  split at h
  · cases h
  · dsimp only at h
    split at h
    · cases h
    · rename_i sheet hread
      exact ⟨sheet, hread, (Except.ok.inj h).symm⟩

/-- Every live rule of a sheet that could be read is kept, and the kept rules are what is
written. When strict reading failed, all rules are kept. -/
theorem live_rules_kept {css : Bytes} {sheet : Sheet}
    (hread : (Sheet.parseWithFallback css).result = .ok sheet) :
    (∀ o : Options, o.Admits css ->
      (run o facts css).1 =
        .ok ⟨sanitize (Sheet.write (keptNodes facts sheet)), statsOf facts sheet⟩) ∧
    (∀ (forest : Forest) (holds : Simple -> ElementPath -> Prop), facts.Cover forest ->
      ∀ node ∈ sheet, node.Live forest holds ->
        node ∈ keptNodes facts sheet ∧ node ∉ removedNodes facts sheet) ∧
    ((Sheet.parseWithFallback css).strictError ≠ none ->
      keptNodes facts sheet = sheet ∧ (statsOf facts sheet).removed = 0) := by
  refine ⟨?_, ?_, ?_⟩
  · intro o hsize
    exact run_of_parse hsize hread
  · intro forest holds hcover node hnode hlive
    have hkeeps := keeps_of_live hcover hlive
    constructor
    · exact mem_keptNodes.mpr ⟨hnode, hkeeps⟩
    · intro hremoved
      have hdrops := (mem_removedNodes.mp hremoved).2
      rw [hkeeps] at hdrops
      cases hdrops
  · intro herror
    rcases Sheet.parse_of_parseWithFallback hread with ⟨_, hnone⟩ | ⟨hlenient, _⟩
    · exact absurd hnone herror
    · apply removed_eq_zero
      intro node hnode
      exact keeps_of_selectors_none (Sheet.selectors_of_parse_lenient hlenient node hnode)

def cardPage : Forest :=
  [.node ⟨ascii "div", none, [ascii "card"]⟩ [.node ⟨ascii "P", none, []⟩ []]]

def cardFacts : Facts :=
  ⟨[ascii "div", ascii "p"], [], [ascii "card"], []⟩

def cardRule : Node :=
  ⟨.rule (ascii ".card>p") (some [⟨[.className (ascii "card")],
      [(.child, [.element (ascii "p")])]⟩]),
    [⟨.declaration (ascii "a") (ascii "b") false, []⟩]⟩

def goneRule : Node :=
  ⟨.rule (ascii ".gone") (some [⟨[.className (ascii "gone")], []⟩]), []⟩

theorem live_rules_kept_on_card :
    (Sheet.parseWithFallback (ascii ".card > p{a:b}.gone{}")).result =
        .ok [cardRule, goneRule] ∧
      cardFacts.Cover cardPage ∧ cardRule.Live cardPage (fun _ _ => False) ∧
      cardRule ∈ keptNodes cardFacts [cardRule, goneRule] := by
  have hread : (Sheet.parseWithFallback (ascii ".card > p{a:b}.gone{}")).result =
      .ok [cardRule, goneRule] :=
    eq_ok_of_toOption (by decide +kernel)
  have hcover : cardFacts.Cover cardPage := by
    unfold Facts.Cover
    decide +kernel
  have hlive : cardRule.Live cardPage (fun _ _ => False) := by
    refine ⟨_, _, _, [0, 0], rfl, List.mem_singleton.mpr rfl, [0], ⟨_, rfl, ?_⟩, ?_⟩
    · simp [Simple.HoldsAt, Tree.element]
    · refine .onward ⟨0, rfl⟩ ⟨_, rfl, ?_⟩ (.here _)
      simp only [List.mem_singleton, forall_eq, Simple.HoldsAt, Tree.element]
      decide
  have hkept := (live_rules_kept hread).2.1 cardPage _ hcover cardRule List.mem_cons_self hlive
  exact ⟨hread, hcover, hlive, hkept.1⟩

end Filter
end StyleTrim
