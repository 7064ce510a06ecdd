import StyleTrim.Proofs.Selector.Grammar
import StyleTrim.Proofs.Token.Rewritten

/-!
# Selectors without the white space that a prelude drops

In the prelude of an at-rule white space goes behind an opening parenthesis, before a closing one
and around a colon. `tighten` takes it out of a run of tokens. In a selector it means nothing there,
except where it stands for a combinator in front of a colon: `glue` puts such a compound selector
together with the one before it. The tight tokens are read as the glued selectors.
-/

namespace StyleTrim
namespace Grammar

open Token Simple Selector

/-!
## Tight tokens
-/

def drops (left : Option Token) (t : Token) : Bool :=
  left.any (fun l => l.opensGroup || l.kind == .colon) || t.kind == .rightParen || t.kind == .colon

def tighten (left : Option Token) : List Token -> List Token
  | [] => []
  | t :: ts =>
      if t.kind = .whitespace then
        if (firstVisible ts).any (drops left) then tighten left ts else t :: tighten left ts
      else t :: tighten (some t) ts

variable {left : Option Token} {t : Token} {ts rest gap : List Token} {s : Simple}

theorem tighten_visible (h : t.kind ≠ .whitespace) (left : Option Token) (ts : List Token) :
    tighten left (t :: ts) = t :: tighten (some t) ts := by
  rw [tighten, if_neg h]

theorem firstVisible_gap (h : IsGap gap) (ts : List Token) :
    firstVisible (gap ++ ts) = firstVisible ts := by
  have hnone : firstVisible gap = none := by
    rw [firstVisible, List.find?_eq_none]
    intro w hw
    simp [h w hw]
  rw [firstVisible_append, hnone, Option.none_or]

theorem firstVisible_visible (h : t.kind ≠ .whitespace) (ts : List Token) :
    firstVisible (t :: ts) = some t :=
  List.find?_cons_of_pos (by simpa using h)

theorem tighten_gap (h : IsGap gap) (left : Option Token) (ts : List Token) :
    tighten left (gap ++ ts) =
      (if (firstVisible ts).any (drops left) then [] else gap) ++ tighten left ts := by
  induction gap with
  | nil => simp
  | cons w gap ih =>
      have hgap : IsGap gap := fun v hv => h v (List.mem_cons_of_mem _ hv)
      rw [List.cons_append, tighten, if_pos (h w List.mem_cons_self), firstVisible_gap hgap,
        ih hgap]
      split <;> rfl

theorem exists_tighten_gap (h : IsGap gap) (left : Option Token) (ts : List Token) :
    ∃ gap', IsGap gap' ∧ tighten left (gap ++ ts) = gap' ++ tighten left ts := by
  rw [tighten_gap h]
  split
  · exact ⟨[], nofun, rfl⟩
  · exact ⟨gap, h, rfl⟩

theorem tighten_append {v : Token} (hv : v.kind ≠ .whitespace) (left : Option Token)
    (front ts : List Token) :
    tighten left (front ++ v :: ts) = tighten left (front ++ [v]) ++ tighten (some v) ts := by
  induction front generalizing left with
  | nil => simp [tighten_visible hv, tighten]
  | cons t front ih =>
      have hfirst : firstVisible (front ++ v :: ts) = firstVisible (front ++ [v]) := by
        rw [firstVisible_append, firstVisible_append, firstVisible_visible hv,
          firstVisible_visible hv]
      rw [List.cons_append, List.cons_append, tighten, tighten, hfirst, ih, ih]
      split
      · split <;> rfl
      · rfl

def Quiet (left : Option Token) : Prop :=
  ∀ l ∈ left, l.opensGroup = false ∧ l.kind ≠ .colon

theorem Quiet.none : Quiet none :=
  nofun

theorem Quiet.drops (h : Quiet left) (t : Token) :
    drops left t = (t.kind == .rightParen || t.kind == .colon) := by
  have hno : left.any (fun l => l.opensGroup || l.kind == .colon) = false := by
    cases left with
    | none => rfl
    | some l =>
        rcases h l rfl with ⟨hopens, hcolon⟩
        simp [hopens, hcolon]
  rw [Grammar.drops, hno, Bool.false_or]

def Plain (t : Token) : Prop :=
  t.opensGroup = false ∧ t.kind ≠ .colon ∧ t.kind ≠ .rightParen

theorem plain_of_kind {kind : TokenKind} (hkind : t.kind = kind)
    (h : kind ≠ .leftParen ∧ kind ≠ .function ∧ kind ≠ .colon ∧ kind ≠ .rightParen) : Plain t := by
  subst hkind
  exact ⟨by simp [opensGroup, h], h.2.2⟩

theorem tighten_plain (h : ∀ t ∈ ts, Plain t) (hquiet : Quiet left) : tighten left ts = ts := by
  induction ts generalizing left with
  | nil => rfl
  | cons t ts ih =>
      have hts : ∀ u ∈ ts, Plain u := fun u hu => h u (List.mem_cons_of_mem _ hu)
      rw [tighten]
      split
      · have hkeep : (firstVisible ts).any (drops left) = false := by
          rw [Option.any_eq_false]
          intro u hu
          have hplain := hts u (List.mem_of_find?_eq_some hu)
          simp [hquiet.drops, hplain.2.1, hplain.2.2]
        rw [hkeep, if_neg Bool.false_ne_true, ih hts hquiet]
      · have hplain := h t List.mem_cons_self
        rw [ih hts]
        rintro l ⟨⟩
        exact ⟨hplain.1, hplain.2.1⟩

/-!
## Simple selectors
-/

def Blank (ts : List Token) : Prop :=
  ∀ w ∈ ts, w.kind = .whitespace -> w.raw.all Byte.isSpace = true

theorem blank_cons : Blank (t :: ts) ↔
    (t.kind = .whitespace -> t.raw.all Byte.isSpace = true) ∧ Blank ts :=
  List.forall_mem_cons

theorem blank_append : Blank (ts ++ rest) ↔ Blank ts ∧ Blank rest :=
  List.forall_mem_append

def isPseudo : Simple -> Bool
  | .pseudoClass _ _ => true
  | .pseudoElement _ _ => true
  | _ => false

theorem isPseudo_squeeze (s : Simple) : isPseudo s.squeeze = isPseudo s := by
  cases s <;> rfl

theorem namesElement_squeeze (s : Simple) : namesElement s.squeeze = namesElement s := by
  cases s <;> rfl

theorem squeeze_eq_nesting (s : Simple) : s.squeeze = .nesting ↔ s = .nesting := by
  cases s <;> simp [Simple.squeeze]

def startsColon (ts : List Token) : Bool :=
  named (fun t => t.kind == .colon) ts

theorem isPseudo_pseudoOf (doubled : Bool) (name : Bytes) :
    isPseudo (pseudoOf doubled name) = true := by
  rw [pseudoOf]
  split <;> rfl

theorem isPseudo_functionOf (doubled : Bool) (name argument : Bytes) :
    isPseudo (functionOf doubled name argument) = true := by
  rw [functionOf]
  split <;> rfl

theorem squeeze_functionOf {argument argument' : Bytes} (doubled : Bool) (name : Bytes)
    (h : squeeze argument' = squeeze argument) :
    (functionOf doubled name argument').squeeze = (functionOf doubled name argument).squeeze := by
  rw [functionOf, functionOf]
  split <;> simp [Simple.squeeze, h]

theorem kind_of_isElement (h : isElement t = true) : t.kind = .ident ∨ t.kind = .delim :=
  (isElement_cases h).imp_right kind_of_isDelim

theorem plain_of_isDelim {b : UInt8} (h : t.isDelim b = true) : Plain t :=
  plain_of_kind (kind_of_isDelim h) (by decide)

theorem plain_of_isElement (h : isElement t = true) : Plain t := by
  rcases kind_of_isElement h with hkind | hkind
  · exact plain_of_kind hkind (by decide)
  · exact plain_of_kind hkind (by decide)

theorem Prefix.plain {front : List Token} (h : Prefix front) : ∀ t ∈ front, Plain t := by
  cases h with
  | nothing => nofun
  | bar hbar => exact List.forall_mem_singleton.mpr (plain_of_isDelim hbar)
  | named hspace hbar =>
      rw [List.forall_mem_cons, List.forall_mem_singleton]
      exact ⟨plain_of_isElement hspace, plain_of_isDelim hbar⟩

theorem IsGap.plain (h : IsGap gap) : ∀ t ∈ gap, Plain t :=
  fun t ht => plain_of_kind (h t ht) (by decide)

theorem SpellsOperator.plain {op : List Token} {operator : AttributeOperator}
    (h : SpellsOperator op operator) : ∀ t ∈ op, Plain t := by
  cases h with
  | equals heq => exact List.forall_mem_singleton.mpr (plain_of_isDelim heq)
  | signed hkind _ heq =>
      rw [List.forall_mem_cons, List.forall_mem_singleton]
      exact ⟨plain_of_kind hkind (by decide), plain_of_isDelim heq⟩

theorem CaseMark.plain {mark : List Token} (h : CaseMark mark) : ∀ t ∈ mark, Plain t := by
  cases h with
  | nothing => nofun
  | mark hmark hgap =>
      simp only [isCaseMark, Bool.and_eq_true, beq_iff_eq] at hmark
      exact List.forall_mem_cons.mpr ⟨plain_of_kind hmark.1 (by decide), hgap.plain⟩

theorem SpellsTest.plain {test : List Token} {meaning : Option (AttributeOperator × Bytes)}
    (h : SpellsTest test meaning) : ∀ t ∈ test, Plain t := by
  cases h with
  | nothing => nofun
  | test hop hgap hvalue hgap' hmark =>
      rename_i op gap gap' mark value operator
      have hplain : Plain value := by
        rcases isAttributeValue_kind hvalue with hkind | hkind | hkind | hkind <;>
          exact plain_of_kind hkind (by decide)
      simp only [List.forall_mem_append, List.forall_mem_cons]
      exact ⟨hop.plain, hgap.plain, hplain, hgap'.plain, hmark.plain⟩

theorem Colons.tighten {doubled : Bool} {colons : List Token} (h : Colons doubled colons)
    {name : Token} (hname : name.kind ≠ .whitespace) (left : Option Token) (ts : List Token) :
    tighten left (colons ++ name :: ts) = colons ++ name :: Grammar.tighten (some name) ts := by
  cases h with
  | one hcolon => simp [Grammar.tighten, hcolon, hname]
  | two hcolon hcolon' => simp [Grammar.tighten, hcolon, hcolon', hname]

theorem Closes.tighten {depth : Nat} {inside : List Token} {close : Token}
    (h : Closes depth inside) (hblank : Blank inside) (hclose : close.kind = .rightParen)
    (left : Option Token) :
    ∃ inside', tighten left (inside ++ [close]) = inside' ++ [close] ∧ Closes depth inside' ∧
      squeeze (textOf inside') = squeeze (textOf inside) := by
  have hkeep : ∀ {t : Token} {ts ts' : List Token}, squeeze (textOf ts') = squeeze (textOf ts) ->
      squeeze (textOf (t :: ts')) = squeeze (textOf (t :: ts)) := by
    intro t ts ts' hts
    simp only [textOf, List.flatMap_cons, squeeze_append] at hts ⊢
    rw [hts]
  have hvisible : ∀ {depth : Nat} {left : Option Token} {t : Token} {ts ts' : List Token},
      t.kind ≠ .whitespace -> Grammar.tighten (some t) (ts ++ [close]) = ts' ++ [close] ->
      Closes depth (t :: ts') -> squeeze (textOf ts') = squeeze (textOf ts) ->
      ∃ inside', Grammar.tighten left (t :: ts ++ [close]) = inside' ++ [close] ∧
        Closes depth inside' ∧ squeeze (textOf inside') = squeeze (textOf (t :: ts)) := by
    intro depth left t ts ts' hspace htight hcloses htext
    refine ⟨t :: ts', ?_, hcloses, hkeep htext⟩
    rw [List.cons_append, tighten_visible hspace, htight]
    rfl
  induction h generalizing left with
  | done =>
      refine ⟨[], ?_, .done, rfl⟩
      simp [Grammar.tighten, hclose]
  | inner hopen hmore ih =>
      rcases ih (blank_cons.mp hblank).2 (some _) with ⟨ts', htight, hcloses, htext⟩
      refine hvisible ?_ htight (.inner hopen hcloses) htext
      rcases hopen with hkind | hkind <;> simp [hkind]
  | outer hkind hmore ih =>
      rcases ih (blank_cons.mp hblank).2 (some _) with ⟨ts', htight, hcloses, htext⟩
      exact hvisible (by simp [hkind]) htight (.outer hkind hcloses) htext
  | other hplain hmore ih =>
      rename_i depth t ts
      rcases blank_cons.mp hblank with ⟨hspaces, hblank⟩
      by_cases hspace : t.kind = .whitespace
      · rcases ih hblank left with ⟨ts', htight, hcloses, htext⟩
        rw [List.cons_append, Grammar.tighten, if_pos hspace, htight]
        split
        · refine ⟨ts', rfl, hcloses, ?_⟩
          have hnone : squeeze t.raw = [] := squeeze_space (hspaces hspace)
          simp only [textOf, List.flatMap_cons, squeeze_append, hnone] at htext ⊢
          exact htext
        · exact ⟨t :: ts', rfl, .other hplain hcloses, hkeep htext⟩
      · rcases ih hblank (some t) with ⟨ts', htight, hcloses, htext⟩
        exact hvisible hspace htight (.other hplain hcloses) htext

theorem Spells.startsColon_eq {run : List Token} (h : Spells run s) :
    startsColon run = isPseudo s := by
  have helement : ∀ {t : Token} {more : List Token}, t.kind = .ident ∨ t.kind = .delim ->
      startsColon (t :: more) = false := by
    rintro t more (hkind | hkind) <;> simp [startsColon, named, hkind]
  have hcolons : ∀ {doubled : Bool} {colons more : List Token}, Colons doubled colons ->
      startsColon (colons ++ more) = true := by
    intro doubled colons more hcolons
    cases hcolons with
    | one hcolon => simp [startsColon, named, hcolon]
    | two hcolon _ => simp [startsColon, named, hcolon]
  cases h with
  | element hns hname =>
      rename_i front name
      have hplain : isPseudo (elementOf name) = false := by
        rw [elementOf]
        split <;> rfl
      rw [hplain]
      cases hns with
      | nothing => exact helement (kind_of_isElement hname)
      | bar hbar => exact helement (Or.inr (kind_of_isDelim hbar))
      | named hspace _ => exact helement (kind_of_isElement hspace)
  | nesting hsign => exact helement (Or.inr (kind_of_isDelim hsign))
  | className hpoint _ => exact helement (Or.inr (kind_of_isDelim hpoint))
  | id hhash => simp [startsColon, named, hhash, isPseudo]
  | brackets hbracket => simp [startsColon, named, hbracket, isPseudo]
  | pseudo hcolons' hname => rw [hcolons hcolons', isPseudo_pseudoOf]
  | function hcolons' hname hargument hclose => rw [hcolons hcolons', isPseudo_functionOf]

def IsLast (v : Token) : Prop :=
  v.kind = .ident ∨ v.kind = .delim ∨ v.kind = .hash ∨ v.kind = .rightBracket ∨ v.kind = .rightParen

theorem IsLast.visible {v : Token} (h : IsLast v) : v.kind ≠ .whitespace := by
  rcases h with hkind | hkind | hkind | hkind | hkind <;> simp [hkind]

theorem IsLast.quiet {v : Token} (h : IsLast v) : Quiet (some v) := by
  rintro l ⟨⟩
  rcases h with hkind | hkind | hkind | hkind | hkind <;> simp [opensGroup, hkind]

theorem Spells.last {run : List Token} (h : Spells run s) :
    ∃ front v, run = front ++ [v] ∧ IsLast v := by
  cases h with
  | element hns hname => exact ⟨_, _, rfl, (kind_of_isElement hname).imp_right Or.inl⟩
  | nesting hsign => exact ⟨[], _, rfl, Or.inr (Or.inl (kind_of_isDelim hsign))⟩
  | className _ hname => exact ⟨[_], _, rfl, Or.inl hname⟩
  | id hhash => exact ⟨[], _, rfl, Or.inr (Or.inr (Or.inl hhash))⟩
  | brackets _ _ _ _ _ _ hclose =>
      rename_i bracket name close gap front gap' test meaning _ _ _ _ _ _
      refine ⟨bracket :: (gap ++ (front ++ name :: (gap' ++ test))), close, by simp, ?_⟩
      exact Or.inr (Or.inr (Or.inr (Or.inl hclose)))
  | pseudo _ hname => exact ⟨_, _, rfl, Or.inl hname⟩
  | function _ _ _ hclose =>
      rename_i doubled colons argument name close _ _ _
      refine ⟨colons ++ name :: argument, close, by simp, ?_⟩
      exact Or.inr (Or.inr (Or.inr (Or.inr hclose)))

structure Alike (run run' : List Token) (s s' : Simple) : Prop where
  spells : Spells run' s'
  squeeze : s'.squeeze = s.squeeze
  bar : startsBar run' = startsBar run
  bare : isBare run' = isBare run

theorem Spells.alike {run : List Token} (h : Spells run s) : Alike run run s s :=
  ⟨h, rfl, rfl, rfl⟩

theorem Spells.tighten {run : List Token} (h : Spells run s) (hblank : Blank run)
    (left : Option Token) : ∃ s', Alike run (tighten left run) s s' := by
  -- Only behind a colon and in an argument can white space be dropped; other runs stay as they are.
  have hsame : (∀ t ∈ run, Plain t) -> ∃ s', Alike run (Grammar.tighten left run) s s' := by
    intro hplain
    rcases h.startsCompound with ⟨t, more, rfl, hstarts⟩
    rw [List.forall_mem_cons] at hplain
    have hquiet : Quiet (some t) := by
      rintro l ⟨⟩
      exact ⟨hplain.1.1, hplain.1.2.1⟩
    rw [tighten_visible (startsCompound_kind hstarts).1, tighten_plain hplain.2 hquiet]
    exact ⟨s, h.alike⟩
  have hcopy := h
  cases h with
  | element hns hname =>
      apply hsame
      rw [List.forall_mem_append, List.forall_mem_singleton]
      exact ⟨hns.plain, plain_of_isElement hname⟩
  | nesting hsign => exact hsame (List.forall_mem_singleton.mpr (plain_of_isDelim hsign))
  | className hpoint hname =>
      apply hsame
      rw [List.forall_mem_cons, List.forall_mem_singleton]
      exact ⟨plain_of_isDelim hpoint, plain_of_kind hname (by decide)⟩
  | id hhash => exact hsame (List.forall_mem_singleton.mpr (plain_of_kind hhash (by decide)))
  | brackets hbracket hgap hns hname hgap' htest hclose =>
      apply hsame
      simp only [List.forall_mem_cons, List.forall_mem_append]
      exact ⟨plain_of_kind hbracket (by decide), hgap.plain, hns.plain,
        plain_of_kind hname (by decide), hgap'.plain, htest.plain,
        plain_of_kind hclose (by decide), nofun⟩
  | pseudo hcolons hname =>
      rw [hcolons.tighten (by simp [hname])]
      exact ⟨_, hcopy.alike⟩
  | function hcolons hname hargument hclose =>
      rename_i doubled colons argument name close
      simp only [blank_append, blank_cons] at hblank
      rcases hargument.tighten hblank.2.2.1 hclose (some name) with
        ⟨argument', htight, hcloses, htext⟩
      rw [hcolons.tighten (by simp [hname]), htight]
      refine ⟨_, .function hcolons hname hcloses hclose, squeeze_functionOf _ _ htext, ?_, ?_⟩
      · cases hcolons <;> rfl
      · cases hcolons with
        | one hcolon => simp [isBare, named, isElement, Token.isDelim, hcolon]
        | two hcolon _ => simp [isBare, named, isElement, Token.isDelim, hcolon]

/-!
## Compound selectors
-/

def Run.Alike (a b : Run) : Prop :=
  Grammar.Alike a.tokens b.tokens a.simple b.simple

theorem Run.Fits.alike {a b a' b' : Run} (h : a.Fits b) (ha : a.Alike a') (hb : b.Alike b') :
    a'.Fits b' := by
  constructor
  · intro hnames
    rw [← namesElement_squeeze, hb.squeeze, namesElement_squeeze] at hnames
    rcases h.element hnames with hbar | hnesting
    · exact Or.inl (hb.bar.trans hbar)
    · right
      rw [← squeeze_eq_nesting, ha.squeeze, hnesting]
      rfl
  · intro hbar
    rw [ha.bare]
    exact h.bar (hb.bar.symm.trans hbar)

theorem fits_alike {runs runs' : List Run} (h : runs.IsChain Run.Fits)
    (halike : List.Forall₂ Run.Alike runs runs') : runs'.IsChain Run.Fits := by
  induction halike with
  | nil => exact .nil
  | cons hfirst hmore ih =>
      rename_i a a' runs runs'
      rw [List.isChain_cons] at h ⊢
      refine ⟨?_, ih h.2⟩
      cases hmore with
      | nil => nofun
      | cons hnext _ =>
          rintro b' ⟨⟩
          exact (h.1 _ rfl).alike hfirst hnext

theorem squeeze_alike {runs runs' : List Run} (h : List.Forall₂ Run.Alike runs runs') :
    Compound.squeeze (simplesOf runs') = Compound.squeeze (simplesOf runs) := by
  induction h with
  | nil => rfl
  | cons hfirst _ ih =>
      simp only [Compound.squeeze, simplesOf_cons, List.map_cons] at ih ⊢
      rw [ih, hfirst.squeeze]

theorem tighten_runs (runs : List Run) (hblank : Blank (tokensOf runs)) (hquiet : Quiet left)
    (rest : List Token) :
    ∃ runs' last, List.Forall₂ Run.Alike runs runs' ∧ Quiet last ∧
      tighten left (tokensOf runs ++ rest) = tokensOf runs' ++ tighten last rest := by
  induction runs generalizing left with
  | nil => exact ⟨[], left, .nil, hquiet, rfl⟩
  | cons run runs ih =>
      rw [tokensOf_cons, blank_append] at hblank
      rcases run.spells.last with ⟨front, v, hrun, hv⟩
      rcases run.spells.tighten hblank.1 left with ⟨s', halike⟩
      rcases ih hblank.2 hv.quiet with ⟨runs', last, hruns, hlast, htight⟩
      have hsplit : tighten left (run.tokens ++ (tokensOf runs ++ rest)) =
          tighten left run.tokens ++ tighten (some v) (tokensOf runs ++ rest) := by
        rw [hrun, List.append_assoc, List.singleton_append, tighten_append hv.visible]
      refine ⟨⟨_, s', halike.spells⟩ :: runs', last, .cons halike hruns, hlast, ?_⟩
      rw [tokensOf_cons, tokensOf_cons, List.append_assoc, List.append_assoc, hsplit, htight]

/-!
## Glued selectors
-/

def startsPseudo (c : Compound) : Bool :=
  c.head?.any isPseudo

/-- The parts where a compound selector that begins with a pseudo-class, behind white space, is put
together with the one before it; what stands before the first part comes first. -/
def glueParts : Parts -> Compound × Parts
  | [] => ([], [])
  | (c, compound) :: more =>
      let glued := glueParts more
      if c = .descendant ∧ startsPseudo compound = true then (compound ++ glued.1, glued.2)
      else ([], (c, compound ++ glued.1) :: glued.2)

def glueComplex (c : Complex) : Complex :=
  ⟨c.first ++ (glueParts c.more).1, (glueParts c.more).2⟩

def glue (list : SelectorList) : SelectorList :=
  list.map glueComplex

/-- White space stands for a combinator in front of a pseudo-class or a pseudo-element. -/
def joinsPseudo (c : Complex) : Bool :=
  c.more.any fun part => part.1 == .descendant && startsPseudo part.2

theorem glueParts_length (parts : Parts) :
    (glueParts parts).2.length ≤ parts.length ∧
      ((glueParts parts).2.length = parts.length ->
        parts.any (fun part => part.1 == .descendant && startsPseudo part.2) = false) := by
  induction parts with
  | nil => exact ⟨Nat.le_refl _, fun _ => rfl⟩
  | cons part parts ih =>
      rcases part with ⟨c, compound⟩
      rw [glueParts]
      split
      · refine ⟨Nat.le_succ_of_le ih.1, fun heq => ?_⟩
        have hle := ih.1
        rw [heq, List.length_cons] at hle
        omega
      · rename_i hno
        refine ⟨Nat.succ_le_succ ih.1, fun heq => ?_⟩
        have hmore := ih.2 (Nat.succ.inj heq)
        rw [List.any_cons, hmore, Bool.or_false, Bool.eq_false_iff]
        simpa using hno

theorem glueParts_of_none {parts : Parts}
    (h : parts.any (fun part => part.1 == .descendant && startsPseudo part.2) = false) :
    glueParts parts = ([], parts) := by
  induction parts with
  | nil => rfl
  | cons part parts ih =>
      rcases part with ⟨c, compound⟩
      rw [List.any_cons, Bool.or_eq_false_iff] at h
      have hno : ¬(c = .descendant ∧ startsPseudo compound = true) := by
        simpa using h.1
      rw [glueParts, ih h.2]
      simp [hno]

theorem squeeze_glueComplex (c : Complex) :
    (glueComplex c).squeeze = c.squeeze ↔ joinsPseudo c = false := by
  constructor
  · intro h
    have hlength := congrArg (fun c => c.more.length) h
    simp only [Complex.squeeze, glueComplex, List.length_map] at hlength
    exact (glueParts_length c.more).2 hlength
  · intro h
    rw [glueComplex, glueParts_of_none h, List.append_nil]

theorem squeeze_glue (list : SelectorList) :
    (glue list).squeeze = list.squeeze ↔ ∀ c ∈ list, joinsPseudo c = false := by
  simp only [glue, SelectorList.squeeze, List.map_map]
  rw [List.map_inj_left]
  exact forall₂_congr fun c _ => squeeze_glueComplex c

/-!
## Reading the tight tokens
-/

theorem squeeze_compound_append (c d : Compound) :
    Compound.squeeze (c ++ d) = Compound.squeeze c ++ Compound.squeeze d :=
  List.map_append

/-- The runs go on with the compound selector in front of the parts, and the tokens are the parts
that are left. -/
structure Glued (parts : Parts) (runs : List Run) (us : List Token) : Prop where
  fits : runs.IsChain Run.Fits
  pseudo : ∀ run ∈ runs.head?, isPseudo run.simple = true
  front : Compound.squeeze (simplesOf runs) = Compound.squeeze (glueParts parts).1
  more : ∃ parts', SpellsParts us parts' ∧ Parts.squeeze parts' = Parts.squeeze (glueParts parts).2

theorem fits_of_isPseudo (a : Run) {b : Run} (h : isPseudo b.simple = true) : a.Fits b := by
  have hno : namesElement b.simple = false := by
    cases hs : b.simple <;> simp [hs, isPseudo, namesElement] at h ⊢
  constructor
  · intro hnames
    rw [hno] at hnames
    cases hnames
  · intro hbar
    rw [b.spells.namesElement_of_startsBar hbar] at hno
    cases hno

variable {runs runs' more : List Run} {parts : Parts} {us : List Token}

theorem Row.alike (h : Row runs) (halike : List.Forall₂ Run.Alike runs runs') : Row runs' := by
  refine ⟨?_, fits_alike h.fits halike⟩
  rintro rfl
  cases halike
  exact h.nonempty rfl

theorem Glued.row (h : Glued parts more us) (hrow : Row runs) : Row (runs ++ more) := by
  refine ⟨by simp [hrow.nonempty], ?_⟩
  rw [List.isChain_append]
  exact ⟨hrow.fits, h.fits, fun a _ b hb => fits_of_isPseudo a (h.pseudo b hb)⟩

theorem Glued.compound (h : Glued parts more us) (halike : List.Forall₂ Run.Alike runs runs') :
    Compound.squeeze (simplesOf (runs' ++ more)) =
      Compound.squeeze (simplesOf runs ++ (glueParts parts).1) := by
  rw [simplesOf_append, squeeze_compound_append, squeeze_compound_append, squeeze_alike halike,
    h.front]

theorem Glued.part {join : List Token} {c : Combinator} (h : Glued parts more us)
    (hjoin : Joins join c) (hrow : Row runs) (halike : List.Forall₂ Run.Alike runs runs')
    (hno : ¬(c = .descendant ∧ startsPseudo (simplesOf runs) = true)) :
    Glued ((c, simplesOf runs) :: parts) [] (join ++ (tokensOf (runs' ++ more) ++ us)) := by
  rcases h.more with ⟨parts', hspells, hparts⟩
  refine ⟨.nil, nofun, ?_, _, .cons hjoin (h.row (hrow.alike halike)) hspells, ?_⟩
  · rw [glueParts, if_neg hno]
    rfl
  · rw [glueParts, if_neg hno]
    simp only [Parts.squeeze, List.map_cons] at hparts ⊢
    rw [hparts, h.compound halike]

theorem Glued.pseudoPart (h : Glued parts more us) (hrow : Row runs)
    (halike : List.Forall₂ Run.Alike runs runs') (hpseudo : startsPseudo (simplesOf runs) = true) :
    Glued ((.descendant, simplesOf runs) :: parts) (runs' ++ more) us := by
  have hglue : glueParts ((.descendant, simplesOf runs) :: parts) =
      (simplesOf runs ++ (glueParts parts).1, (glueParts parts).2) := by
    rw [glueParts, if_pos ⟨rfl, hpseudo⟩]
  refine ⟨(h.row (hrow.alike halike)).fits, ?_, ?_, ?_⟩
  · cases halike with
    | nil => exact absurd rfl hrow.nonempty
    | cons hfirst _ =>
        rintro run ⟨⟩
        rw [← isPseudo_squeeze, hfirst.squeeze, isPseudo_squeeze]
        exact hpseudo
  · rw [hglue]
    exact h.compound halike
  · rw [hglue]
    exact h.more

theorem Row.front (h : Row runs) :
    ∃ t ts, tokensOf runs = t :: ts ∧ Selector.startsCompound t = true ∧
      (t.kind == .colon) = startsPseudo (simplesOf runs) := by
  cases runs with
  | nil => exact absurd rfl h.nonempty
  | cons run runs =>
      rcases run.spells.startsCompound with ⟨t, ts, hrun, hstarts⟩
      have hcolon := run.spells.startsColon_eq
      rw [hrun] at hcolon
      exact ⟨t, ts ++ tokensOf runs, by rw [tokensOf_cons, hrun]; rfl, hstarts, hcolon⟩

theorem Row.tighten_gap (h : Row runs) (hgap : IsGap gap) (hquiet : Quiet left) (ts : List Token) :
    tighten left (gap ++ (tokensOf runs ++ ts)) =
      (if startsPseudo (simplesOf runs) = true then [] else gap) ++
        tighten left (tokensOf runs ++ ts) := by
  rcases h.front with ⟨t, us, htokens, hstarts, hcolon⟩
  have hparen : t.kind ≠ .rightParen := by
    intro hkind
    simp [Selector.startsCompound, Token.isDelim, hkind] at hstarts
  have hdrops : drops left t = startsPseudo (simplesOf runs) := by
    rw [hquiet.drops, hcolon, beq_eq_false_iff_ne.mpr hparen, Bool.false_or]
  rw [Grammar.tighten_gap hgap, htokens, List.cons_append,
    firstVisible_visible (startsCompound_kind hstarts).1, Option.any_some, hdrops]

theorem not_descendant {c : Combinator} (h : combinatorOf? t = some c) : c ≠ .descendant := by
  unfold combinatorOf? at h
  rintro rfl
  split at h
  · cases h
  · split at h
    · cases h
    · split at h <;> cases h

theorem quiet_of_sign {c : Combinator} (h : combinatorOf? t = some c) : Quiet (some t) := by
  rintro l ⟨⟩
  simp [opensGroup, (combinatorOf?_kind h).1]

theorem tighten_parts (h : SpellsParts ts parts) (hblank : Blank ts) (hquiet : Quiet left)
    (rest : List Token) :
    ∃ more us last, Glued parts more us ∧ Quiet last ∧
      tighten left (ts ++ rest) = tokensOf more ++ (us ++ tighten last rest) := by
  induction h generalizing left with
  | nil => exact ⟨[], [], left, ⟨.nil, nofun, rfl, [], .nil, rfl⟩, hquiet, rfl⟩
  | cons hjoin hrow hmore ih =>
      rename_i join ts runs c parts
      simp only [blank_append] at hblank
      have hbehind : ∀ {left : Option Token}, Quiet left ->
          ∃ runs' more us last, List.Forall₂ Run.Alike runs runs' ∧ Glued parts more us ∧
            Quiet last ∧ tighten left (tokensOf runs ++ (ts ++ rest)) =
              tokensOf (runs' ++ more) ++ (us ++ tighten last rest) := by
        intro left hquiet
        rcases tighten_runs runs hblank.2.1 hquiet (ts ++ rest) with
          ⟨runs', middle, halike, hmiddle, hruns⟩
        rcases ih hblank.2.2 hmiddle with ⟨more, us, last, hglued, hlast, hparts⟩
        refine ⟨runs', more, us, last, halike, hglued, hlast, ?_⟩
        rw [hruns, hparts, tokensOf_append, List.append_assoc]
      have hassoc : join ++ (tokensOf runs ++ ts) ++ rest =
          join ++ (tokensOf runs ++ (ts ++ rest)) := by
        simp
      rw [hassoc]
      -- A sign keeps the part a part; white space does so unless a colon comes next.
      cases hjoin with
      | sign hgap hsign hgap' =>
          rename_i gap gap' sign
          rcases hbehind (quiet_of_sign hsign) with
            ⟨runs', more, us, last, halike, hglued, hlast, htight⟩
          rcases exists_tighten_gap hgap left (sign :: (gap' ++ (tokensOf runs ++ (ts ++ rest))))
            with ⟨front, hfront, hfirst⟩
          rcases exists_tighten_gap hgap' (some sign) (tokensOf runs ++ (ts ++ rest))
            with ⟨back, hback, hsecond⟩
          have hno : ¬(c = .descendant ∧ startsPseudo (simplesOf runs) = true) :=
            fun hboth => not_descendant hsign hboth.1
          refine ⟨[], _, last, hglued.part (.sign hfront hsign hback) hrow halike hno, hlast, ?_⟩
          have hkind : sign.kind ≠ .whitespace := by simp [(combinatorOf?_kind hsign).1]
          rw [List.append_assoc, List.cons_append, hfirst, tighten_visible hkind, hsecond, htight]
          simp
      | space hne hgap =>
          rcases hbehind hquiet with ⟨runs', more, us, last, halike, hglued, hlast, htight⟩
          rw [hrow.tighten_gap hgap hquiet, htight]
          split
          · rename_i hpseudo
            exact ⟨runs' ++ more, us, last, hglued.pseudoPart hrow halike hpseudo, hlast, rfl⟩
          · rename_i hno
            have hpart := hglued.part (.space hne hgap) hrow halike fun h => hno h.2
            refine ⟨[], _, last, hpart, hlast, ?_⟩
            simp

/-!
## Lists
-/

theorem tighten_complex {c : Complex} (h : SpellsComplex ts c) (hblank : Blank ts)
    (hquiet : Quiet left) (rest : List Token) :
    ∃ us c' last, SpellsComplex us c' ∧ c'.squeeze = (glueComplex c).squeeze ∧ Quiet last ∧
      tighten left (ts ++ rest) = us ++ tighten last rest := by
  cases h with
  | mk hrow hparts =>
      rename_i runs ts parts
      rw [blank_append] at hblank
      rcases tighten_runs runs hblank.1 hquiet (ts ++ rest) with
        ⟨runs', middle, halike, hmiddle, hruns⟩
      rcases tighten_parts hparts hblank.2 hmiddle rest with
        ⟨more, us, last, hglued, hlast, htight⟩
      rcases hglued.more with ⟨parts', hspells, hmore⟩
      refine ⟨_, _, last, .mk (hglued.row (hrow.alike halike)) hspells, ?_, hlast, ?_⟩
      · simp only [Complex.squeeze, glueComplex]
        rw [hglued.compound halike]
        exact congrArg _ hmore
      · rw [List.append_assoc, hruns, htight, tokensOf_append]
        simp

theorem tighten_list {list : SelectorList} (h : SpellsList ts list) (hblank : Blank ts)
    (hquiet : Quiet left) :
    ∃ list', SpellsList (tighten left ts) list' ∧ list'.squeeze = (glue list).squeeze := by
  induction h generalizing left with
  | last hc hgap =>
      rename_i ts gap c
      rw [blank_append] at hblank
      rcases tighten_complex hc hblank.1 hquiet gap with ⟨us, c', last, hspells, hsame, _, htight⟩
      rcases exists_tighten_gap hgap last [] with ⟨gap', hgap', hback⟩
      rw [List.append_nil] at hback
      rw [htight, hback]
      refine ⟨[c'], .last hspells ?_, ?_⟩
      · simpa [tighten] using hgap'
      · simp [SelectorList.squeeze, glue, hsame]
  | cons hc hgap hcomma hgap' hmore ih =>
      rename_i ts gap gap' us comma c list
      simp only [blank_append, blank_cons] at hblank
      rcases tighten_complex hc hblank.1 hquiet (gap ++ comma :: (gap' ++ us)) with
        ⟨vs, c', last, hspells, hsame, _, htight⟩
      rcases exists_tighten_gap hgap last (comma :: (gap' ++ us)) with ⟨front, hfront, hfirst⟩
      rcases exists_tighten_gap hgap' (some comma) us with ⟨back, hback, hsecond⟩
      have hquiet' : Quiet (some comma) := by
        rintro l ⟨⟩
        simp [opensGroup, hcomma]
      rcases ih hblank.2.2.2.2 hquiet' with ⟨list', hlist, hrest⟩
      rw [htight, hfirst, tighten_visible (by simp [hcomma]), hsecond]
      refine ⟨c' :: list', .cons hspells hfront hcomma hback hlist, ?_⟩
      simp only [SelectorList.squeeze, glue, List.map_cons] at hrest ⊢
      rw [hsame, hrest]

theorem tighten_spelled {list : SelectorList} (h : Spelled ts list) (hblank : Blank ts)
    (left : Option Token) :
    ∃ list', Spelled (tighten left ts) list' ∧ list'.squeeze = (glue list).squeeze := by
  rcases h with ⟨gap, us, hgap, rfl, hspells⟩
  rw [blank_append] at hblank
  rcases exists_tighten_gap hgap left us with ⟨gap', hgap', hfront⟩
  rcases tighten_list hspells hblank.2 Quiet.none with ⟨list', hlist, hsame⟩
  rcases hspells.visible with ⟨t, more, rfl, hvisible⟩
  refine ⟨list', ⟨gap', _, hgap', hfront, ?_⟩, hsame⟩
  rw [tighten_visible hvisible] at hlist ⊢
  exact hlist

end Grammar
end StyleTrim
