import StyleTrim.Proofs.Selector.Places
import StyleTrim.Proofs.Selector.Preludes
import StyleTrim.Proofs.Selector.Tight
import StyleTrim.Proofs.Token.Enclosed
import StyleTrim.Proofs.Token.Marks

/-!
# Selectors in the prelude of an at-rule

The compact text of a selector list, written as in the prelude of an at-rule behind a parenthesis,
is read as the tight tokens of the list, up to white space that means nothing in a selector. So it
is read as the glued selectors.
-/

namespace StyleTrim
namespace Grammar

open Token Lexeme Simple Selector

variable {left t u : Token} {ts us gap : List Token} {space : Bool} {s : Bytes}

/-!
## No token clashes with the next one
-/

/-- The tokens stand behind `left` in a text without comments, with or without white space in
front. -/
structure Behind (left : Token) (space : Bool) (ts : List Token) : Prop where
  written : left.Written
  beside : space = false -> ∀ t ∈ ts.head?, ∃ s, Shape left.lexeme (t.raw ++ s) ∧ Shape t.lexeme s
  apart : space = true -> left.takesSpace = false

theorem raw_of_mark (h : Shape t.lexeme s)
    (hkind : t.kind = .comma ∨ t.kind = .rightParen ∨ t.kind = .colon) :
    ∃ b, t.raw = [b] ∧ (b = 0x2C ∨ b = 0x29 ∨ b = 0x3A) := by
  rcases hkind with hkind | hkind | hkind
  · exact ⟨0x2C, raw_of_punctuation h rfl hkind, Or.inl rfl⟩
  · exact ⟨0x29, raw_of_punctuation h rfl hkind, Or.inr (Or.inl rfl)⟩
  · exact ⟨0x3A, raw_of_punctuation h rfl hkind, Or.inr (Or.inr rfl)⟩

theorem dropsSpace_prelude (left t : Token) :
    dropsSpace .prelude left t =
      (left.kind == .comma || t.kind == .comma || drops (some left) t) := by
  simp [dropsSpace, drops, Bool.or_assoc, Bool.or_comm, Bool.or_left_comm]

theorem fuses_of_kind (h : left.kind ≠ .ident ∧ left.kind ≠ .number ∧ left.kind ≠ .dimension ∧
    left.kind ≠ .delim) (t : Token) : left.fuses t = false := by
  simp [fuses, Token.isDelim, h]

theorem fuses_of_blunt (hleft : left.Written) (ht : t.Written) (hblunt : Blunt t.raw)
    (hfree : ∀ b ∈ t.raw.head?, Byte.isSpace b = false) : left.fuses t = false := by
  by_cases hfunction : left.kind = .function
  · exact fuses_of_kind (by simp [hfunction]) t
  have hargument : left.kind = .function -> opensAddress left.value t.raw = false :=
    fun hkind => absurd hkind hfunction
  rcases stands_before_blunt hleft hblunt hfree hargument with ⟨m, hm, hstands⟩
  cases hopen : left.isOpen with
  | true =>
      apply fuses_of_kind
      simp only [isOpen, isOpenString, isOpenAddress, Bool.or_eq_true, Bool.and_eq_true,
        beq_iff_eq] at hopen
      rcases hopen with (hkind | ⟨hkind, _⟩) | ⟨hkind | hkind, _⟩ <;> simp [hkind]
  | false =>
      rcases hleft.shape with ⟨v, hshape⟩
      have hsame := hm.same hopen
      have hbefore : Shape m (t.raw ++ []) := by simpa using hstands.shape
      exact fuses_eq_false hshape hbefore (congrArg Lexeme.kind hsame)
        (congrArg Lexeme.raw hsame) ht

theorem fuses_of_dropsSpace (hleft : left.Written) (ht : t.Written)
    (h : dropsSpace .prelude left t = true) : left.fuses t = false := by
  by_cases hfront : left.kind = .comma ∨ left.opensGroup = true ∨ left.kind = .colon
  · have hkinds : left.kind = .comma ∨ left.kind = .leftParen ∨ left.kind = .function ∨
        left.kind = .colon := by
      simpa [opensGroup, or_assoc] using hfront
    apply fuses_of_kind
    rcases hkinds with hkind | hkind | hkind | hkind <;> simp [hkind]
  · have hmark : t.kind = .comma ∨ t.kind = .rightParen ∨ t.kind = .colon := by
      simp only [not_or, Bool.not_eq_true] at hfront
      simpa [dropsSpace, hfront, or_assoc] using h
    rcases ht.shape with ⟨s, hshape⟩
    rcases raw_of_mark hshape hmark with ⟨b, hraw, hb⟩
    have hblunt : Blunt t.raw := by
      rw [hraw]
      rcases hb with rfl | rfl | rfl <;> exact .cons (by decide) (by decide) []
    apply fuses_of_blunt hleft ht hblunt
    rw [hraw]
    rintro c ⟨⟩
    rcases hb with rfl | rfl | rfl <;> decide

theorem takesSpace_of_forgives (h : forgives left = true) : left.takesSpace = false := by
  have hname : left.endsInName = false := by
    simp only [forgives, isCombinator, Token.isDelim, Bool.or_eq_true, Bool.and_eq_true,
      beq_iff_eq] at h
    have hkinds : left.kind = .comma ∨ left.kind = .number ∨ left.kind = .delim := by
      rcases h with ((((((hkind | hkind) | hkind) | hkind) | hkind) | hkind) | hkind) | hkind
      · exact Or.inl hkind
      · rcases hkind with (hkind | hkind) | hkind <;> exact Or.inr (Or.inr hkind.1)
      · exact Or.inr (Or.inl hkind)
      all_goals exact Or.inr (Or.inr hkind.1)
    rcases hkinds with hkind | hkind | hkind <;> simp [endsInName, hkind]
  rw [takesSpace, hname, Bool.false_and]

theorem joint_beside (left t : Token) :
    joint .prelude left false t = if needsSeparator left t then [0x20] else [] := by
  have hplace : (Place.prelude == Place.selector) = false := rfl
  simp [joint, hplace]

theorem joint_apart (left t : Token) :
    joint .prelude left true t =
      if dropsSpace .prelude left t = true ∧ needsSeparator left t = false then [] else [0x20] := by
  simp only [joint, Bool.true_and, Bool.not_true, Bool.false_and, Bool.false_eq_true, if_false]
  cases dropsSpace .prelude left t <;> cases needsSeparator left t <;> rfl

theorem Behind.not_clashes (h : Behind left space (t :: ts)) (ht : t.Written) :
    clashes .prelude left space t = false := by
  cases space with
  | false =>
      rcases h.beside rfl t rfl with ⟨s, hleft, hshape⟩
      rw [clashes, joint_beside]
      cases hsep : needsSeparator left t with
      | false => exact fuses_eq_false hleft hleft rfl rfl ht
      | true => exact takesSpace_of_forgives (forgives_of_needsSeparator hleft hshape ht.slash hsep)
  | true =>
      rw [clashes, joint_apart]
      by_cases hempty : dropsSpace .prelude left t = true ∧ needsSeparator left t = false
      · rw [if_pos hempty]
        exact fuses_of_dropsSpace h.written ht hempty.1
      · rw [if_neg hempty]
        exact h.apart rfl

theorem Behind.behind_space (h : Behind left space (t :: ts)) (hkind : t.kind = .whitespace) :
    Behind left true ts := by
  refine ⟨h.written, nofun, fun _ => ?_⟩
  cases space with
  | false =>
      rcases h.beside rfl t rfl with ⟨s, hleft, hshape⟩
      have hspace := space_of_shape hshape hkind
      rcases List.exists_cons_of_ne_nil (raw_ne_nil hshape) with ⟨b, x, hraw⟩
      have hraw' : t.raw = b :: x := hraw
      rw [hraw, List.all_cons, Bool.and_eq_true] at hspace
      rw [hraw'] at hleft
      exact takesSpace_eq_false hleft hspace.1
  | true => exact h.apart rfl

theorem Behind.next {v : Token} (h : Lexed (v :: ts)) (hv : v.Written) (hcomment : NoComment ts) :
    Behind v false ts := by
  cases h with
  | cons hshape hadjacent _ _ htail =>
      exact ⟨hv, fun _ u hu => hadjacent u hu (hcomment u (List.mem_of_mem_head? hu)), nofun⟩

theorem separable_prelude {last : Option Token} (hlexed : Lexed ts) (hslash : NoSlash ts)
    (hcomment : NoComment ts) (hbehind : ∀ left ∈ last, Behind left space ts) :
    separable .prelude last space ts = true := by
  induction ts generalizing last space with
  | nil => rfl
  | cons t ts ih =>
      have hplain : t.isDelim 0x5C = false := hslash t List.mem_cons_self
      by_cases hspace : t.kind = .whitespace
      · rw [separable, if_pos hspace]
        exact ih hlexed.tail hslash.tail hcomment.tail
          fun left hleft => (hbehind left hleft).behind_space hspace
      · have ht : t.Written := (Written.of_lexed hlexed hspace hplain).1
        have hrest : separable .prelude (some t) false ts = true := by
          apply ih hlexed.tail hslash.tail hcomment.tail
          rintro left ⟨⟩
          exact .next hlexed ht hcomment.tail
        rw [separable, if_neg hspace, hplain, if_neg Bool.false_ne_true, hrest, Bool.and_true]
        cases last with
        | none => rfl
        | some left =>
            have hno := (hbehind left rfl).not_clashes ht
            simp [hno]

/-!
## What is read of the compact text
-/

theorem needsSeparator_of_drops (ht : Shape t.lexeme s) (h : drops (some left) t = true) :
    needsSeparator left t = false := by
  by_cases hfront : left.opensGroup = true ∨ left.kind = .colon
  · have hkinds : left.kind = .leftParen ∨ left.kind = .function ∨ left.kind = .colon := by
      simpa [opensGroup, or_assoc] using hfront
    unfold needsSeparator
    split
    · rfl
    · rcases hkinds with hkind | hkind | hkind <;> rw [hkind] <;> split <;> rfl
  · have hmark : t.kind = .rightParen ∨ t.kind = .colon := by
      simp only [not_or, Bool.not_eq_true] at hfront
      simpa [drops, hfront] using h
    rcases hmark with hkind | hkind
    · have hraw : t.raw = [0x29] := raw_of_punctuation ht rfl hkind
      exact needsSeparator_punctuation rfl (by decide) hraw hkind left
    · have hraw : t.raw = [0x3A] := raw_of_punctuation ht rfl hkind
      exact needsSeparator_punctuation rfl (by decide) hraw hkind left

theorem between_prelude (h : Between u (joint .prelude left space t) gap) :
    gap = [] ↔ joint .prelude left space t = [] := by
  have hjoint : joint .prelude left space t = [] ∨ joint .prelude left space t = [0x20] := by
    cases space with
    | false =>
        rw [joint_beside]
        split <;> simp
    | true =>
        rw [joint_apart]
        split <;> simp
  generalize joint .prelude left space t = x at h hjoint
  cases h with
  | nothing => simp
  | comment _ => simp at hjoint
  | space _ => simp

theorem loose_of_prelude {front : List Token} (ht : t.Written)
    (hbetween : Between u (joint .prelude left space t) gap)
    (hfront : front ≠ [] ↔ space = true ∧ drops (some left) t = false)
    (hnext : space = false -> ∃ s, Shape left.lexeme (t.raw ++ s) ∧ Shape t.lexeme s) :
    (front = [] ↔ gap = []) ∨ loose (some left) t = true := by
  have hloose : forgives left = true ∨ parts t = true ->
      (left.isDelim 0x7E && t.isDelim 0x3D) = false -> loose (some left) t = true := by
    intro hmeans hapart
    simpa [loose, hapart] using hmeans
  rw [between_prelude hbetween]
  cases space with
  | false =>
      have hempty : front = [] := by simpa using hfront
      rw [joint_beside]
      cases hsep : needsSeparator left t with
      | false => simp [hempty]
      | true =>
          right
          rcases hnext rfl with ⟨s, hbeside, hshape⟩
          apply hloose (Or.inl (forgives_of_needsSeparator hbeside hshape ht.slash hsep))
          rw [needsSeparator_tilde hsep, Bool.false_and]
  | true =>
      rcases ht.shape with ⟨v, hshape⟩
      rw [joint_apart, dropsSpace_prelude]
      cases hdrops : drops (some left) t with
      | true =>
          have hempty : front = [] := by simpa [hdrops] using hfront
          simp [hempty, needsSeparator_of_drops hshape hdrops]
      | false =>
          have hne : front ≠ [] := by simpa [hdrops] using hfront
          cases hcomma : left.kind == .comma || t.kind == .comma with
          | true =>
              right
              rcases Bool.or_eq_true_iff.mp hcomma with hkind | hkind
              · rw [beq_iff_eq] at hkind
                exact hloose (Or.inl (by simp [forgives, hkind])) (by simp [Token.isDelim, hkind])
              · rw [beq_iff_eq] at hkind
                exact hloose (Or.inr (by simp [parts, hkind])) (by simp [Token.isDelim, hkind])
          | false => simp [hne]

def Kept (last : Option Token) (space : Bool) (gap ts : List Token) : Prop :=
  ∀ t ∈ firstVisible ts, gap ≠ [] ↔ space = true ∧ drops last t = false

theorem blank_of_lexed (h : Lexed ts) : Blank ts := by
  induction h with
  | nil => nofun
  | cons hshape _ _ _ _ ih =>
      rcases hshape with ⟨s, hshape⟩
      exact blank_cons.mpr ⟨space_of_shape hshape, ih⟩

theorem respaced_of_prelude {last : Option Token} (h : Echoes .prelude last space ts us)
    (hlexed : Lexed ts) (hslash : NoSlash ts) (hcomment : NoComment ts)
    (hopen : ∀ t ∈ ts, t.isOpen = false) (hgap : AllSpace gap) (hkept : Kept last space gap ts)
    (hbehind : ∀ left ∈ last, Behind left space ts) :
    Respaced last (gap ++ tighten last ts) us := by
  -- `gap` is the white space that `tighten` has kept so far in front of the next visible token.
  induction h generalizing gap with
  | nil =>
      rw [tighten, List.append_nil]
      exact .ends hgap allSpace_nil
  | space hspace htail ih =>
      rename_i last space t ts us
      have hfirst : firstVisible (t :: ts) = firstVisible ts := by
        simp [firstVisible, hspace]
      have hbehind' : ∀ left ∈ last, Behind left true ts :=
        fun left hleft => (hbehind left hleft).behind_space hspace
      have hopen' : ∀ u ∈ ts, u.isOpen = false := fun u hu => hopen u (List.mem_cons_of_mem _ hu)
      have hmore : ∀ {gap : List Token}, AllSpace gap -> Kept last true gap ts ->
          Respaced last (gap ++ tighten last ts) us := fun hgap hkept =>
        ih hlexed.tail hslash.tail hcomment.tail hopen' hgap hkept hbehind'
      rw [tighten, if_pos hspace]
      rw [Kept, hfirst] at hkept
      split
      · rename_i hdrops
        apply hmore hgap
        intro u hu
        have hu' : drops last u = true := by
          rw [hu, Option.any_some] at hdrops
          exact hdrops
        simpa [hu'] using hkept u hu
      · rename_i hdrops
        rw [List.append_cons]
        apply hmore
        · intro w hw
          rcases List.mem_append.mp hw with hw | hw
          · exact hgap w hw
          · rw [List.mem_singleton.mp hw]
            exact ⟨hspace, blank_of_lexed hlexed _ List.mem_cons_self hspace⟩
        · intro u hu
          rw [hu, Option.any_some, Bool.not_eq_true] at hdrops
          simp [hdrops]
  | slash hslash' htail ih =>
      rw [hslash _ List.mem_cons_self] at hslash'
      cases hslash'
  | token hspace hsilent hbetween hu hhead htail ih =>
      rename_i last space t u between ts us
      have hsame : u.lexeme = t.lexeme := hu.same (hopen t List.mem_cons_self)
      have ht : t.Written := (Written.of_lexed hlexed hspace (hslash t List.mem_cons_self)).1
      have hfront : gap ≠ [] ↔ space = true ∧ drops last t = false :=
        hkept t (firstVisible_visible hspace ts)
      rw [tighten_visible hspace]
      refine .next hgap (allSpace_between hbetween) hspace hsame ?_ ?_
      · cases last with
        | none =>
            right
            rfl
        | some left =>
            have hleft := hbehind left rfl
            exact loose_of_prelude ht hbetween hfront
              fun hno => hleft.beside hno t rfl
      · have hkept' : Kept (some t) false [] ts := fun u _ => by simp
        apply ih hlexed.tail hslash.tail hcomment.tail
          (fun u hu => hopen u (List.mem_cons_of_mem _ hu)) allSpace_nil hkept'
        rintro left ⟨⟩
        exact .next hlexed ht hcomment.tail

/-!
## Selectors end in a closed token
-/

def EndsFirm (ts : List Token) : Prop :=
  ∃ front v, ts = front ++ [v] ∧ IsLast v

theorem EndsFirm.behind (h : EndsFirm ts) (front : List Token) : EndsFirm (front ++ ts) := by
  rcases h with ⟨ts, v, rfl, hv⟩
  exact ⟨front ++ ts, v, by simp, hv⟩

theorem Row.endsFirm {runs : List Run} (h : Row runs) : EndsFirm (tokensOf runs) := by
  rcases List.eq_nil_or_concat' runs with rfl | ⟨front, run, rfl⟩
  · exact absurd rfl h.nonempty
  · rw [tokensOf_append, tokensOf_cons, tokensOf_nil, List.append_nil]
    exact EndsFirm.behind run.spells.last _

theorem SpellsParts.endsFirm {parts : Selector.Parts} (h : SpellsParts ts parts) :
    ts = [] ∨ EndsFirm ts := by
  induction h with
  | nil => exact Or.inl rfl
  | cons hjoin hrow hmore ih =>
      right
      apply EndsFirm.behind
      rcases ih with rfl | hfirm
      · rw [List.append_nil]
        exact hrow.endsFirm
      · exact hfirm.behind _

theorem SpellsComplex.endsFirm {c : Complex} (h : SpellsComplex ts c) : EndsFirm ts := by
  cases h with
  | mk hrow hparts =>
      rcases hparts.endsFirm with rfl | hfirm
      · rw [List.append_nil]
        exact hrow.endsFirm
      · exact hfirm.behind _

theorem SpellsList.getLast {list : SelectorList} (h : SpellsList ts list) :
    ∀ v ∈ ts.getLast?, IsLast v ∨ v.kind = .whitespace := by
  have hback : ∀ {front back : List Token}, back ≠ [] ->
      (∀ v ∈ back.getLast?, IsLast v ∨ v.kind = .whitespace) ->
      ∀ v ∈ (front ++ back).getLast?, IsLast v ∨ v.kind = .whitespace := by
    intro front back hne hlast v hv
    rw [List.getLast?_append_of_ne_nil _ hne] at hv
    exact hlast v hv
  induction h with
  | last hc hgap =>
      rename_i ts gap c
      rcases List.eq_nil_or_concat' gap with rfl | ⟨front, w, rfl⟩
      · rcases hc.endsFirm with ⟨front, v, rfl, hv⟩
        intro u hu
        rw [List.append_nil, List.getLast?_concat, Option.mem_some] at hu
        exact Or.inl (hu ▸ hv)
      · apply hback (by simp)
        intro u hu
        exact Or.inr (hgap u (List.mem_of_mem_getLast? hu))
  | cons hc hgap hcomma hgap' hmore ih =>
      rename_i us gap gap' vs comma c list
      rcases hmore.visible with ⟨t, more, rfl, _⟩
      have hassoc : us ++ (gap ++ comma :: (gap' ++ t :: more)) =
          us ++ (gap ++ comma :: gap') ++ t :: more := by
        simp
      rw [hassoc]
      exact hback (List.cons_ne_nil _ _) ih

theorem closed_of_lexed (h : Lexed ts) (hgood : ts.any Token.isBad = false)
    (hlast : ∀ v ∈ ts.getLast?, v.unterminated = false) : ∀ t ∈ ts, t.lexeme.IsClosed := by
  induction h with
  | nil => nofun
  | cons hshape hnext hends hargument htail ih =>
      rename_i t ts
      rw [List.any_cons, Bool.or_eq_false_iff] at hgood
      rw [List.forall_mem_cons]
      constructor
      · constructor
        · rw [Bool.eq_false_iff]
          intro hopen
          obtain rfl := hends hopen
          have hshut : t.unterminated = false := hlast t rfl
          exact Bool.false_ne_true (hshut.symm.trans hopen)
        · intro hkind
          have hbad : t.kind = .badString := hkind
          simp [isBad, hbad] at hgood
      · apply ih hgood.2
        intro v hv
        cases ts with
        | nil => cases hv
        | cons u ts =>
            apply hlast
            rwa [List.getLast?_cons_cons]

theorem closed_of_spelled {list : SelectorList} (h : Spelled ts list) (hlexed : Lexed ts)
    (hgood : ts.any Token.isBad = false) : ∀ t ∈ ts, t.lexeme.IsClosed := by
  apply closed_of_lexed hlexed hgood
  intro v hv
  rcases h with ⟨gap, us, hgap, rfl, hspells⟩
  rcases hspells.visible with ⟨t, more, rfl, _⟩
  have hkind : IsLast v ∨ v.kind = .whitespace := by
    rw [List.getLast?_append_of_ne_nil _ (List.cons_ne_nil _ _)] at hv
    exact hspells.getLast v hv
  rcases List.getLast?_eq_some_iff.mp hv with ⟨front, hfront⟩
  rw [hfront] at hlexed
  rcases hlexed.suffix with _ | ⟨⟨s, hshape⟩, _⟩
  apply terminated_of_shape hshape
  have hplain : v.kind ≠ .string ∧ v.kind ≠ .url ∧ v.kind ≠ .badUrl := by
    rcases hkind with (hkind | hkind | hkind | hkind | hkind) | hkind <;> simp [hkind]
  exact hplain

theorem isOpen_of_closed (h : t.lexeme.IsClosed) : t.isOpen = false := by
  have hshut : t.unterminated = false := h.1
  have hkind : t.kind ≠ .badString := h.2
  simp [isOpen, isOpenString, isOpenAddress, hshut, hkind]

/-!
## Reading the compact text
-/

theorem respaced_front (h : Respaced (some left) ts us) : Respaced none ts us := by
  cases h with
  | ends hgap hgap' => exact .ends hgap hgap'
  | next hgap hgap' hspace hsame _ htail => exact .next hgap hgap' hspace hsame (Or.inr rfl) htail

theorem mem_of_mem_tighten {last : Option Token} (h : t ∈ tighten last ts) : t ∈ ts := by
  induction ts generalizing last with
  | nil => cases h
  | cons u ts ih =>
      have hkeep : ∀ {last : Option Token}, t ∈ u :: tighten last ts -> t ∈ u :: ts := by
        intro last hmem
        rcases List.mem_cons.mp hmem with rfl | hmem
        · exact List.mem_cons_self
        · exact List.mem_cons_of_mem _ (ih hmem)
      rw [tighten] at h
      split at h
      · split at h
        · exact List.mem_cons_of_mem _ (ih h)
        · exact hkeep h
      · exact hkeep h

theorem behind_paren (hleft : left.lexeme = verbatim .leftParen [0x28]) (h : Lexed ts)
    (hcomment : NoComment ts) : Behind left false ts := by
  have hshape : ∀ s, Shape left.lexeme s := by
    intro s
    rw [hleft]
    exact .punctuation rfl
  have hkind : left.kind = .leftParen := congrArg Lexeme.kind hleft
  have hwritten : left.Written := ⟨⟨[], hshape []⟩, by simp [hkind], by simp [Token.isDelim, hkind]⟩
  refine ⟨hwritten, fun _ t ht => ?_, by simp⟩
  cases h with
  | nil => cases ht
  | cons hfirst _ _ _ _ =>
      obtain rfl := Option.some.inj ht
      rcases hfirst with ⟨s, hfirst⟩
      exact ⟨s, hshape _, hfirst⟩

theorem any_isBad_body (s : Bytes) :
    (tokenize s).any Token.isBad = (body (tokenize s)).any Token.isBad := by
  rcases laid_body (laid_tokenize s) with ⟨e, he, hkind⟩
  have hend : e.isBad = false := by simp [isBad, hkind]
  have hany := congrArg (fun ts => List.any ts Token.isBad) he
  simpa [hend] using hany

theorem ofText_iff {list : SelectorList} :
    SelectorList.ofText s = .ok list ↔
      (body (tokenize s)).any Token.isBad = false ∧ Spelled (body (tokenize s)) list := by
  rw [← ofTokens_iff, SelectorList.ofText, ← any_isBad_body]
  cases (tokenize s).any Token.isBad <;> simp

theorem read_compact {list : SelectorList} (h : Spelled ts list) (hlexed : Lexed ts)
    (hgood : ts.any Token.isBad = false) (hcomment : NoComment ts) (hslash : NoSlash ts)
    (hleft : left.lexeme = verbatim .leftParen [0x28]) :
    ∃ list', SelectorList.ofText (writeAfter .prelude (some left) false ts) = .ok list' ∧
      list'.squeeze = (glue list).squeeze := by
  generalize htext : writeAfter .prelude (some left) false ts = text
  have hclosed := closed_of_spelled h hlexed hgood
  have hbehind : ∀ l ∈ some left, Behind l false ts := by
    rintro l ⟨⟩
    exact behind_paren hleft hlexed hcomment
  have hsep : separable .prelude (some left) false ts = true :=
    separable_prelude hlexed hslash hcomment hbehind
  have hread := (read_writeAfter .nil nofun hlexed hsep).1 0
  rw [List.append_nil, htext] at hread
  rcases hread with ⟨us, offset, heq, hechoes⟩
  have hbody : body (tokenize text) = us := body_of_streamFrom heq
  have hrespaced : Respaced none (tighten (some left) ts) us := by
    have hkept : Kept (some left) false [] ts := fun u _ => by simp
    exact respaced_front (respaced_of_prelude hechoes hlexed hslash hcomment
      (fun t ht => isOpen_of_closed (hclosed t ht)) allSpace_nil hkept hbehind)
  rcases tighten_spelled h (blank_of_lexed hlexed) (some left) with ⟨list', hlist', hsame⟩
  have htight : body (tighten (some left) ts) = tighten (some left) ts :=
    body_eq_self fun t ht => hlexed.kind_ne_endOfText t (mem_of_mem_tighten ht)
  rw [← htight] at hlist' hrespaced
  rw [← hbody] at hrespaced
  have hagree := SelectorList.ofTokens_respaced hrespaced
  rw [ofTokens_iff.mpr hlist'] at hagree
  have hgood' : us.any Token.isBad = false := by
    rw [Bool.eq_false_iff]
    intro hbad
    rw [bad_of_echoes hechoes hbad] at hgood
    cases hgood
  cases hfound : SelectorList.ofTokens (tokenize text) with
  | error e =>
      rw [hfound] at hagree
      cases hagree
  | ok found =>
      rw [hfound] at hagree
      have hfound' : found.squeeze = list'.squeeze := Option.some.inj hagree
      refine ⟨found, ofText_iff.mpr ⟨?_, ofTokens_iff.mp hfound⟩, hfound'.trans hsame⟩
      rw [hbody]
      exact hgood'

theorem ofText_compact {list : SelectorList} (h : SelectorList.ofText s = .ok list)
    (hcomment : NoComment (body (tokenize s))) (hslash : NoSlash (body (tokenize s)))
    (hleft : left.lexeme = verbatim .leftParen [0x28]) (offset : Nat) :
    ∃ list', SelectorList.ofText
          (writeAfter .prelude (some left) false (body (streamFrom offset s))) = .ok list' ∧
        list'.squeeze = (glue list).squeeze := by
  rcases ofText_iff.mp h with ⟨hgood, hspelled⟩
  rw [← ofTokens_iff, ← SelectorList.ofTokens_map offset, ← streamFrom_eq_map, ofTokens_iff]
    at hspelled
  have hgood' : (body (streamFrom offset s)).any Token.isBad = false := by
    rw [streamFrom_eq_map, body_map, List.any_map]
    exact hgood
  exact read_compact hspelled (lexed_of_laid (laid_streamFrom offset s)) hgood'
    (forall_mem_body offset (fun _ h => h) hcomment) (forall_mem_body offset (fun _ h => h) hslash)
    hleft

end Grammar
end StyleTrim
