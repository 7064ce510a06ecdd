import StyleTrim.Proofs.Selector.Spacing
import StyleTrim.Proofs.Token.Separators
import StyleTrim.Proofs.Token.Settled

/-!
# Selectors of written preludes

The prelude of a rule is written with other white space, and with the closers that it lacks. Where
it lacks none, it is read as the same selectors again. In every case the selectors are told by the
text alone, wherever it stands.
-/

namespace StyleTrim
namespace Selector

open Token Lexeme Simple

/-!
## Where a separator is put in

Two tokens that stood side by side in a text need a separator only behind a token that begins or
ends no selector.
-/

theorem name_read_behind {l : Lexeme} {s : Bytes} (h : Shape l s) (hminds : l.MindsEscape) :
    Reader.name.read s = none := by
  have hstop : ∀ {x v : Bytes}, Reader.name.scan (x ++ s) = ⟨v, x, s⟩ ->
      Reader.name.read s = none := by
    intro x v hscan
    have hrest := Reader.name.read_scan_rest (x ++ s)
    rw [hscan] at hrest
    exact hrest
  cases h with
  | ident _ hscan _ => exact hstop hscan
  | atKeyword _ hscan => exact hstop hscan
  | hash _ hscan => exact hstop hscan
  | dimension _ _ _ hscan => exact hstop hscan
  | punctuation hmark =>
      rcases hminds with hkind | hkind | hkind | hkind <;>
        exact absurd hkind (ne_of_punctuation hmark rfl)
  | _ => rcases hminds with hkind | hkind | hkind | hkind <;> cases hkind

theorem continuesName_eq_false {t u : Token} {b : UInt8} {x s : Bytes}
    (h : Shape t.lexeme (u.raw ++ s)) (hminds : t.lexeme.MindsEscape) (hu : Shape u.lexeme s)
    (hraw : u.raw = b :: x) (hslash : u.isDelim 0x5C = false) : continuesName b = false := by
  have hnone := name_read_behind h hminds
  rw [Bool.eq_false_iff]
  intro hcontinues
  rcases Bool.or_eq_true_iff.mp hcontinues with hname | hescape
  · rw [hraw, List.cons_append, Reader.name_read_of_isName _ hname] at hnone
    cases hnone
  · obtain rfl : b = 0x5C := by simpa using hescape
    have hescape := startsHere_of_slash hu hslash (by rw [hraw]; rfl)
    rcases Option.isSome_iff_exists.mp (Escape.read_isSome (startsEscape_append hescape s)) with
      ⟨_, hread⟩
    rw [Reader.name_read_of_escape hread] at hnone
    cases hnone

theorem forgives_of_needsSeparator {t u : Token} {s : Bytes} (h : Shape t.lexeme (u.raw ++ s))
    (hu : Shape u.lexeme s) (hslash : u.isDelim 0x5C = false)
    (hsep : needsSeparator t u = true) : forgives t = true := by
  rcases List.exists_cons_of_ne_nil (raw_ne_nil hu) with ⟨b, x, hraw⟩
  have hraw' : u.raw = b :: x := hraw
  rw [needsSeparator_eq (raw_ne_nil h) hraw'] at hsep
  have hname : t.lexeme.MindsEscape -> continuesName b ≠ true := by
    intro hminds
    rw [continuesName_eq_false h hminds hu hraw' hslash]
    decide
  split at hsep
  · rename_i hkind
    rcases Bool.or_eq_true_iff.mp hsep with hparen | hcontinues
    · have hu' : u.raw = [0x28] := raw_of_punctuation hu rfl (beq_iff_eq.mp hparen)
      exact absurd (by rw [hu']; rfl) (head_behind_ident h hkind)
    · exact absurd hcontinues (hname (Or.inl hkind))
  · rename_i hkind
    exact absurd hsep (hname (Or.inr (Or.inl hkind)))
  · rename_i hkind
    exact absurd hsep (hname (Or.inr (Or.inr (Or.inl hkind))))
  · rename_i hkind
    exact absurd hsep (hname (Or.inr (Or.inr (Or.inr hkind))))
  · rename_i hkind
    simp [forgives, hkind]
  · rename_i hkind
    unfold continuesDelim at hsep
    split at hsep
    · rename_i hvalue
      simp [forgives, Token.isDelim, hkind, hvalue]
    · rename_i hvalue
      simp [forgives, Token.isDelim, hkind, hvalue]
    · rename_i hvalue
      simp [forgives, Token.isDelim, hkind, hvalue]
    · rename_i hvalue
      simp [forgives, Token.isDelim, hkind, hvalue]
    · rename_i hvalue
      exfalso
      rcases lone_of_delim h hkind with ⟨c, hc, hlone⟩
      have hvalue' : t.value = [c] := congrArg Lexeme.value hc
      obtain rfl : c = 0x2E := by
        rw [hvalue] at hvalue'
        exact (List.cons.inj hvalue').1.symm
      have hnumeral := hlone.numeral
      have hdot : Numeral.startsHere (0x2E :: b :: (x ++ s)) = Byte.isDigit b := rfl
      rw [hraw', List.cons_append, hdot, hsep] at hnumeral
      cases hnumeral
    · rename_i hvalue
      simp [forgives, isCombinator, Token.isDelim, hkind, hvalue]
    · rename_i hvalue
      simp [forgives, Token.isDelim, hkind, hvalue]
    · cases hsep
  · cases hsep

/-!
## Preludes without open ends

A prelude that lacks no closer keeps all of its tokens. White space comes and goes only where the
selectors do not mind, if no tilde stands apart from an equals sign.
-/

def operatorsTight (last : Option Token) (space : Bool) : List Token -> Bool
  | [] => true
  | t :: ts =>
      if t.kind = .whitespace then operatorsTight last true ts
      else
        !(space && last.any (fun l => l.isDelim 0x7E) && t.isDelim 0x3D) &&
          operatorsTight (some t) false ts

/-- The prelude has no open string, address or bracket, and no operator that falls apart. -/
def isWhole (prelude : List Token) : Bool :=
  prelude.all (fun t => !t.isOpen) && (owed prelude).isEmpty && operatorsTight none false prelude

theorem needsSeparator_tilde {t u : Token} (h : needsSeparator t u = true) :
    t.isDelim 0x7E = false := by
  rw [Bool.eq_false_iff]
  intro htilde
  simp only [Token.isDelim, Bool.and_eq_true, beq_iff_eq] at htilde
  unfold needsSeparator at h
  split at h
  · cases h
  · split at h
    · cases h
    · simp [htilde.1, htilde.2, continuesDelim] at h

theorem allSpace_between {u : Token} {joint : Bytes} {gap : List Token} (h : Between u joint gap) :
    AllSpace gap := by
  cases h with
  | nothing => exact allSpace_nil
  | comment _ => exact allSpace_nil
  | space hlexeme =>
      rename_i w
      have hraw : w.raw = [0x20] := congrArg Lexeme.raw hlexeme
      intro v hv
      rw [List.mem_singleton.mp hv, hraw]
      exact ⟨space_kind hlexeme, rfl⟩

theorem loose_of_joint {left t u : Token} {space : Bool} {gap : List Token}
    (hbetween : Between u (joint .selector left space t) gap)
    (htight : (space && left.isDelim 0x7E && t.isDelim 0x3D) = false)
    (hslash : t.isDelim 0x5C = false)
    (hnext : space = false -> t.afterComment = false ->
      ∃ s, Shape left.lexeme (t.raw ++ s) ∧ Shape t.lexeme s) :
    (space = true ↔ gap ≠ []) ∨ loose (some left) t = true := by
  have hloose : forgives left = true ∨ parts t = true -> space = true ∨ left.isDelim 0x7E = false ->
      loose (some left) t = true := by
    intro hmeans hapart
    have hfits : (left.isDelim 0x7E && t.isDelim 0x3D) = false := by
      rcases hapart with rfl | hno
      · simpa using htight
      · rw [hno]
        rfl
    simpa [loose, hfits] using hmeans
  unfold joint at hbetween
  split at hbetween
  · rename_i hspace
    left
    cases hbetween with
    | space hw =>
        rw [Bool.and_eq_true] at hspace
        simp [hspace.1]
  · rename_i hdrop
    split at hbetween
    · rename_i hsep
      split at hbetween
      · rename_i hcomment
        left
        simp only [Bool.and_eq_true, Bool.not_eq_true'] at hcomment
        cases hbetween with
        | comment _ => simp [hcomment.1.1]
      · rename_i hcomment
        cases space with
        | true =>
            left
            cases hbetween with
            | space hw => simp
        | false =>
            right
            have hplain : t.afterComment = false := by simpa using hcomment
            rcases hnext rfl hplain with ⟨s, hleft, ht⟩
            apply hloose (Or.inl (forgives_of_needsSeparator hleft ht hslash hsep))
            right
            exact needsSeparator_tilde hsep
    · cases space with
      | false =>
          left
          cases hbetween with
          | nothing => simp
      | true =>
          right
          have hdrops : dropsSpace .selector left t = true := by simpa using hdrop
          apply hloose _ (Or.inl rfl)
          simp only [dropsSpace, Bool.or_eq_true] at hdrops
          simp only [forgives, parts, Bool.or_eq_true]
          rcases hdrops with (hcomma | hcomma) | hcombinator | hcombinator
          · simp [hcomma]
          · simp [hcomma]
          · simp [hcombinator]
          · simp [hcombinator]

theorem respaced_of_echoes {last : Option Token} {space : Bool} {ts us gap : List Token}
    (h : Echoes .selector last space ts us) (hlexed : Lexed ts) (hplain : NoSlash ts)
    (hopen : ∀ t ∈ ts, t.isOpen = false) (htight : operatorsTight last space ts = true)
    (hgap : AllSpace gap) (hspace : space = true ↔ gap ≠ [])
    (hnext : space = false -> ∀ left ∈ last, ∀ t ∈ ts.head?, t.afterComment = false ->
      ∃ s, Shape left.lexeme (t.raw ++ s) ∧ Shape t.lexeme s) :
    Respaced last (gap ++ ts) us := by
  induction h generalizing gap with
  | nil =>
      rw [List.append_nil]
      exact .ends hgap allSpace_nil
  | space hkind htail ih =>
      rename_i last space t ts us
      have hshape : ∃ s, Shape t.lexeme s := by
        cases hlexed with
        | cons hshape _ _ _ _ => exact hshape
      rcases hshape with ⟨s, hshape⟩
      rw [List.append_cons]
      apply ih hlexed.tail hplain.tail (fun v hv => hopen v (List.mem_cons_of_mem _ hv))
      · rw [operatorsTight, if_pos hkind] at htight
        exact htight
      · intro w hw
        rcases List.mem_append.mp hw with hw | hw
        · exact hgap w hw
        · rw [List.mem_singleton.mp hw]
          exact ⟨hkind, space_of_shape hshape hkind⟩
      · simp
      · nofun
  | slash hslash htail ih =>
      rw [hplain _ List.mem_cons_self] at hslash
      cases hslash
  | token hkind hsilent hbetween hu hhead htail ih =>
      rename_i last space t u between ts us
      have hsame : u.lexeme = t.lexeme := hu.same (hopen t List.mem_cons_self)
      rw [operatorsTight, if_neg hkind, Bool.and_eq_true, Bool.not_eq_true'] at htight
      refine .next hgap (allSpace_between hbetween) hkind hsame ?_ ?_
      · cases last with
        | none =>
            right
            rfl
        | some left =>
            have hslash : t.isDelim 0x5C = false := (Bool.or_eq_false_iff.mp hsilent).2
            rcases loose_of_joint hbetween (by simpa using htight.1) hslash
              (fun hno => hnext hno left rfl t rfl) with hiff | hloose
            · left
              rw [← not_iff_not]
              exact hspace.symm.trans hiff
            · exact Or.inr hloose
      · cases hlexed with
        | cons hshape hadjacent _ _ htail' =>
            have hrest := ih htail' hplain.tail
              (fun v hv => hopen v (List.mem_cons_of_mem _ hv)) htight.2 allSpace_nil (by simp) ?_
            · exact hrest
            · intro _ left hleft v hv hcomment
              obtain rfl : t = left := Option.some.inj hleft
              exact hadjacent v hv hcomment

end Selector
end StyleTrim
