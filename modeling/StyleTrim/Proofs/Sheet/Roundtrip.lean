import StyleTrim.Proofs.Selector.Preludes
import StyleTrim.Proofs.Sheet.Compare
import StyleTrim.Proofs.Sheet.Reread

/-!
# A sheet is its text

A sheet that was read from a text is the same sheet when it is read again from the text that is
written for it. This asks for sound stretches, and where selectors are read, for preludes in which
nothing is left open: a closer that the writer adds, and an operator that the writer draws together,
can turn a prelude that was no selector list into one.
-/

namespace StyleTrim

/-- The head without the white space in the arguments of its selectors. -/
def Head.squeeze : Head -> Head
  | .rule prelude selectors => .rule prelude (selectors.map SelectorList.squeeze)
  | head => head

namespace Token

theorem kind_of_becomes {t u : Token} (h : t.Becomes u.lexeme) (hkind : t.kind ≠ .endOfText) :
    u.kind ≠ .endOfText := by
  rcases becomes_cases h with hsame | ⟨-, hmute⟩
  · have hkind' : u.kind = t.kind := congrArg Lexeme.kind hsame
    rw [hkind']
    exact hkind
  · rcases hmute with hkind' | hkind' | hkind' | hkind' <;> rw [hkind'] <;> exact nofun

theorem body_of_echoes {place : Place} {last : Option Token} {space : Bool} {ts us : List Token}
    (h : Echoes place last space ts us) (hlexed : Lexed ts) : ∀ u ∈ us, u.kind ≠ .endOfText := by
  induction h with
  | nil => exact nofun
  | space hspace htail ih => exact ih hlexed.tail
  | slash hslash htail ih => exact ih hlexed.tail
  | token hspace hsilent hbetween hu hhead htail ih =>
      rename_i last space t u gap ts us
      have hkind : t.kind ≠ .endOfText := by
        cases hlexed with
        | cons hshape _ _ _ _ =>
            rcases hshape with ⟨s, hshape⟩
            exact Lexeme.kind_ne_endOfText hshape
      intro v hv
      rcases List.mem_append.mp hv with hv | hv
      · rw [kind_of_between hbetween v hv]
        exact nofun
      · rcases List.mem_cons.mp hv with rfl | hv
        · exact kind_of_becomes hu hkind
        · exact ih hlexed.tail v hv

end Token

namespace Sheet

open Token

variable {o : Options} {seen : Moment -> Prop}

/-!
## Preludes
-/

theorem selectors_again {prelude us : List Token} (hlexed : Lexed prelude)
    (hplain : NoSlash prelude) (hwhole : Selector.isWhole prelude = true)
    (h : Settles .selector prelude us) :
    (SelectorList.ofTokens us).toOption.map SelectorList.squeeze =
      (SelectorList.ofTokens prelude).toOption.map SelectorList.squeeze := by
  rw [Selector.isWhole, Bool.and_eq_true, Bool.and_eq_true, List.all_eq_true,
    List.isEmpty_iff] at hwhole
  rcases hwhole with ⟨⟨hclosed, howed⟩, htight⟩
  cases h with
  | intro hechoes hclosers =>
      rename_i us cs
      -- nothing is owed, so no closer is written
      rw [howed] at hclosers
      cases hclosers
      rw [List.append_nil]
      apply SelectorList.ofTokens_respaced
      rw [body_eq_self hlexed.kind_ne_endOfText, body_eq_self (body_of_echoes hechoes hlexed)]
      exact Selector.respaced_of_echoes hechoes hlexed hplain
        (fun t ht => by simpa using hclosed t ht) htight Simple.allSpace_nil (by simp) nofun

/-- The prelude of a rule has no open end, so that its selectors are in what is written for it. -/
def Stretch.isWhole : Stretch -> Bool
  | .rule prelude => Selector.isWhole prelude
  | _ => true

theorem Body.Mates.isStrict {body body' : Body} (h : Body.Mates o o body body')
    (hreads : body.readsSelectors o = true) : o.isStrict = true := by
  cases h with
  | declarations => exact hreads
  | plain => cases hreads
  | rules => exact hreads

theorem Body.Mates.eq {body body' : Body} (h : Body.Mates o o body body') : body' = body := by
  cases h <;> rfl

theorem faithful_of_isWhole
    (hwhole : o.isStrict = true -> ∀ moment, seen moment ->
      ∀ stretch, moment.stretch? = some stretch -> stretch.isWhole = true) :
    Faithful o o seen Head.squeeze := by
  intro body body' left prelude us hmates hseen hstretch hlexed hplain hsettles
  rw [hmates.eq, ruleHead, ruleHead, write_settles hsettles]
  cases hreads : body.readsSelectors o with
  | false => rfl
  | true =>
      have hprelude := hwhole (hmates.isStrict hreads) _ hseen _ hstretch
      simp only [if_true, Head.squeeze]
      rw [selectors_again hlexed hplain hprelude hsettles]

/-!
## Sheets
-/

theorem noBad_of_parse {css : Bytes} {sheet : Sheet} (hstrict : o.isStrict = true)
    (h : parse o css = .ok sheet) : (tokenize css).any Token.isBad = false := by
  rw [Bool.eq_false_iff]
  intro hbad
  rcases List.any_eq_true.mp hbad with ⟨t, ht, hkind⟩
  have hfound : ((tokenize css).find? Token.isBad).isSome = true :=
    List.find?_isSome.mpr ⟨t, ht, hkind⟩
  rcases Option.isSome_iff_exists.mp hfound with ⟨u, hu⟩
  rw [parse, ofTokens, if_pos hstrict, firstBad, hu] at h
  simp only at h
  split at h
  · cases h
  · rename_i hnone
    split at hnone <;> cases hnone

theorem not_sawBad {css : Bytes} (hgood : (tokenize css).any Token.isBad = false) :
    ¬SawBad (· ∈ buildMoments o (.rules o.isStrict) (tokenize css)) := by
  intro hsaw
  rcases hsaw with ⟨moment, hmoment, hbad⟩
  rcases List.any_eq_true.mp hbad with ⟨t, ht, hkind⟩
  have hbody : t ∈ Token.body (tokenize css) := (moments_suffix hmoment).subset ht
  have hmem : t ∈ tokenize css := (List.takeWhile_sublist _).subset hbody
  have hany : (tokenize css).any Token.isBad = true := List.any_eq_true.mpr ⟨t, hmem, hkind⟩
  rw [hgood] at hany
  cases hany

theorem parse_write_part {css : Bytes} {sheet nodes : Sheet} (hparse : parse o css = .ok sheet)
    (hpart : ∀ node ∈ nodes, node ∈ sheet)
    (hsound : ∀ stretch ∈ stretches o css, stretch.isSound = true)
    (hwhole : o.isStrict = true -> ∀ stretch ∈ stretches o css, stretch.isWhole = true) :
    ∃ nodes', parse o (Sheet.write nodes) = .ok nodes' ∧
      Sheet.mapHeads Head.squeeze nodes' = Sheet.mapHeads Head.squeeze nodes := by
  have hmoments := sound_of_stretches hsound
  have hfaithful : Faithful o o (· ∈ buildMoments o (.rules o.isStrict) (tokenize css))
      Head.squeeze := by
    apply faithful_of_isWhole
    intro hstrict moment hmoment stretch hstretch
    exact hwhole hstrict stretch (List.mem_filterMap.mpr ⟨moment, hmoment, hstretch⟩)
  have hgrown := fun node hnode => grown_of_parse hparse node (hpart node hnode)
  have hgood : o.isStrict = true -> (tokenize (Sheet.write nodes)).any Token.isBad = false := by
    intro hstrict
    rw [Bool.eq_false_iff]
    intro hbad
    exact not_sawBad (noBad_of_parse hstrict hparse)
      (sawBad_of_write hmoments hfaithful (Nat.le_refl _) hgrown hbad)
  rcases parse_write_of_grown hmoments hfaithful (Nat.le_refl _) hgrown hgood with
    ⟨nodes', hparse', hheads, -⟩
  exact ⟨nodes', hparse', hheads⟩

/-- A sheet that was read strictly is the same sheet in its own text. -/
theorem strict_sheet_again {depth : Nat} {css : Bytes} {sheet : Sheet}
    (hparse : parse { maxDepth := depth } css = .ok sheet)
    (hsound : ∀ stretch ∈ stretches { maxDepth := depth } css,
      stretch.isSound = true ∧ stretch.isWhole = true) :
    ∃ sheet', parse { maxDepth := depth } (Sheet.write sheet) = .ok sheet' ∧
      Sheet.mapHeads Head.squeeze sheet' = Sheet.mapHeads Head.squeeze sheet :=
  parse_write_part hparse (fun _ hnode => hnode)
    (fun stretch hstretch => (hsound stretch hstretch).1)
    (fun _ stretch hstretch => (hsound stretch hstretch).2)

def printText : Bytes :=
  ascii "@media print \x7b a:not( b ) > c \x7b d: e(1 2) !important \x7d \x7d"

def printSheet : Sheet :=
  [⟨.atRule (ascii "media") (ascii "print") true,
    [⟨.rule (ascii "a:not( b )>c")
        (some [⟨[.element (ascii "a"), .pseudoClass (ascii "not") (ascii " b ")],
          [(.child, [.element (ascii "c")])]⟩]),
      [⟨.declaration (ascii "d") (ascii "e(1 2)") true, []⟩]⟩]⟩]

theorem strict_sheet_again_in_print :
    parse { maxDepth := 256 } printText = .ok printSheet ∧
      ∃ sheet', parse { maxDepth := 256 } (Sheet.write printSheet) = .ok sheet' ∧
        Sheet.mapHeads Head.squeeze sheet' = Sheet.mapHeads Head.squeeze printSheet := by
  have hparse : parse { maxDepth := 256 } printText = .ok printSheet :=
    eq_ok_of_toOption (by decide +kernel)
  exact ⟨hparse, strict_sheet_again hparse (by decide +kernel)⟩

end Sheet
end StyleTrim
