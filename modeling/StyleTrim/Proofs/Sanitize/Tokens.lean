import StyleTrim.Proofs.Sanitize.Remaining

/-!
# What is left among the tokens

The second pass looks at the tokens of a text, cuts some of them out, and is not run again on what
it wrote. There the tokens that were not cut out come again, one after the other, and nothing else
does. Two things can go wrong with that. Tokens that a cut stood between are neighbours now, and may
be dangerous together. And an address in quotes whose string was cut out becomes an address that
went wrong, which swallows all that stands before the next parenthesis.
-/

namespace StyleTrim
namespace Sanitize

open Token Decoded

/-!
## Cuts and the text behind them
-/

theorem replaceSpans_cut {offset : Nat} {gap cut s : Bytes} {spans : List Span} {start stop : Nat}
    (hstart : start = offset + gap.length) (hstop : stop = start + cut.length) :
    replaceSpans offset (gap ++ (cut ++ s)) (⟨start, stop⟩ :: spans) =
      gap ++ (marker ++ replaceSpans stop s spans) := by
  subst hstart hstop
  exact replaceSpans_cons offset gap cut s spans

theorem lexemes_marker (s : Bytes) : lexemes (marker ++ s) = lexemes s := by
  have hmarker : (Reader.comment.read (marker ++ [0x20])).map (fun x => (x.1.raw, x.2)) =
      some (marker, [0x20]) := by
    decide +kernel
  rcases Option.map_eq_some_iff.mp hmarker with ⟨⟨p, rest⟩, hread, heq⟩
  rcases Prod.mk.inj heq with ⟨hraw, hrest⟩
  dsimp only at hraw hrest
  rw [← hraw, hrest] at hread
  rw [← hraw]
  exact lexemes_comment (Reader.comment_read_again (List.cons_ne_nil _ _) hread s)

theorem parts_marker {b : UInt8} (hb : Byte.isSpace b = false) (x s s' : Bytes) :
    Parts (x ++ (marker ++ s')) (x ++ b :: s) := by
  apply Parts.append
  apply Parts.here (Or.inl rfl)
  rintro rfl
  cases hb

def Follows (s' s : Bytes) : Prop :=
  s' = s ∨ Parts s' s

theorem Follows.append {s' s : Bytes} (h : Follows s' s) (x : Bytes) :
    Follows (x ++ s') (x ++ s) :=
  h.imp (congrArg (x ++ ·)) (Parts.append · x)

theorem Follows.stands {s' s : Bytes} {l : Lexeme} (h : Follows s' s)
    (hstands : Lexeme.Stands l s)
    (hargument : l.kind = .function -> Lexeme.opensAddress l.value s' = false) :
    Lexeme.Stands l s' := by
  rcases h with rfl | hparts
  · exact hstands
  · exact hstands.parts hparts hargument

theorem lexemes_kept {gap s s' : Bytes} {t : Token} (hgap : Gap gap (t.raw ++ s))
    (hshape : Lexeme.Shape t.lexeme s) (h : Follows s' s)
    (hargument : t.kind = .function -> Lexeme.opensAddress t.value s' = false) :
    lexemes (gap ++ (t.raw ++ s')) = t.lexeme :: lexemes s' := by
  have hne : t.raw ++ s ≠ [] :=
    List.append_ne_nil_of_left_ne_nil (Lexeme.raw_ne_nil hshape) s
  rw [lexemes_gap hgap hne]
  exact lexemes_stands (h.stands (stands_of_gap hgap hshape) hargument)

theorem lexemes_cut {gap s : Bytes} (hgap : Gap gap s) (hne : s ≠ []) (s' : Bytes) :
    lexemes (gap ++ (marker ++ s')) = lexemes s' := by
  rw [lexemes_gap hgap hne, lexemes_marker]

/-!
## Addresses that lost their string
-/

theorem opening_of_function {f : Lexeme} {gap s : Bytes} (h : Lexeme.Shape f s)
    (hopens : opensQuoted f = true) (hblank : gap.all Byte.isSpace = true) (s' : Bytes) :
    Lexeme.AddressOpening (f.raw ++ gap) (marker ++ s') := by
  rcases Bool.and_eq_true_iff.mp hopens with ⟨hkind, hword⟩
  cases h with
  | function hstart hscan hargument =>
      rename_i x v
      have hends : Lexeme.NameEnds (0x28 :: (gap ++ (marker ++ s'))) (0x28 :: s) := by
        constructor
        · intro b hb
          cases hb
          decide
        · exact Or.inl rfl
      refine ⟨⟨x, v, gap, by simp, hword, hblank, ?_, hends.scan hscan⟩, ?_⟩
      · exact hstart.again hscan hends.stop nofun
      · intro b hb
        have hmarker : (marker ++ s').head? = some 0x2F := rfl
        rw [hmarker] at hb
        cases hb
        decide
  | punctuation hmark =>
      exact absurd (beq_iff_eq.mp hkind) (Lexeme.ne_of_punctuation hmark rfl)
  | _ => cases hkind

/-- The byte neither ends what an address that went wrong swallows, nor hides the byte behind it. -/
def isPlain (b : UInt8) : Bool :=
  b != 0x29 && b != 0x5C

theorem remnant_scan_plain {x s : Bytes} (hx : x.all isPlain = true)
    (hs : Reader.remnant.read s = none) : Reader.remnant.scan (x ++ s) = ⟨x, x, s⟩ := by
  induction x with
  | nil => exact Reader.remnant.scan_none hs
  | cons b x ih =>
      simp only [List.all_cons, Bool.and_eq_true, isPlain, bne_iff_ne] at hx
      have hread : Reader.remnant.read (b :: (x ++ s)) = some (.plain b, x ++ s) :=
        Reader.remnant_read_plain _ hx.1.2 hx.1.1
      rw [List.cons_append, Reader.remnant.scan_some hread, ih (by simpa [isPlain] using hx.2)]
      rfl

def markerTail : Bytes :=
  marker.drop 3

theorem marker_eq : marker = 0x2F :: 0x2A :: 0x20 :: markerTail := by
  decide +kernel

theorem address_scan_marker (s : Bytes) :
    Reader.address.scan (0x2F :: 0x2A :: 0x20 :: s) = ⟨[0x2F, 0x2A], [0x2F, 0x2A], 0x20 :: s⟩ := by
  have hsolidus : Reader.address.read (0x2F :: 0x2A :: 0x20 :: s) =
      some (.plain 0x2F, 0x2A :: 0x20 :: s) := Reader.address_read_plain _ (by decide) (by decide)
  have hasterisk : Reader.address.read (0x2A :: 0x20 :: s) = some (.plain 0x2A, 0x20 :: s) :=
    Reader.address_read_plain _ (by decide) (by decide)
  have hspace : Reader.address.read (0x20 :: s) = none := Reader.address_read_none _ (by decide)
  rw [Reader.address.scan_some hsolidus, Reader.address.scan_some hasterisk,
    Reader.address.scan_none hspace]
  rfl

theorem stands_of_opening {l : Lexeme} {opening t x s : Bytes}
    (hopen : Lexeme.AddressOpening opening t) (hraw : l.raw = opening ++ x)
    (hshape : Lexeme.Shape l s) : Lexeme.Stands l s := by
  apply Lexeme.stands_of_shape hshape
  intro hsolidus
  have hparen := paren_mem_of_opening hopen
  have hmem : (0x28 : UInt8) ∈ l.raw := by
    rw [hraw]
    exact List.mem_append_left _ hparen
  rw [hsolidus] at hmem
  exact absurd hmem (by decide)

theorem lexemes_lost {f : Lexeme} {gap s mid rest : Bytes} (h : Lexeme.Shape f s)
    (hopens : opensQuoted f = true) (hblank : gap.all Byte.isSpace = true)
    (hmid : mid.all isPlain = true) (hrest : rest = [] ∨ ∃ t, rest = 0x29 :: t) :
    ∃ l, l.kind = .badUrl ∧ lexemes (f.raw ++ (gap ++ (marker ++ (mid ++ rest)))) =
      l :: lexemes (rest.drop 1) := by
  have hopening := opening_of_function h hopens hblank (mid ++ rest)
  have htail : (markerTail ++ mid).all isPlain = true := by
    rw [List.all_append, hmid, Bool.and_true]
    decide +kernel
  have hhead : (markerTail ++ mid).head? = some 0x5B := rfl
  have hne : markerTail ++ mid ≠ [] := by
    intro hnil
    rw [hnil] at hhead
    cases hhead
  have hstop : ∀ b ∈ (markerTail ++ mid).head?, Byte.isSpace b = false ∧ b ≠ 0x29 := by
    intro b hb
    rw [hhead] at hb
    cases hb
    decide
  rw [marker_eq] at hopening ⊢
  rcases hrest with rfl | ⟨t, rfl⟩
  · have hscan := remnant_scan_plain (s := []) htail rfl
    rw [List.append_nil] at hscan
    have hopening' : Lexeme.AddressOpening (f.raw ++ gap)
        ([0x2F, 0x2A] ++ ([0x20] ++ (markerTail ++ mid))) := by
      simpa using hopening
    have hshape := Lexeme.Shape.openBadUrl hopening'
      (address_scan_marker _) (by decide) hne hstop hscan
    have hread := lexemes_stands (stands_of_opening hopening' rfl hshape)
    refine ⟨_, ?_, (congrArg lexemes ?_).trans hread⟩
    · rfl
    · simp
  · have hscan := remnant_scan_plain (s := 0x29 :: t) htail rfl
    have hopening' : Lexeme.AddressOpening (f.raw ++ gap)
        ([0x2F, 0x2A] ++ ([0x20] ++ ((markerTail ++ mid) ++ 0x29 :: t))) := by
      simpa using hopening
    have hshape := Lexeme.Shape.badUrl hopening'
      (address_scan_marker _) (by decide) hne hstop hscan
    have hread := lexemes_stands (stands_of_opening hopening' rfl hshape)
    refine ⟨_, ?_, (congrArg lexemes ?_).trans hread⟩
    · rfl
    · simp

/-!
## The steps of a pass
-/

inductive Step (offset : Nat) (before : List Token) : Bytes -> List Token -> Prop where
  | ending {gap : Bytes} (hgap : Gap gap []) :
      Step offset before gap [endAt (offset + gap.length) (!gap.isEmpty)]
  | keep {gap s : Bytes} {t : Token} {ts : List Token} (hgap : Gap gap (t.raw ++ s))
      (hplace : t.offset = offset + gap.length) (hshape : Lexeme.Shape t.lexeme s)
      (hnone : stopAt? before t ts = none) (htail : Laid t.stop s ts) :
      Step offset before (gap ++ (t.raw ++ s)) (t :: ts)
  | cut {gap cut s : Bytes} {b : UInt8} {stop : Nat} {before' front ts : List Token}
      (hgap : Gap gap (b :: cut ++ s)) (hb : Byte.isSpace b = false)
      (hstop : stop = offset + gap.length + (b :: cut).length) (hfront : front ≠ [])
      (hkinds : ∀ m ∈ front, m.kind ≠ .rightParen ∧ opensQuoted m.lexeme = false)
      (hinside : ∀ m ∈ front, m.raw ≠ [] ∧ offset + gap.length ≤ m.offset ∧ m.stop ≤ stop)
      (hspans : Decoded.collect before (front ++ ts) [] =
        ⟨offset + gap.length, stop⟩ :: Decoded.collect before' ts [])
      (htail : Laid stop s ts) :
      Step offset before (gap ++ (b :: cut ++ s)) (front ++ ts)

theorem opensQuoted_of_stopAt? {before ts : List Token} {t : Token} {stop : Nat}
    (h : stopAt? before t ts = some stop) : opensQuoted t.lexeme = false := by
  rw [Bool.eq_false_iff]
  intro hopens
  simp only [opensQuoted, Bool.and_eq_true, beq_iff_eq, lexeme] at hopens
  rcases hopens with ⟨hkind, hurl⟩
  simp only [stopAt?, hkind] at h
  split at h
  · rename_i hexpression
    rw [sameWord, beq_iff_eq] at hurl hexpression
    rw [hurl] at hexpression
    exact absurd hexpression (by decide)
  · cases h

theorem step_of_laid {offset : Nat} {s : Bytes} {ts : List Token} (h : Laid offset s ts)
    (before : List Token) : Step offset before s ts := by
  cases h with
  | ending hgap => exact .ending hgap
  | token hgap hshape htail =>
      rename_i gap s l ts
      generalize ht : ofLexeme l (offset + gap.length) (!gap.isEmpty) = t
      have hlexeme : t.lexeme = l := by rw [← ht]; rfl
      have hplace : t.offset = offset + gap.length := by rw [← ht]; rfl
      have hend : t.stop = offset + gap.length + l.raw.length := by rw [← ht]; rfl
      have hraw : t.raw = l.raw := congrArg Lexeme.raw hlexeme
      rw [← hend] at htail
      rw [← hraw] at hgap hend ⊢
      rw [← hlexeme] at hshape
      cases hstop : stopAt? before t ts with
      | none => exact .keep hgap hplace hshape hstop htail
      | some stop =>
          have hspace : t.kind ≠ .whitespace := by
            intro hkind
            simp [stopAt?, hkind] at hstop
          have hkinds : t.kind ≠ .rightParen ∧ opensQuoted t.lexeme = false := by
            refine ⟨?_, opensQuoted_of_stopAt? hstop⟩
            intro hkind
            simp [stopAt?, hkind] at hstop
          rcases List.exists_cons_of_ne_nil (Lexeme.raw_ne_nil hshape) with ⟨b, x, hbx⟩
          change t.raw = b :: x at hbx
          have hb : Byte.isSpace b = false := by
            rw [Bool.eq_false_iff]
            intro hb
            have hhead : t.lexeme.raw.head? = some b := congrArg List.head? hbx
            exact hspace (Lexeme.shape_of_isSpace hshape hhead hb)
          have hspans := collect_cut hstop
          rw [hplace] at hspans
          rcases stopAt?_cases hstop with ⟨rfl, _⟩ | hcolon
          · rw [hbx] at hgap hend ⊢
            change Step offset before _ ([t] ++ ts)
            refine .cut hgap hb hend (List.cons_ne_nil _ _)
              (List.forall_mem_singleton.mpr hkinds)
              (List.forall_mem_singleton.mpr ⟨by simp [hbx], by omega, Nat.le_refl _⟩) hspans htail
          · rcases laid_colon htail hcolon with ⟨mid, rest, ts', rfl, hmid⟩
            rcases hmid.text with ⟨y, rfl, hy⟩
            have htext : t.raw ++ (y ++ 0x3A :: rest) = b :: (x ++ (y ++ [0x3A])) ++ rest := by
              rw [hbx]
              simp
            have hlength := congrArg List.length hbx
            rw [List.length_cons] at hlength
            rw [collect_passes hmid.kinds] at hspans
            rw [htext] at hgap ⊢
            change Step offset before _ ((t :: mid) ++ ts')
            refine .cut hgap hb ?_ (List.cons_ne_nil _ _)
              (List.forall_mem_cons.mpr ⟨hkinds, ?_⟩) (List.forall_mem_cons.mpr ⟨⟨?_, ?_, ?_⟩, ?_⟩)
              hspans hmid.laid
            · rw [hy, hend]
              simp only [List.length_cons, List.length_append, List.length_nil]
              omega
            · intro m hm
              rcases hmid.kinds m hm with hm | hm <;> simp [opensQuoted, lexeme, hm]
            · simp [hbx]
            · exact Nat.le_of_eq hplace.symm
            · omega
            · intro m hm
              rcases hmid.inside m hm with ⟨hne, hle, hlt⟩
              exact ⟨hne, by omega, hlt⟩

theorem replaceSpans_keep {offset : Nat} {gap s : Bytes} {t : Token} {ts : List Token}
    (hplace : t.offset = offset + gap.length) (htail : Laid t.stop s ts) (before : List Token) :
    replaceSpans offset (gap ++ (t.raw ++ s)) (Decoded.collect before ts []) =
      gap ++ (t.raw ++ replaceSpans t.stop s (Decoded.collect before ts [])) := by
  have hstop : t.stop = offset + gap.length + t.raw.length := by rw [Token.stop, hplace]
  have hfits := fits_collect htail before
  rw [hstop] at hfits ⊢
  rw [replaceSpans_behind hfits.behind, replaceSpans_behind hfits]

theorem remaining_laid {s : Bytes} {t : Token} {ts : List Token} (hloses : loses t ts = false)
    (htail : Laid t.stop s ts) (before : List Token) :
    remaining (Decoded.collect before ts []) (t :: ts) =
      t.lexeme :: remaining (Decoded.collect before ts []) ts :=
  remaining_keep hloses (fits_collect htail before).start_le

/-!
## What an address swallows
-/

def Closing (offset : Nat) (s : Bytes) (ts : List Token) : Prop :=
  ∃ p ∈ ts, p.kind = .rightParen ∧ (s.take (p.offset - offset)).all isPlain = true

theorem Closing.behind {offset : Nat} {x s : Bytes} {p : Token} {ts : List Token} (hp : p ∈ ts)
    (hkind : p.kind = .rightParen)
    (hplain : ((x ++ s).take (p.offset - offset)).all isPlain = true)
    (hplace : ∀ t ∈ ts, offset + x.length ≤ t.offset) :
    x.all isPlain = true ∧ Closing (offset + x.length) s ts := by
  have hle := hplace p hp
  rw [List.take_append, List.take_of_length_le (by omega), List.all_append,
    Bool.and_eq_true] at hplain
  refine ⟨hplain.1, p, hp, hkind, ?_⟩
  rw [← Nat.sub_sub]
  exact hplain.2

/-- The pass over the text `s` writes plain bytes, then a parenthesis, and then goes on with the
text `rest`. -/
structure Swallows (offset : Nat) (s : Bytes) (before ts : List Token) (x rest : Bytes)
    (before' ts' : List Token) : Prop where
  text : s = x ++ rest
  tokens : ∃ front, front ≠ [] ∧ ts = front ++ ts'
  behind : behindParen ts = ts'
  laid : Laid (offset + x.length) rest ts'
  written : ∃ mid, mid.all isPlain = true ∧
    replaceSpans offset s (Decoded.collect before ts []) =
      mid ++ 0x29 :: replaceSpans (offset + x.length) rest (Decoded.collect before' ts' [])
  remains : remaining (Decoded.collect before ts []) ts' =
    remaining (Decoded.collect before' ts' []) ts'

theorem Swallows.extend {offset next : Nat} {s s' x rest front : Bytes}
    {before ts before₁ ts₁ before' ts' : List Token}
    (h : Swallows next s' before₁ ts₁ x rest before' ts') (passed : List Token) (out : Bytes)
    (htext : s = front ++ s') (hnext : next = offset + front.length)
    (htokens : ts = passed ++ ts₁) (hpassed : ∀ m ∈ passed, m.kind ≠ .rightParen)
    (hout : out.all isPlain = true)
    (hwritten : replaceSpans offset s (Decoded.collect before ts []) =
      out ++ replaceSpans next s' (Decoded.collect before₁ ts₁ []))
    (hremains : remaining (Decoded.collect before ts []) ts' =
      remaining (Decoded.collect before₁ ts₁ []) ts') :
    Swallows offset s before ts (front ++ x) rest before' ts' := by
  rcases h.tokens with ⟨more, hmore, hts⟩
  rcases h.written with ⟨mid, hmid, hwrites⟩
  have hplace : offset + (front ++ x).length = next + x.length := by
    rw [List.length_append, hnext, Nat.add_assoc]
  refine ⟨by rw [htext, h.text, List.append_assoc], ⟨passed ++ more, by simp [hmore], ?_⟩, ?_, ?_,
    ⟨out ++ mid, ?_, ?_⟩, hremains.trans h.remains⟩
  · rw [htokens, hts, List.append_assoc]
  · rw [htokens, behindParen_append hpassed, h.behind]
  · rw [hplace]
    exact h.laid
  · rw [List.all_append, hout, hmid]
    rfl
  · rw [hwritten, hwrites, hplace, List.append_assoc]

theorem isPlain_marker : marker.all isPlain = true := by
  decide +kernel

theorem kind_of_isPlain {l : Lexeme} {s : Bytes} (h : Lexeme.Shape l s)
    (hplain : l.raw.all isPlain = true) : l.kind ≠ .rightParen := by
  intro hkind
  rw [Lexeme.raw_of_punctuation (b := 0x29) h rfl hkind] at hplain
  cases hplain

theorem kind_of_plain_text {offset : Nat} {s : Bytes} {ts : List Token} (h : Laid offset s ts)
    (hplain : s.all isPlain = true) : ∀ t ∈ ts, t.kind ≠ .rightParen := by
  induction h with
  | ending hgap =>
      intro t ht
      rw [List.mem_singleton.mp ht]
      intro hkind
      cases hkind
  | token hgap hshape htail ih =>
      rw [List.all_append, List.all_append, Bool.and_eq_true, Bool.and_eq_true] at hplain
      exact List.forall_mem_cons.mpr ⟨kind_of_isPlain hshape hplain.2.1, ih hplain.2.2⟩

theorem swallows_of_closing {offset : Nat} {s : Bytes} {ts : List Token} (h : Laid offset s ts)
    (hclosing : Closing offset s ts) (before : List Token) :
    ∃ x rest before' ts', Swallows offset s before ts x rest before' ts' := by
  induction hlength : ts.length using Nat.strongRecOn generalizing offset s ts before with
  | ind n ih =>
    rcases hclosing with ⟨p, hp, hkind, hplain⟩
    cases step_of_laid h before with
    | ending hgap =>
        rw [List.mem_singleton] at hp
        subst hp
        cases hkind
    | keep hgap hplace hshape hnone htail =>
        rename_i gap s t ts
        have hstop : t.stop = offset + (gap ++ t.raw).length := by
          rw [Token.stop, hplace, List.length_append, Nat.add_assoc]
        have hwritten := replaceSpans_keep hplace htail (t :: before)
        rw [← collect_keep hnone] at hwritten
        rcases List.mem_cons.mp hp with rfl | hp
        · have hraw : p.raw = [0x29] := Lexeme.raw_of_punctuation hshape rfl hkind
          have hgap' : gap.all isPlain = true := by simpa [hplace] using hplain
          refine ⟨gap ++ p.raw, s, p :: before, ts, by simp, ⟨[p], by simp, rfl⟩,
            behindParen_cons ts hkind, hstop ▸ htail, ⟨gap, hgap', ?_⟩, ?_⟩
          · rw [hwritten, collect_keep hnone, ← hstop, hraw]
            rfl
          · rw [collect_keep hnone]
        · rw [← List.append_assoc] at hplain
          rcases Closing.behind hp hkind hplain (hstop ▸ htail.offset_le) with ⟨hfront, hbehind⟩
          rw [← hstop] at hbehind
          rcases ih ts.length (by simp [← hlength]) htail hbehind (t :: before) rfl with
            ⟨x, rest, before', ts', hswallows⟩
          have hplain' := hfront
          rw [List.all_append, Bool.and_eq_true] at hplain'
          refine ⟨_, rest, before', ts', hswallows.extend [t] (gap ++ t.raw)
            (List.append_assoc _ _ _).symm hstop rfl
            (List.forall_mem_singleton.mpr (kind_of_isPlain hshape hplain'.2)) hfront ?_ ?_⟩
          · rw [hwritten, collect_keep hnone, List.append_assoc]
          · rw [collect_keep hnone]
    | cut hgap hb hstop hfront hkinds hinside hspans htail =>
        rename_i gap cut s b stop before' front ts
        have hstop' : stop = offset + (gap ++ b :: cut).length := by
          rw [hstop, List.length_append, Nat.add_assoc]
        rcases List.mem_append.mp hp with hp | hp
        · exact absurd hkind (hkinds p hp).1
        · rw [← List.append_assoc] at hplain
          rcases Closing.behind hp hkind hplain (hstop' ▸ htail.offset_le) with ⟨hplain', hbehind⟩
          rw [← hstop'] at hbehind
          rw [List.all_append, Bool.and_eq_true] at hplain'
          have hshorter : ts.length < n := by
            have hpos := List.length_pos_iff.mpr hfront
            rw [← hlength, List.length_append]
            omega
          rcases ih ts.length hshorter htail hbehind before' rfl with
            ⟨x, rest, before'', ts', hswallows⟩
          refine ⟨_, rest, before'', ts', hswallows.extend front (gap ++ marker)
            (List.append_assoc _ _ _).symm hstop' rfl (fun m hm => (hkinds m hm).1) ?_ ?_ ?_⟩
          · rw [List.all_append, hplain'.1, isPlain_marker]
            rfl
          · rw [hspans, replaceSpans_cut rfl hstop, List.append_assoc]
          · rcases hswallows.tokens with ⟨more, _, rfl⟩
            rw [hspans, remaining_behind]
            exact fun u hu => htail.offset_le u (List.mem_append_right more hu)

/-!
## What is read from the text behind the cuts
-/

/-- The first parenthesis or backslash behind the token, if there is any, is a parenthesis among the
tokens. -/
def closes (s : Bytes) (t : Token) (ts : List Token) : Bool :=
  (s.drop t.stop).all isPlain ||
    ts.any fun p =>
      p.kind == .rightParen && ((s.drop t.stop).take (p.offset - t.stop)).all isPlain

/-- Every dangerous string of an address in quotes is closed behind it. -/
def argumentsClose (s : Bytes) : List Token -> Bool
  | [] => true
  | f :: ts =>
      (!opensQuoted f.lexeme ||
        (firstVisible ts).all fun t => !isDangerousLink t.lexeme || closes s t ts) &&
      argumentsClose s ts

theorem argumentsClose_append {s : Bytes} (front : List Token) {ts : List Token}
    (h : argumentsClose s (front ++ ts) = true) : argumentsClose s ts = true := by
  induction front with
  | nil => exact h
  | cons f front ih => exact ih (Bool.and_eq_true_iff.mp h).2

theorem stopAt?_argument {before : List Token} {f t : Token} (ts : List Token)
    (hlast : lastSignificant before = some f) (hopens : opensQuoted f.lexeme = true)
    (hquoted : t.isQuoted) :
    stopAt? before t ts = if isDangerousLink t.lexeme then some t.stop else none := by
  have hurl : f.kind = .function ∧ sameWord f.value (ascii "url") = true := by
    simpa [opensQuoted, lexeme] using hopens
  rcases hquoted with hkind | hkind
  · simp [stopAt?, hkind, hlast, isDangerousString, hurl, isDangerousLink, lexeme]
  · simp [stopAt?, hkind, isDangerousLink, lexeme]

theorem plain_replaceSpans {offset : Nat} {s : Bytes} {spans : List Span} (h : Fits offset s spans)
    (hs : s.all isPlain = true) : (replaceSpans offset s spans).all isPlain = true := by
  induction h with
  | nil => exact hs
  | cons hne hlast htail ih =>
      rw [List.all_append, List.all_append, Bool.and_eq_true, Bool.and_eq_true] at hs
      rw [replaceSpans_cons, List.all_append, List.all_append, hs.1, isPlain_marker, ih hs.2.2]
      rfl

theorem isInert_lexemes_nil : ∀ l ∈ lexemes [], IsInert l := by
  intro l hl
  rw [lexemes, tokenize, streamFrom_nil 0 (by rw [Reader.comment.scan_none rfl])] at hl
  rw [List.map_singleton, List.mem_singleton] at hl
  rw [hl]
  exact Or.inr rfl

theorem lexemes_of_ending {gap : Bytes} (h : Gap gap []) : lexemes gap = lexemes [] := by
  rcases h with ⟨v, hscan⟩
  rw [List.append_nil] at hscan
  apply lexemes_of_scan
  rw [hscan, Reader.comment.scan_none rfl]

theorem collect_argument {offset : Nat} {s gap rest : Bytes} {f t : Token}
    {ws ts : List Token} (before : List Token) (h : StringFirst offset s gap ws t rest ts)
    (hopens : opensQuoted f.lexeme = true) :
    ∃ before', Decoded.collect (f :: before) (ws ++ t :: ts) [] =
      if isDangerousLink t.lexeme then ⟨t.offset, t.stop⟩ :: Decoded.collect before' ts []
      else Decoded.collect before' ts [] := by
  have hf : f.kind ≠ .whitespace := by
    have hkind := (Bool.and_eq_true_iff.mp hopens).1
    intro hspace
    rw [lexeme, hspace] at hkind
    cases hkind
  have hlast : lastSignificant (ws.reverse ++ f :: before) = some f := by
    rw [lastSignificant_space fun w hw => h.space w (List.mem_reverse.mp hw), lastSignificant,
      if_neg hf]
  have hstop := stopAt?_argument ts hlast hopens h.quoted
  refine ⟨t :: (ws.reverse ++ f :: before), ?_⟩
  rw [collect_passes fun w hw => Or.inl (h.space w hw)]
  split
  · rename_i hlink
    rw [if_pos hlink] at hstop
    exact collect_cut hstop
  · rename_i hlink
    rw [if_neg hlink] at hstop
    exact collect_keep hstop

theorem opensAddress_of_string {offset : Nat} {s gap rest : Bytes} {t : Token}
    {ws ts : List Token} (h : StringFirst offset s gap ws t rest ts) (name s' : Bytes) :
    Lexeme.opensAddress name (gap ++ (t.raw ++ s')) = false := by
  rcases raw_of_isQuoted h.shape h.quoted with ⟨q, x, hraw, hq⟩
  apply opensAddress_of_quote
  rw [hraw, Lexeme.dropWhile_append_of_stop h.blank]
  · exact hq
  · intro b hb
    cases hb
    rcases Byte.isQuote_cases hq with rfl | rfl <;> decide

theorem head?_remaining_string {offset : Nat} {s gap rest : Bytes} {t : Token} {ws ts : List Token}
    (h : StringFirst offset s gap ws t rest ts) (before : List Token) :
    (visible (remaining (Decoded.collect before ts []) (ws ++ t :: ts))).head? =
      some t.lexeme := by
  have hloses : loses t ts = false := by
    rcases h.quoted with hkind | hkind <;> simp [loses, opensQuoted, lexeme, hkind]
  rw [visible_remaining _ h.space, remaining_laid hloses h.laid,
    visible_cons _ (isQuoted_kind h.quoted).1]
  rfl

theorem closing_of_closes {whole : Bytes} {offset : Nat} {s gap rest : Bytes} {f t : Token}
    {ws ts : List Token} (h : StringFirst offset s gap ws t rest ts)
    (hopens : opensQuoted f.lexeme = true) (hlink : isDangerousLink t.lexeme = true)
    (hwhole : whole.drop t.stop = rest)
    (hclose : argumentsClose whole (f :: (ws ++ t :: ts)) = true) :
    rest.all isPlain = true ∨ Closing t.stop rest ts := by
  have hcloses : closes whole t (ws ++ t :: ts) = true := by
    have hfirst := (Bool.and_eq_true_iff.mp hclose).1
    rw [h.firstVisible] at hfirst
    simpa [hopens, hlink] using hfirst
  rw [closes, hwhole, Bool.or_eq_true] at hcloses
  refine hcloses.imp id ?_
  intro hany
  rcases List.any_eq_true.mp hany with ⟨p, hp, hparen⟩
  rw [Bool.and_eq_true, beq_iff_eq] at hparen
  refine ⟨p, ?_, hparen⟩
  rcases List.mem_append.mp hp with hp | hp
  · rw [h.space p hp] at hparen
    cases hparen.1
  · rcases List.mem_cons.mp hp with rfl | hp
    · rcases h.quoted with hkind | hkind <;> simp [hkind] at hparen
    · exact hp

theorem lexemes_without_string {offset : Nat} {s gap rest : Bytes} {f t : Token}
    {ws ts : List Token} (hshape : Lexeme.Shape f.lexeme s)
    (h : StringFirst offset s gap ws t rest ts) (hopens : opensQuoted f.lexeme = true)
    (hclosing : rest.all isPlain = true ∨ Closing t.stop rest ts) (before : List Token) :
    ∃ l, l.kind = .badUrl ∧ ∃ s',
      lexemes (f.raw ++ (gap ++ (marker ++
          replaceSpans t.stop rest (Decoded.collect before ts [])))) = l :: lexemes s' ∧
        (s' = [] ∧ behindParen ts = [] ∨
          ∃ x rest' before' ts', Swallows t.stop rest before ts x rest' before' ts' ∧
            s' = replaceSpans (t.stop + x.length) rest' (Decoded.collect before' ts' [])) := by
  rcases hclosing with hplain | hclosing
  · have hwritten := plain_replaceSpans (fits_collect h.laid before) hplain
    rcases lexemes_lost hshape hopens h.blank hwritten (Or.inl rfl) with ⟨l, hkind, hread⟩
    rw [List.append_nil] at hread
    exact ⟨l, hkind, [], hread,
      Or.inl ⟨rfl, behindParen_none (kind_of_plain_text h.laid hplain)⟩⟩
  · rcases swallows_of_closing h.laid hclosing before with ⟨x, rest', before', ts', hswallows⟩
    rcases hswallows.written with ⟨mid, hmid, hwritten⟩
    rcases lexemes_lost hshape hopens h.blank hmid (Or.inr ⟨_, rfl⟩) with ⟨l, hkind, hread⟩
    rw [← hwritten] at hread
    exact ⟨l, hkind, _, hread, Or.inr ⟨x, rest', before', ts', hswallows, rfl⟩⟩

theorem follows_of_laid {offset : Nat} {s : Bytes} {ts : List Token} (h : Laid offset s ts)
    (before : List Token) : Follows (replaceSpans offset s (Decoded.collect before ts [])) s := by
  induction hlength : ts.length using Nat.strongRecOn generalizing offset s ts before with
  | ind n ih =>
    cases step_of_laid h before with
    | ending hgap => exact Or.inl rfl
    | keep hgap hplace hshape hnone htail =>
        rename_i gap s t ts
        have hfollows := ih ts.length (by simp [← hlength]) htail (t :: before) rfl
        rw [collect_keep hnone, replaceSpans_keep hplace htail]
        exact (hfollows.append t.raw).append gap
    | cut hgap hb hstop hfront hkinds hinside hspans htail =>
        rename_i gap cut s b stop before' front ts
        rw [hspans, replaceSpans_cut rfl hstop]
        exact Or.inr (parts_marker hb gap _ _)

def Prunes (offset : Nat) (s : Bytes) (before ts : List Token) : Prop :=
  Pruned (remaining (Decoded.collect before ts []) ts)
    (lexemes (replaceSpans offset s (Decoded.collect before ts [])))

theorem drop_behind {whole x s : Bytes} {offset stop : Nat} (h : whole.drop offset = x ++ s)
    (hstop : stop = offset + x.length) : whole.drop stop = s := by
  rw [hstop, ← List.drop_drop, h, List.drop_left]

theorem prunes_keep {offset : Nat} {gap s : Bytes} {t : Token} {ts before : List Token}
    (hgap : Gap gap (t.raw ++ s)) (hplace : t.offset = offset + gap.length)
    (hshape : Lexeme.Shape t.lexeme s) (hnone : stopAt? before t ts = none)
    (htail : Laid t.stop s ts) (hpruned : Prunes t.stop s (t :: before) ts)
    (hargument : t.kind = .function -> Lexeme.opensAddress t.value
      (replaceSpans t.stop s (Decoded.collect (t :: before) ts [])) = false)
    (hloses : loses t ts = false)
    (hlink : opensQuoted t.lexeme = true ->
      ∀ m ∈ (visible (remaining (Decoded.collect (t :: before) ts []) ts)).head?,
        isDangerousLink m = false) :
    Prunes offset (gap ++ (t.raw ++ s)) before (t :: ts) := by
  have hfollows := follows_of_laid htail (t :: before)
  rw [Prunes, collect_keep hnone, replaceSpans_keep hplace htail, remaining_laid hloses htail,
    lexemes_kept hgap hshape hfollows hargument]
  exact .keep (isActive_of_stopAt? hnone) hlink hpruned

theorem prunes_lost {whole : Bytes} {offset : Nat} {gap s gap' rest : Bytes} {t u : Token}
    {ws ts before before' : List Token} (hgap : Gap gap (t.raw ++ s))
    (hplace : t.offset = offset + gap.length) (hshape : Lexeme.Shape t.lexeme s)
    (hnone : stopAt? before t (ws ++ u :: ts) = none) (htail : Laid t.stop s (ws ++ u :: ts))
    (hstring : StringFirst t.stop s gap' ws u rest ts) (hopens : opensQuoted t.lexeme = true)
    (hlink : isDangerousLink u.lexeme = true) (hdrop : whole.drop t.stop = s)
    (hclose : argumentsClose whole (t :: (ws ++ u :: ts)) = true)
    (hspans : Decoded.collect (t :: before) (ws ++ u :: ts) [] =
      ⟨u.offset, u.stop⟩ :: Decoded.collect before' ts [])
    (ih : ∀ {offset s ts'}, ts'.length < ts.length -> Laid offset s ts' -> whole.drop offset = s ->
      argumentsClose whole ts' = true -> ∀ before, Prunes offset s before ts') :
    Prunes offset (gap ++ (t.raw ++ s)) before (t :: (ws ++ u :: ts)) := by
  have hrest : whole.drop u.stop = rest := by
    rw [hstring.text, ← List.append_assoc] at hdrop
    exact drop_behind hdrop (by rw [Token.stop, hstring.place, List.length_append, Nat.add_assoc])
  have hclosing := closing_of_closes hstring hopens hlink hrest hclose
  have hne : t.raw ++ s ≠ [] :=
    List.append_ne_nil_of_left_ne_nil (Lexeme.raw_ne_nil hshape) s
  have hwritten : replaceSpans t.stop s (Decoded.collect (t :: before) (ws ++ u :: ts) []) =
      gap' ++ (marker ++ replaceSpans u.stop rest (Decoded.collect before' ts [])) := by
    rw [hspans, hstring.text]
    exact replaceSpans_cut hstring.place rfl
  have hloses : loses t (ws ++ u :: ts) = true := by
    rw [loses, hopens, hstring.firstVisible]
    simpa using hlink
  have hbehind : behindParen (ws ++ u :: ts) = behindParen ts := by
    rw [List.append_cons, behindParen_append]
    intro m hm
    rcases List.mem_append.mp hm with hm | hm
    · rw [hstring.space m hm]
      decide
    · rw [List.mem_singleton.mp hm]
      rcases hstring.quoted with hkind | hkind <;> simp [hkind]
  rw [Prunes, collect_keep hnone, replaceSpans_keep hplace htail, remaining_lost _ hloses, hbehind,
    hwritten, hspans, lexemes_gap hgap hne]
  rcases lexemes_without_string hshape hstring hopens hclosing before' with
    ⟨l, hkind, s', hread, ⟨hend, hnone⟩ | ⟨x, rest', before'', ts', hswallows, htext⟩⟩
  · rw [hread, hend, hnone, remaining]
    refine .lost (Or.inl rfl) (Or.inl hkind) (.rest (by simp) isInert_lexemes_nil)
  · rcases hswallows.tokens with ⟨front, hfront, htokens⟩
    have hclose' : argumentsClose whole ts' = true := by
      apply argumentsClose_append (t :: (ws ++ u :: front))
      rw [List.cons_append, List.append_assoc, List.cons_append, ← htokens]
      exact hclose
    have hshorter : ts'.length < ts.length := by
      have hpos := List.length_pos_iff.mpr hfront
      rw [htokens, List.length_append]
      omega
    have hlost := ih hshorter hswallows.laid (drop_behind (hswallows.text ▸ hrest) rfl) hclose'
      before''
    have hstops : ∀ v ∈ ts', u.stop ≤ v.offset := by
      intro v hv
      apply hstring.laid.offset_le
      rw [htokens]
      exact List.mem_append_right front hv
    rw [hread, htext, hswallows.behind, remaining_behind hstops, hswallows.remains]
    exact .lost (Or.inl rfl) (Or.inl hkind) hlost

theorem prunes_of_laid {whole : Bytes} {offset : Nat} {s : Bytes} {ts : List Token}
    (h : Laid offset s ts) (hwhole : whole.drop offset = s)
    (hclose : argumentsClose whole ts = true) (before : List Token) :
    Prunes offset s before ts := by
  induction hlength : ts.length using Nat.strongRecOn generalizing offset s ts before with
  | ind n ih =>
    cases step_of_laid h before with
    | ending hgap =>
        have hlexemes : ∀ l ∈ lexemes s, IsInert l := by
          rw [lexemes_of_ending hgap]
          exact isInert_lexemes_nil
        refine .rest ?_ hlexemes
        change ∀ k ∈ remaining [] [endAt (offset + s.length) (!s.isEmpty)], IsInert k
        rw [remaining_keep rfl (by simp), remaining]
        exact List.forall_mem_singleton.mpr (Or.inr rfl)
    | keep hgap hplace hshape hnone htail =>
        rename_i gap s t ts
        have hdrop : whole.drop t.stop = s := by
          rw [← List.append_assoc] at hwhole
          exact drop_behind hwhole (by rw [Token.stop, hplace, List.length_append, Nat.add_assoc])
        have hpruned := ih ts.length (by simp [← hlength]) htail hdrop
          (Bool.and_eq_true_iff.mp hclose).2 (t :: before) rfl
        have hkeep := prunes_keep hgap hplace hshape hnone htail hpruned
        cases hopens : opensQuoted t.lexeme with
        | false =>
            refine hkeep (fun hkind => ?_) (by simp [loses, hopens]) (by simp [hopens])
            have hword : sameWord t.value (ascii "url") = false := by
              simpa [opensQuoted, lexeme, hkind] using hopens
            simp [Lexeme.opensAddress, hword]
        | true =>
            rcases Bool.and_eq_true_iff.mp hopens with ⟨hkind, hword⟩
            rcases laid_argument htail
                (startsWithQuote_of_function hshape (beq_iff_eq.mp hkind) hword) with
              ⟨gap', ws, u, rest, ts', rfl, hstring⟩
            rcases collect_argument before hstring hopens with ⟨before', hspans⟩
            cases hlink : isDangerousLink u.lexeme with
            | false =>
                rw [hlink, if_neg Bool.false_ne_true] at hspans
                refine hkeep (fun _ => ?_) ?_ (fun _ m hm => ?_)
                · rw [hspans, hstring.text, replaceSpans_keep hstring.place hstring.laid]
                  exact opensAddress_of_string hstring _ _
                · simp [loses, hstring.firstVisible, hlink]
                · rw [hspans, head?_remaining_string hstring] at hm
                  cases hm
                  exact hlink
            | true =>
                rw [hlink, if_pos rfl] at hspans
                apply prunes_lost hgap hplace hshape hnone htail hstring hopens hlink hdrop hclose
                  hspans
                intro offset s ts'' hshorter hlaid hdrop' hclose' before''
                refine ih ts''.length ?_ hlaid hdrop' hclose' before'' rfl
                simp only [← hlength, List.length_cons, List.length_append]
                omega
    | cut hgap hb hstop hfront hkinds hinside hspans htail =>
        rename_i gap cut s b stop before' front ts
        have hdrop : whole.drop stop = s := by
          rw [← List.append_assoc] at hwhole
          exact drop_behind hwhole (by rw [hstop, List.length_append, Nat.add_assoc])
        have hshorter : ts.length < n := by
          have hpos := List.length_pos_iff.mpr hfront
          rw [← hlength, List.length_append]
          omega
        have hpruned := ih ts.length hshorter htail hdrop (argumentsClose_append front hclose)
          before' rfl
        rw [Prunes, hspans, replaceSpans_cut rfl hstop, lexemes_cut hgap (by simp),
          remaining_front hinside (fun m hm => (hkinds m hm).2) htail.offset_le]
        exact hpruned

/-!
## What is left
-/

/-- The tokens that remain do not join. -/
def Unjoined (s : Bytes) : Prop :=
  (visible (remaining (spans s) (tokenize s))).IsChain fun l m => joins l m = false

theorem spans_replaceSpans {s : Bytes} (h : argumentsClose s (tokenize s) = true) :
    spans (replaceSpans 0 s (spans s)) = [] ↔ Unjoined s := by
  have hpruned : Pruned _ (lexemes (replaceSpans 0 s (spans s))) :=
    prunes_of_laid (laid_tokenize s) rfl h []
  rw [spans_eq_nil_iff, and_iff_right hpruned.isActive]
  exact hpruned.isChain_iff

end Sanitize
end StyleTrim
