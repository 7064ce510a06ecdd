import Mathlib.Data.List.Forall2
import StyleTrim.Proofs.Token.Parting

/-!
# Separators and what they keep apart

`needsSeparator` tells of two neighbours whether something is written between them. The tokens read
back from what is written are compared with the two here, up to where they stand. Without a
separator two neighbours are read back exactly when they do not fuse; with an empty comment they
always are; and with a space they are unless the left one takes the space.
-/

namespace StyleTrim
namespace Token

open Lexeme

/-!
## Reading two tokens back
-/

/-- Text and value of the token are complete, and it is written as it is. -/
def isSolid (t : Token) : Bool :=
  t.kind != .whitespace && t.kind != .endOfText && t.kind != .badString && !t.unterminated &&
    !t.isDelim 0x5C

/-- The token opens an address in quotes. By itself it is an address without its end. -/
def isAddressFunction (t : Token) : Bool :=
  t.kind == .function && sameWord t.value (ascii "url")

def Likewise (us ts : List Token) : Prop :=
  List.Forall₂ (fun u t => u.alike t = true) us ts

/-- The tokens of the text are like `ts`, and there are no others. -/
def ReadsAs (s : Bytes) (ts : List Token) : Prop :=
  Likewise (tokenize s) (ts ++ [endAt 0 false])

/-- The first tokens of the text are like `ts`. -/
def BeginsAs (s : Bytes) (ts : List Token) : Prop :=
  ∃ us vs, tokenize s = us ++ vs ∧ Likewise us ts

/-- Two tokens with the text `between` between them are read as themselves, with the tokens `gap`
between them. The opening of an address has no argument there, so of it nothing is asked. -/
def ReadBack (left : Token) (between : Bytes) (gap : List Token) (right : Token) : Prop :=
  if right.isAddressFunction then
    BeginsAs (left.raw ++ (between ++ right.raw)) (left :: gap)
  else ReadsAs (left.raw ++ (between ++ right.raw)) (left :: (gap ++ [right]))

/-- The token that a single space is read as. -/
def oneSpace : Token :=
  ⟨.whitespace, [0x20], [0x20], 0, false, false⟩

variable {l r u : Token} {us vs ts : List Token} {s v w : Bytes} {m : Lexeme}

theorem alike_ofLexeme (t : Token) (offset : Nat) (afterComment : Bool) :
    (ofLexeme t.lexeme offset afterComment).alike t = true := by
  simp [alike, ofLexeme, lexeme]

theorem likewise_end (offset : Nat) : Likewise (streamFrom offset []) [endAt 0 false] := by
  rw [streamFrom_end]
  exact .cons rfl .nil

theorem likewise_of_stands (offset : Nat) (h : Stands l.lexeme s)
    (hrest : Likewise (streamFrom (offset + l.raw.length) s) ts) :
    Likewise (streamFrom offset (l.raw ++ s)) (l :: ts) := by
  have hstream := streamFrom_of_stands offset h
  change streamFrom offset (l.raw ++ s) = _ at hstream
  rw [hstream]
  exact .cons (alike_ofLexeme l _ _) hrest

theorem beginsAs_of_stands (h : Stands l.lexeme s) : BeginsAs (l.raw ++ s) [l] := by
  have hstream := streamFrom_of_stands 0 h
  change tokenize (l.raw ++ s) = [_] ++ _ at hstream
  exact ⟨_, _, hstream, .cons (alike_ofLexeme l _ _) .nil⟩

/-!
## Solid tokens
-/

theorem isSolid_kind (h : l.isSolid = true) :
    l.kind ≠ .whitespace ∧ l.kind ≠ .endOfText ∧ l.kind ≠ .badString ∧ l.unterminated = false ∧
      l.isDelim 0x5C = false := by
  simpa [isSolid, and_assoc] using h

theorem becomes_of_isSolid (h : l.isSolid = true) (hm : l.Becomes m) : m = l.lexeme := by
  rcases isSolid_kind h with ⟨_, _, hstring, hclosed, _⟩
  apply hm.same
  simp [isOpen, isOpenString, isOpenAddress, hstring, hclosed]

theorem lexed_of_neighbours (h : [l, r] <:+: tokenize s) (hr : r.isSolid = true) :
    ∃ ts, Lexed (l :: r :: ts) := by
  rcases laid_body (laid_tokenize s) with ⟨e, htokens, he⟩
  rw [htokens, List.infix_concat_iff] at h
  rcases h with ⟨front, hsuffix⟩ | ⟨front, back, hinfix⟩
  · have hlast := congrArg List.getLast? hsuffix
    simp only [List.getLast?_append, List.getLast?_cons_cons, List.getLast?_singleton,
      Option.some_or, Option.some.injEq] at hlast
    exact absurd (hlast ▸ he) (isSolid_kind hr).2.1
  · have hlexed := lexed_tokenize s
    rw [← hinfix, List.append_assoc] at hlexed
    exact ⟨back, hlexed.suffix⟩

theorem stands_at_end (h : r.Written) (hsolid : r.isSolid = true)
    (haddress : r.isAddressFunction = false) : Stands r.lexeme [] := by
  have hargument : r.kind = .function -> opensAddress r.value [] = false := by
    intro hkind
    have hurl : sameWord r.value (ascii "url") = false := by
      simpa [isAddressFunction, hkind] using haddress
    simp [opensAddress, hurl]
  rcases stands_before_blunt h Blunt.nil (by simp) hargument with ⟨m, hm, hstands⟩
  rwa [becomes_of_isSolid hsolid hm] at hstands

/-!
## Without a separator
-/

theorem stands_beside (hlexed : Lexed (l :: r :: ts)) (hl : l.isSolid = true)
    (hr : r.isSolid = true) (hsep : needsSeparator l r = false) (hfuse : l.fuses r = false)
    (hshape : Shape r.lexeme v) : Stands l.lexeme (r.raw ++ v) := by
  rcases Written.of_lexed hlexed (isSolid_kind hl).1 (isSolid_kind hl).2.2.2.2 with
    ⟨hleft, hargument, _⟩
  rcases Written.of_lexed hlexed.tail (isSolid_kind hr).1 (isSolid_kind hr).2.2.2.2 with
    ⟨hright, _, _⟩
  rcases becomes_of_shape hshape with ⟨m, hm⟩
  have hsame := becomes_of_isSolid hr hm
  rw [hsame] at hm
  have hopens : l.kind = .function -> opensAddress l.value (r.raw ++ v) = false := by
    apply hargument.opens
    intro u hu hquoted
    have hvisible : firstVisible (r :: ts) = some r := by simp [firstVisible, hright.space]
    obtain rfl : r = u := Option.some.inj (hvisible.symm.trans hu)
    exact startsWithQuote_dropWhile (startsWithQuote_of_isQuoted hshape hm hquoted v)
  rcases stands_before_token hleft hright hm hshape hsep hfuse hopens with ⟨m', hm', hstands⟩
  rwa [becomes_of_isSolid hl hm'] at hstands

theorem stands_before_address (hlexed : Lexed (l :: r :: ts)) (hl : l.isSolid = true)
    (hr : r.isSolid = true) (haddress : r.isAddressFunction = true)
    (hsep : needsSeparator l r = false) (hfuse : l.fuses r = false) :
    Stands l.lexeme r.raw := by
  have hkind : r.kind = .function := by
    simp only [isAddressFunction, Bool.and_eq_true, beq_iff_eq] at haddress
    exact haddress.1
  rcases Written.of_lexed hlexed (isSolid_kind hl).1 (isSolid_kind hl).2.2.2.2 with
    ⟨_, hargument, _⟩
  rcases Written.of_lexed hlexed.tail (isSolid_kind hr).1 (isSolid_kind hr).2.2.2.2 with
    ⟨⟨⟨s, hshape⟩, hspace, _⟩, _, _⟩
  have hquote : Shape r.lexeme [0x22] := by
    apply hshape.again ⟨(isSolid_kind hr).2.2.2.1, (isSolid_kind hr).2.2.1⟩
    have hno : opensAddress r.value [0x22] = false := opensAddress_of_quote rfl
    simpa [Spares, lexeme, hkind] using hno
  have hparts : Parts (r.raw ++ []) (r.raw ++ [0x22]) := (Parts.ended (by decide)).append r.raw
  rw [List.append_nil] at hparts
  apply (stands_beside hlexed hl hr hsep hfuse hquote).parts hparts
  intro hfunction
  -- The string of an address would have to be the next token, and that is a function.
  by_cases hurl : sameWord l.value (ascii "url") = true
  · rcases hargument hfunction hurl with ⟨u, hu, hquoted⟩
    have hvisible : firstVisible (r :: ts) = some r := by simp [firstVisible, hspace]
    obtain rfl : r = u := Option.some.inj (hvisible.symm.trans hu)
    rcases hquoted with hstring | hstring <;>
    · rw [hkind] at hstring
      cases hstring
  · simp [opensAddress, lexeme, hurl]

theorem readBack_beside (hlexed : Lexed (l :: r :: ts)) (hl : l.isSolid = true)
    (hr : r.isSolid = true) (hsep : needsSeparator l r = false) (hfuse : l.fuses r = false) :
    ReadBack l [] [] r := by
  rw [ReadBack, List.nil_append]
  split
  · rename_i haddress
    exact beginsAs_of_stands (stands_before_address hlexed hl hr haddress hsep hfuse)
  · rename_i haddress
    rcases Written.of_lexed hlexed.tail (isSolid_kind hr).1 (isSolid_kind hr).2.2.2.2 with
      ⟨hright, _, _⟩
    have hend := stands_at_end hright hr (by simpa using haddress)
    have hbeside := stands_beside hlexed hl hr hsep hfuse hend.shape
    have hread := likewise_of_stands 0 hbeside
      (likewise_of_stands _ hend (likewise_end _))
    rwa [List.append_nil] at hread

/-!
## With a separator
-/

theorem readBack_comment (hleft : l.Written) (hl : l.isSolid = true) (hkind : l.kind ≠ .function)
    (hright : r.Written) (hr : r.isSolid = true) : ReadBack l [0x2F, 0x2A, 0x2A, 0x2F] [] r := by
  have hstands : Stands l.lexeme ([0x2F, 0x2A, 0x2A, 0x2F] ++ r.raw) := by
    have hblunt : Blunt ([0x2F, 0x2A, 0x2A, 0x2F] ++ r.raw) := .cons (by decide) (by decide) _
    have hfront : ∀ b ∈ ([0x2F, 0x2A, 0x2A, 0x2F] ++ r.raw).head?, Byte.isSpace b = false := by
      intro b hb
      obtain rfl : 0x2F = b := by simpa using hb
      decide
    rcases stands_before_blunt hleft hblunt hfront (fun h => absurd h hkind) with
      ⟨m, hm, hstands⟩
    rwa [becomes_of_isSolid hl hm] at hstands
  rw [ReadBack]
  split
  · exact beginsAs_of_stands hstands
  · rename_i haddress
    have hend := stands_at_end hright hr (by simpa using haddress)
    apply likewise_of_stands 0 hstands
    have hcomment := streamFrom_of_comment (0 + l.raw.length) hend
    rw [List.append_nil] at hcomment
    change streamFrom (0 + l.raw.length) ([0x2F, 0x2A, 0x2A, 0x2F] ++ r.raw) = _ at hcomment
    rw [hcomment]
    exact .cons (alike_ofLexeme r _ _) (likewise_end _)

theorem readBack_space (hleft : l.Written) (hl : l.isSolid = true) (hkind : l.kind ≠ .function)
    (hright : r.Written) (hr : r.isSolid = true) (htakes : l.takesSpace = false) :
    ReadBack l [0x20] [oneSpace] r := by
  have hstands : Stands l.lexeme (0x20 :: r.raw) := by
    rcases stands_before_space (w := r.raw) hleft htakes (fun h => absurd h hkind) with
      ⟨m, hm, hstands⟩
    rwa [becomes_of_isSolid hl hm] at hstands
  have hgap : Stands oneSpace.lexeme r.raw := by
    rcases hright.shape with ⟨s, hshape⟩
    have hspace := stands_space_before hshape hright.space []
    rwa [List.append_nil] at hspace
  rw [ReadBack]
  split
  · have hspace := streamFrom_of_stands (0 + l.raw.length) hgap
    have hstream := streamFrom_of_stands 0 hstands
    change streamFrom (0 + l.raw.length) (0x20 :: r.raw) = [_] ++ _ at hspace
    change tokenize (l.raw ++ 0x20 :: r.raw) = [_] ++ streamFrom (0 + l.raw.length) _ at hstream
    rw [hspace, ← List.append_assoc] at hstream
    refine ⟨_, _, hstream, ?_⟩
    exact .cons (alike_ofLexeme l _ _) (.cons (alike_ofLexeme oneSpace _ _) .nil)
  · rename_i haddress
    have hend := stands_at_end hright hr (by simpa using haddress)
    have hrest := likewise_of_stands (0 + l.raw.length + 1) hend (likewise_end _)
    rw [List.append_nil] at hrest
    exact likewise_of_stands 0 hstands (likewise_of_stands _ hgap hrest)

/-!
## What is lost

Where the two are read back, the first token of the text is the left one again. So it has a shape in
front of the text behind it, and there it would not stop.
-/

theorem comment_read_beside (h : Shape l.lexeme s) (hsolidus : l.raw ≠ [0x2F]) (w : Bytes) :
    Reader.comment.read (l.raw ++ w) = none := by
  rcases List.exists_cons_of_ne_nil (raw_ne_nil h) with ⟨b, x, hraw⟩
  change l.raw = b :: x at hraw
  have hb : b ≠ 0x2F := by
    rintro rfl
    have hdelim := eq_of_isSingle (b := 0x2F) rfl h
      (by rw [show l.lexeme.raw = l.raw from rfl, hraw]; rfl)
    exact hsolidus (congrArg Lexeme.raw hdelim)
  simp [hraw, Reader.comment, hb]

theorem shape_of_first (htokens : tokenize s = u :: us) (hkind : u.kind ≠ .endOfText)
    (hcomment : Reader.comment.read s = none) :
    ∃ rest, s = u.raw ++ rest ∧ Shape u.lexeme rest := by
  have hscan := Reader.comment.scan_none hcomment
  cases s with
  | nil =>
      rw [tokenize, streamFrom_end] at htokens
      rw [← (List.cons.inj htokens).1] at hkind
      exact absurd rfl hkind
  | cons b t =>
      rw [tokenize, streamFrom_cons 0 (by rw [hscan])] at htokens
      rw [← (List.cons.inj htokens).1]
      exact ⟨(Lexeme.read b t).2, (read_splits b t).1.symm, shape_of_read rfl⟩

theorem ReadBack.first {between : Bytes} {gap : List Token} (h : ReadBack l between gap r) :
    ∃ u us, tokenize (l.raw ++ (between ++ r.raw)) = u :: us ∧ u.alike l = true := by
  rw [ReadBack] at h
  split at h
  · rcases h with ⟨us, vs, htokens, hlike⟩
    cases hlike with
    | cons hu hrest => exact ⟨_, _, htokens, hu⟩
  · rw [ReadsAs, List.cons_append] at h
    rcases List.forall₂_cons_right_iff.mp h with ⟨u, us, hu, _, htokens⟩
    exact ⟨u, us, htokens, hu⟩

theorem ReadBack.shape {between : Bytes} {gap : List Token} (h : ReadBack l between gap r)
    (hl : l.isSolid = true) (hshape : Shape l.lexeme s) (hsolidus : l.raw ≠ [0x2F]) :
    ∃ m, m.kind = l.kind ∧ m.raw = l.raw ∧ Shape m (between ++ r.raw) := by
  rcases h.first with ⟨u, us, htokens, halike⟩
  simp only [alike, Bool.and_eq_true, beq_iff_eq] at halike
  rcases halike with ⟨⟨hkind, _⟩, hraw⟩
  have hcomment := comment_read_beside hshape hsolidus (between ++ r.raw)
  rcases shape_of_first htokens (by rw [hkind]; exact (isSolid_kind hl).2.1) hcomment with
    ⟨rest, htext, hu⟩
  rw [hraw] at htext
  rw [← List.append_cancel_left htext] at hu
  exact ⟨u.lexeme, hkind, hraw, hu⟩

/-!
What the shape of a name, a number, a dimension or a delimiter says of the text behind it.
-/

theorem readAddress_raw (opening s : Bytes) :
    ∃ y, (readAddress opening s).1.raw = opening ++ y := by
  unfold readAddress
  dsimp only
  split
  · exact ⟨_, List.append_assoc _ _ _⟩
  · split
    · exact ⟨_, by simp only [List.append_assoc]; rfl⟩
    · unfold readBadAddress
      dsimp only
      split <;> exact ⟨_, by simp only [List.append_assoc]; rfl⟩

theorem readNamed_raw (s : Bytes) :
    ∃ y, (readNamed s).1.raw = (Reader.name.scan s).raw ++ y := by
  unfold readNamed
  dsimp only
  split
  · split
    · rcases readAddress_raw _ _ with ⟨y, hy⟩
      rw [hy]
      exact ⟨_, by simp only [List.append_assoc]; rfl⟩
    · exact ⟨_, rfl⟩
  · exact ⟨[], (List.append_nil _).symm⟩

theorem startsHere_of_slash (h : Shape r.lexeme s) (hslash : r.isDelim 0x5C = false)
    (hhead : r.raw.head? = some 0x5C) : Escape.startsHere r.raw = true := by
  rcases read_of_head h hhead with ⟨x, _, hread⟩
  by_cases hescape : Escape.startsHere (0x5C :: (x ++ s)) = true
  · rw [read_of_startsName (startsName_of_escape hescape).1 rfl] at hread
    rcases Option.isSome_iff_exists.mp (Escape.read_isSome hescape) with ⟨⟨p, rest⟩, hp⟩
    rcases readNamed_raw (0x5C :: (x ++ s)) with ⟨y, hy⟩
    rw [hread, Reader.name.scan_some (Reader.name_read_of_escape hp), List.append_assoc] at hy
    rw [show r.raw = p.raw ++ _ from hy]
    exact Escape.read_front hp _
  · have hname : startsName (0x5C :: (x ++ s)) = false := by
      rw [startsName_backslash]
      exact Bool.eq_false_iff.mpr hescape
    have hlone : Lone 0x5C (x ++ s) := ⟨rfl, rfl, rfl, hname, rfl, nofun, nofun, nofun⟩
    rw [read_lone hlone] at hread
    have hlexeme : r.lexeme = delim 0x5C := (congrArg Prod.fst hread).symm
    have hkind : r.kind = .delim := congrArg Lexeme.kind hlexeme
    have hvalue : r.value = [0x5C] := congrArg Lexeme.value hlexeme
    simp [isDelim, hkind, hvalue] at hslash

theorem raw_of_isDelim {b : UInt8} (h : Shape l.lexeme s) (hb : l.isDelim b = true) :
    l.kind = .delim ∧ l.raw = [b] := by
  simp only [isDelim, Bool.and_eq_true, beq_iff_eq] at hb
  have hraw : l.raw = l.value := raw_of_delim h hb.1
  exact ⟨hb.1, hraw.trans hb.2⟩

theorem startsEscape_append {x : Bytes} (h : Escape.startsHere x = true) (y : Bytes) :
    Escape.startsHere (x ++ y) = true := by
  unfold Escape.startsHere at h
  split at h
  · exact h
  · cases h

theorem startsNumeral_append {x : Bytes} (h : Numeral.startsHere x = true) (y : Bytes) :
    Numeral.startsHere (x ++ y) = true := by
  rcases hread : Numeral.read x with ⟨n, rest⟩
  have happ := Numeral.read_append x
  rw [hread] at happ
  dsimp only at happ
  subst happ
  rw [List.append_assoc]
  exact Numeral.startsHere_again h hread _

theorem numeral_of_dimension {x y : Bytes} (h : Shape m (x ++ y)) (hkind : m.kind = .dimension) :
    (Numeral.read (m.raw ++ x)).1 = (Numeral.read m.raw).1 := by
  generalize hs : x ++ y = s at h
  cases h with
  | dimension hstart hread hname hscan =>
      rename_i n unit v
      subst hs
      have hne := numeral_ne_nil hstart hread
      have hunit := ne_nil_of_scan hscan (name_read_of_startsName hname)
      have hends : Numeral.EndsAs (unit ++ x) (unit ++ (x ++ y)) := by
        apply endsAs_of_startsName (startsName_again hname hscan x)
        intro hexponent
        rw [← List.append_assoc]
        exact startsExponent_append hexponent y
      have hbeside := Numeral.read_again hne hread hends
      have halone := numeral_alone hne hunit hname hread
      rw [List.append_assoc, hbeside, halone]
  | punctuation hmark => exact absurd hkind (ne_of_punctuation hmark rfl)
  | _ => cases hkind

theorem fuses_eq_false (hshape : Shape l.lexeme s) (hm : Shape m (r.raw ++ v))
    (hkind : m.kind = l.kind) (hraw : m.raw = l.raw) (hright : r.Written) :
    l.fuses r = false := by
  rcases hright.shape with ⟨w, hshape'⟩
  rw [Bool.eq_false_iff]
  intro hfuse
  simp only [fuses, Bool.or_eq_true, Bool.and_eq_true, beq_iff_eq, bne_iff_ne] at hfuse
  rcases hfuse with ((⟨⟨hident, hdash⟩, hgreater⟩ | ⟨hleft, hslash⟩) | ⟨hplus, hnumeral⟩) |
    ⟨hdimension, hgrows⟩
  · have hcdc := (startsNamed_of_ident hm (hkind.trans hident)).2
    rw [hraw, hdash, (raw_of_isDelim hshape' hgreater).2] at hcdc
    cases hcdc
  · have hescape := startsHere_of_slash hshape' hright.slash hslash
    have hname := startsName_of_escape (startsEscape_append hescape v)
    rcases hleft with hnumber | hminus
    · rw [startsName_behind_number hm (hkind.trans hnumber)] at hname
      cases hname.1
    · rcases raw_of_isDelim hshape hminus with ⟨hdelim, hone⟩
      rcases lone_of_delim hm (hkind.trans hdelim) with ⟨b, rfl, hlone⟩
      obtain rfl : b = 0x2D := (List.cons.inj (hraw.trans hone)).1
      rw [hlone.name] at hname
      cases hname.2
  · rcases raw_of_isDelim hshape hplus with ⟨hdelim, hone⟩
    rcases lone_of_delim hm (hkind.trans hdelim) with ⟨b, rfl, hlone⟩
    obtain rfl : b = 0x2B := (List.cons.inj (hraw.trans hone)).1
    have hstart := startsNumeral_append hnumeral v
    rw [List.cons_append, hlone.numeral] at hstart
    cases hstart
  · have hsame := numeral_of_dimension hm (hkind.trans hdimension)
    rw [hraw] at hsame
    exact hgrows hsame

theorem takesSpace_eq_false {b : UInt8} (hshape : Shape l.lexeme (b :: s))
    (hb : Byte.isSpace b = true) : l.takesSpace = false := by
  cases hname : l.endsInName with
  | false => rw [takesSpace, hname, Bool.false_and]
  | true =>
      have hminds : l.lexeme.MindsEscape := by
        simpa [endsInName, MindsEscape, lexeme, or_assoc] using hname
      have hbefore : Shape l.lexeme [0x20] := by
        apply shape_before_space hshape hminds
        intro hfree
        rw [hfree b rfl] at hb
        cases hb
      have hfirst := congrArg Token.raw (stands_of_mindsEscape hbefore hminds).first
      have hsame : (first (l.raw ++ [0x20])).raw = l.raw := hfirst
      rw [takesSpace, hsame, bne_self_eq_false, Bool.and_false]

theorem ReadBack.fuses_eq_false (h : ReadBack l [] [] r) (hshape : Shape l.lexeme s)
    (hl : l.isSolid = true) (hright : r.Written) : l.fuses r = false := by
  rw [Bool.eq_false_iff]
  intro hfuse
  have hsolidus : l.raw ≠ [0x2F] := by
    intro hraw
    have hlexeme := eq_of_isSingle (b := 0x2F) rfl hshape
      (by rw [show l.lexeme.raw = l.raw from rfl, hraw]; rfl)
    have hkind : l.kind = .delim := congrArg Lexeme.kind hlexeme
    have hvalue : l.value = [0x2F] := congrArg Lexeme.value hlexeme
    simp [fuses, isDelim, hkind, hvalue] at hfuse
  rcases h.shape hl hshape hsolidus with ⟨m, hkind, hraw, hm⟩
  have hno : l.fuses r = false :=
    Token.fuses_eq_false (v := []) hshape (by simpa using hm) hkind hraw hright
  rw [hno] at hfuse
  cases hfuse

theorem ReadBack.takesSpace_eq_false {gap : List Token} (h : ReadBack l [0x20] gap r)
    (hshape : Shape l.lexeme s) (hl : l.isSolid = true) : l.takesSpace = false := by
  rw [Bool.eq_false_iff]
  intro htakes
  have hsolidus : l.raw ≠ [0x2F] := by
    intro hraw
    have hlexeme := eq_of_isSingle (b := 0x2F) rfl hshape
      (by rw [show l.lexeme.raw = l.raw from rfl, hraw]; rfl)
    have hkind : l.kind = .delim := congrArg Lexeme.kind hlexeme
    simp [Token.takesSpace, endsInName, hkind] at htakes
  rcases h.shape hl hshape hsolidus with ⟨m, hkind, hraw, hm⟩
  have hno : (ofLexeme m 0 false).takesSpace = false :=
    Token.takesSpace_eq_false (l := ofLexeme m 0 false) hm (by decide)
  rw [Token.takesSpace, endsInName, show (ofLexeme m 0 false).kind = l.kind from hkind,
    show (ofLexeme m 0 false).raw = l.raw from hraw, ← endsInName, ← Token.takesSpace] at hno
  rw [hno] at htakes
  cases htakes

/-!
## The decisions
-/

theorem writeAfter_pair (place : Place) (hl : l.isSolid = true) (hr : r.isSolid = true) :
    writeAfter place none false [l, r] = l.raw ++ (joint place l false r ++ r.raw) := by
  have hclosed : ∀ {t : Token}, t.isSolid = true -> t.closedText = t.raw := by
    intro t ht
    rcases isSolid_kind ht with ⟨_, _, hstring, hclosed, _⟩
    apply closedText_of_closed
    · simp [isOpenString, hstring, hclosed]
    · simp [isOpenAddress, hclosed]
  have hsilent : ∀ {t : Token}, t.isSolid = true -> t.isSilent = false := by
    intro t ht
    rcases isSolid_kind ht with ⟨_, hend, _, _, hslash⟩
    simp [isSilent, hend, hslash]
  rw [writeAfter_token _ (isSolid_kind hl).1 (hsilent hl),
    writeAfter_token _ (isSolid_kind hr).1 (hsilent hr), hclosed hl, hclosed hr]
  simp [jointAfter, writeAfter]

/-- Two neighbours that need no separator are read back from their own text exactly when they do not
fuse. Two that need one are read back from what is written in any place: with an empty comment
always, and with a space unless the left one takes it. -/
theorem needsSeparator_sound {x : Bytes} (hpair : [l, r] <:+: tokenize x) (hl : l.isSolid = true)
    (hr : r.isSolid = true) :
    (needsSeparator l r = false -> (ReadBack l [] [] r ↔ l.fuses r = false)) ∧
      (needsSeparator l r = true -> ∀ place : Place,
        ∃ between, writeAfter place none false [l, r] = l.raw ++ (between ++ r.raw) ∧
          if place = .selector ∧ r.afterComment = true then
            between = ascii "/**/" ∧ ReadBack l between [] r
          else between = [0x20] ∧ (ReadBack l between [oneSpace] r ↔ l.takesSpace = false)) := by
  rcases lexed_of_neighbours hpair hr with ⟨ts, hlexed⟩
  rcases Written.of_lexed hlexed (isSolid_kind hl).1 (isSolid_kind hl).2.2.2.2 with ⟨hleft, _, _⟩
  rcases Written.of_lexed hlexed.tail (isSolid_kind hr).1 (isSolid_kind hr).2.2.2.2 with
    ⟨hright, _, _⟩
  rcases hleft.shape with ⟨s, hshape⟩
  rcases hright.shape with ⟨v, hshape'⟩
  constructor
  · intro hsep
    constructor
    · exact fun hread => hread.fuses_eq_false hshape hl hright
    · exact readBack_beside hlexed hl hr hsep
  · intro hsep place
    have hkind : l.kind ≠ .function := by
      intro hkind
      rcases List.exists_cons_of_ne_nil (raw_ne_nil hshape') with ⟨b, y, hraw⟩
      rw [needsSeparator_eq (raw_ne_nil hshape) hraw, hkind] at hsep
      cases hsep
    refine ⟨joint place l false r, writeAfter_pair place hl hr, ?_⟩
    split
    · rename_i hcomment
      have hjoint : joint place l false r = ascii "/**/" := by
        simp [joint, hsep, hcomment.1, hcomment.2]
      rw [hjoint]
      exact ⟨rfl, readBack_comment hleft hl hkind hright hr⟩
    · rename_i hcomment
      have hjoint : joint place l false r = [0x20] := by
        simp only [joint, hsep, Bool.false_and, Bool.false_eq_true, if_false, if_true,
          Bool.not_false, Bool.true_and, Bool.and_eq_true, beq_iff_eq]
        rw [if_neg]
        rintro ⟨hafter, hplace⟩
        exact hcomment ⟨hplace, hafter⟩
      rw [hjoint]
      refine ⟨rfl, ?_, readBack_space hleft hl hkind hright hr⟩
      exact fun hread => hread.takesSpace_eq_false hshape hl

theorem needsSeparator_sound_around_comment :
    ¬ReadBack ⟨.ident, ascii "--", ascii "--", 0, false, false⟩ [] []
        ⟨.delim, ascii ">", ascii ">", 6, true, false⟩ ∧
      ReadBack ⟨.ident, ascii "a", ascii "a", 0, false, false⟩ (ascii "/**/") []
        ⟨.ident, ascii "b", ascii "b", 5, true, false⟩ := by
  constructor
  · have hpair : [⟨.ident, ascii "--", ascii "--", 0, false, false⟩,
        ⟨.delim, ascii ">", ascii ">", 6, true, false⟩] <:+: tokenize (ascii "--/**/>") :=
      ⟨[], [endAt 7 false], by decide +kernel⟩
    intro hread
    have hfuse := ((needsSeparator_sound hpair (by decide) (by decide)).1 (by decide)).mp hread
    exact absurd hfuse (by decide)
  · have hpair : [⟨.ident, ascii "a", ascii "a", 0, false, false⟩,
        ⟨.ident, ascii "b", ascii "b", 5, true, false⟩] <:+: tokenize (ascii "a/**/b") :=
      ⟨[], [endAt 6 false], by decide +kernel⟩
    rcases (needsSeparator_sound hpair (by decide) (by decide)).2 (by decide) .selector with
      ⟨between, _, hbetween⟩
    rw [if_pos ⟨rfl, rfl⟩] at hbetween
    rcases hbetween with ⟨rfl, hread⟩
    exact hread

end Token
end StyleTrim
