import StyleTrim.Token.Reader

/-!
# Pieces and what follows them

A reader looks at its piece and hardly further: only an escape looks at the byte behind it, to see
whether one more digit, or the white space that closes it, belongs to it. So a run of pieces is
read in the same way in front of any text that begins with the same byte, or with a byte that no
escape would take.
-/

namespace StyleTrim

def Escape.Sparing (s : Bytes) : Prop :=
  ∀ b ∈ s.head?, Byte.isHexDigit b = false ∧ Byte.isSpace b = false

def Replaces (s' s : Bytes) : Prop :=
  s'.head? = s.head? ∨ Escape.Sparing s'

theorem Replaces.append {s s' : Bytes} (h : Replaces s' s) (x : Bytes) :
    Replaces (x ++ s') (x ++ s) := by
  cases x with
  | nil => exact h
  | cons b x => exact Or.inl rfl

theorem head?_append_cons (x : Bytes) (b : UInt8) (s s' : Bytes) :
    (x ++ b :: s').head? = (x ++ b :: s).head? := by
  cases x <;> rfl

theorem Escape.Sparing.cons {b : UInt8} (hhex : Byte.isHexDigit b = false)
    (hspace : Byte.isSpace b = false) (s : Bytes) : Escape.Sparing (b :: s) := by
  intro c hc
  obtain rfl : b = c := by simpa using hc
  exact ⟨hhex, hspace⟩

namespace Escape

/-!
## Escapes
-/

theorem hexDigits_append_eq {digits s : Bytes} :
    hexDigits (digits ++ s) = digits ↔
      digits.all Byte.isHexDigit = true ∧ digits.length ≤ 6 ∧
        (digits.length = 6 ∨ ∀ b ∈ s.head?, Byte.isHexDigit b = false) := by
  unfold hexDigits
  constructor
  · intro h
    have hall : digits.all Byte.isHexDigit = true := by
      rw [← h]
      exact List.all_takeWhile
    have hlen : digits.length ≤ 6 := by
      have hle := (List.takeWhile_sublist (l := (digits ++ s).take 6) Byte.isHexDigit).length_le
      rw [h, List.length_take] at hle
      omega
    refine ⟨hall, hlen, ?_⟩
    rw [List.take_append, List.take_of_length_le hlen,
      List.takeWhile_append_of_pos (List.all_eq_true.mp hall),
      List.append_right_eq_self] at h
    cases hroom : 6 - digits.length with
    | zero => exact Or.inl (by omega)
    | succ room =>
        rw [hroom] at h
        right
        intro b hb
        cases s with
        | nil => cases hb
        | cons c s =>
            obtain rfl : c = b := by simpa using hb
            rw [List.take_succ_cons, List.takeWhile_cons] at h
            split at h
            · cases h
            · rename_i hc
              simpa using hc
  · rintro ⟨hall, hlen, hend⟩
    rw [List.take_append, List.take_of_length_le hlen,
      List.takeWhile_append_of_pos (List.all_eq_true.mp hall), List.append_right_eq_self]
    rcases hend with hsix | hhead
    · simp [hsix]
    · cases s with
      | nil => simp
      | cons c s =>
          have hc := hhead c rfl
          cases 6 - digits.length with
          | zero => rfl
          | succ room => rw [List.take_succ_cons, List.takeWhile_cons_of_neg (by simp [hc])]

theorem terminator_cons (b : UInt8) (s : Bytes) :
    terminator (b :: s) =
      if b = 0x0D ∧ s.head? = some 0x0A then [0x0D, 0x0A]
      else if Byte.isSpace b then [b] else [] := by
  by_cases hcrlf : b = 0x0D ∧ s.head? = some 0x0A
  · obtain ⟨rfl, hlf⟩ := hcrlf
    obtain ⟨t, rfl⟩ := List.head?_eq_some_iff.mp hlf
    rfl
  · rw [if_neg hcrlf]
    unfold terminator
    split
    · rename_i heq
      obtain ⟨rfl, rfl⟩ := List.cons.inj heq
      exact absurd ⟨rfl, rfl⟩ hcrlf
    · rename_i heq
      obtain ⟨rfl, rfl⟩ := List.cons.inj heq
      rfl
    · rename_i heq
      cases heq

theorem terminator_append_eq {gap s : Bytes} :
    terminator (gap ++ s) = gap ↔
      (gap = [] ∧ ∀ b ∈ s.head?, Byte.isSpace b = false) ∨
      (∃ b, gap = [b] ∧ Byte.isSpace b = true ∧ (b = 0x0D -> s.head? ≠ some 0x0A)) ∨
      gap = [0x0D, 0x0A] := by
  match gap with
  | [] =>
      cases s with
      | nil => simp [terminator]
      | cons b s =>
          rw [List.nil_append, terminator_cons]
          split
          · rename_i hcrlf
            simp [hcrlf.1, Byte.isSpace]
          · split <;> simp_all
  | [b] =>
      rw [List.cons_append, List.nil_append, terminator_cons]
      split
      · simp_all
      · split <;> simp_all
  | b :: c :: gap =>
      rw [List.cons_append, List.cons_append, terminator_cons]
      split
      · rename_i hcrlf
        obtain ⟨rfl, hlf⟩ := hcrlf
        obtain rfl : c = 0x0A := by simpa using hlf
        constructor
        · intro h
          exact Or.inr (Or.inr h.symm)
        · rintro (⟨h, _⟩ | ⟨b, h, _⟩ | h)
          · cases h
          · cases h
          · exact h.symm
      · rename_i hcrlf
        have hne : b :: c :: gap ≠ [0x0D, 0x0A] := by
          intro heq
          cases heq
          exact hcrlf ⟨rfl, rfl⟩
        split <;> simp [hne]

theorem read_cases {x s : Bytes} {p : Piece} (h : read x = some (p, s)) :
    (∃ c, p = ⟨[0x5C, c], [c]⟩ ∧ c ≠ 0x0A ∧ Byte.isHexDigit c = false ∧ x = 0x5C :: c :: s) ∨
    (∃ digits gap, digits ≠ [] ∧
      p = ⟨0x5C :: (digits ++ gap), Utf8.encode (Utf8.scalarOrReplacement (hexValue digits))⟩ ∧
      x = 0x5C :: (digits ++ (gap ++ s)) ∧ hexDigits (digits ++ (gap ++ s)) = digits ∧
      terminator (gap ++ s) = gap) := by
  have happ := read_raw_append h
  unfold read at h
  split at h
  · rename_i c t
    split at h
    · cases h
    · rename_i hline
      split at h
      · rename_i hhex
        simp only [Option.some.injEq, Prod.mk.injEq] at h
        obtain ⟨rfl, rfl⟩ := h
        have hdigits := hexDigits_append (c :: t)
        have hgap := terminator_append ((c :: t).drop (hexDigits (c :: t)).length)
        refine Or.inr ⟨hexDigits (c :: t), _, ?_, rfl, ?_, ?_, ?_⟩
        · simp [hexDigits, List.take_succ_cons, hhex]
        · rw [hgap, hdigits]
        · rw [hgap, hdigits]
        · rw [hgap]
      · rename_i hhex
        cases h
        exact Or.inl ⟨c, rfl, hline, by simpa using hhex, rfl⟩
  · cases h

theorem read_pair {c : UInt8} (hline : c ≠ 0x0A) (hhex : Byte.isHexDigit c = false)
    (s : Bytes) : read (0x5C :: c :: s) = some (⟨[0x5C, c], [c]⟩, s) := by
  simp [read, hline, hhex]

theorem read_digits {digits gap s : Bytes} (hne : digits ≠ [])
    (hdigits : hexDigits (digits ++ (gap ++ s)) = digits) (hgap : terminator (gap ++ s) = gap) :
    read (0x5C :: (digits ++ (gap ++ s))) =
      some (⟨0x5C :: (digits ++ gap),
        Utf8.encode (Utf8.scalarOrReplacement (hexValue digits))⟩, s) := by
  obtain ⟨c, more, rfl⟩ := List.exists_cons_of_ne_nil hne
  have hhex : Byte.isHexDigit c = true :=
    List.all_eq_true.mp (hexDigits_append_eq.mp hdigits).1 c List.mem_cons_self
  have hline : c ≠ 0x0A := by
    rintro rfl
    revert hhex
    decide
  simp only [List.cons_append] at hdigits ⊢
  simp only [read, hline, hhex, if_false, if_true, hdigits]
  simp [hgap]

theorem read_front {x s : Bytes} {p : Piece} (h : read x = some (p, s)) (t : Bytes) :
    startsHere (p.raw ++ t) = true := by
  rcases read_cases h with ⟨c, rfl, hline, _⟩ | ⟨digits, gap, hne, rfl, _, hdigits, _⟩
  · simp [startsHere, hline]
  · obtain ⟨d, more, rfl⟩ := List.exists_cons_of_ne_nil hne
    have hhex := List.all_eq_true.mp (hexDigits_append_eq.mp hdigits).1 d List.mem_cons_self
    have hline : d ≠ 0x0A := by
      rintro rfl
      exact absurd hhex (by decide)
    simp [startsHere, hline]

theorem startsHere_cons_of_ne {b : UInt8} (h : b ≠ 0x5C) (s : Bytes) :
    startsHere (b :: s) = false := by
  unfold startsHere
  split
  · rename_i heq
    exact absurd (List.cons.inj heq).1 h
  · rfl

theorem read_isSome {s : Bytes} (h : startsHere s = true) : (read s).isSome = true := by
  unfold startsHere at h
  split at h
  · rename_i c t
    have hline : c ≠ 0x0A := by simpa using h
    simp only [read, if_neg hline]
    split <;> rfl
  · cases h

theorem read_of_replaces {p : Piece} {s s' : Bytes} (h : read (p.raw ++ s) = some (p, s))
    (hrep : Replaces s' s) : read (p.raw ++ s') = some (p, s') := by
  rcases read_cases h with ⟨c, rfl, hline, hhex, _⟩ | ⟨digits, gap, hne, rfl, _, hdigits, hgap⟩
  · exact read_pair hline hhex s'
  · have hgap' : terminator (gap ++ s') = gap := by
      rw [terminator_append_eq] at hgap ⊢
      rcases hgap with ⟨hnil, hhead⟩ | ⟨b, hb, hspace, hcr⟩ | hcrlf
      · refine Or.inl ⟨hnil, ?_⟩
        intro b hb
        rcases hrep with hsame | hsparing
        · exact hhead b (hsame ▸ hb)
        · exact (hsparing b hb).2
      · refine Or.inr (Or.inl ⟨b, hb, hspace, ?_⟩)
        intro heq hlf
        rcases hrep with hsame | hsparing
        · exact hcr heq (hsame ▸ hlf)
        · exact absurd (hsparing _ hlf).2 (by decide)
      · exact Or.inr (Or.inr hcrlf)
    have hdigits' : hexDigits (digits ++ (gap ++ s')) = digits := by
      rw [hexDigits_append_eq] at hdigits ⊢
      refine ⟨hdigits.1, hdigits.2.1, ?_⟩
      rcases hdigits.2.2 with hsix | hhead
      · exact Or.inl hsix
      · right
        intro b hb
        rcases hrep.append gap with hsame | hsparing
        · exact hhead b (hsame ▸ hb)
        · exact (hsparing b hb).1
    simpa using read_digits hne hdigits' hgap'

end Escape
/-!
## Runs of pieces
-/

namespace PieceReader

def Keeps (R : PieceReader) (s s' : Bytes) : Prop :=
  ∀ (p : Piece) (x : Bytes), R.read (p.raw ++ (x ++ s)) = some (p, x ++ s) ->
    R.read (p.raw ++ (x ++ s')) = some (p, x ++ s')

theorem scan_cases (R : PieceReader) {x v s : Bytes} (h : R.scan (x ++ s) = ⟨v, x, s⟩) :
    (x = [] ∧ v = [] ∧ R.read s = none) ∨
    ∃ p y w, x = p.raw ++ y ∧ v = p.value ++ w ∧ R.read (p.raw ++ (y ++ s)) = some (p, y ++ s) ∧
      R.scan (y ++ s) = ⟨w, y, s⟩ := by
  cases hread : R.read (x ++ s) with
  | none =>
      rw [R.scan_none hread] at h
      obtain ⟨rfl, rfl, _⟩ : [] = v ∧ [] = x ∧ x ++ s = s := by simpa using h
      exact Or.inl ⟨rfl, rfl, hread⟩
  | some found =>
      obtain ⟨p, rest⟩ := found
      have happ := R.scan_raw_append rest
      rw [R.scan_some hread] at h
      injection h with hv hx hs
      rw [hs] at happ
      refine Or.inr ⟨p, (R.scan rest).raw, (R.scan rest).value, hx.symm, hv.symm, ?_, ?_⟩
      · rw [happ, R.raw_append hread]
        exact hread
      · rw [happ, ← hs]

theorem read_isSome_of_scan (R : PieceReader) {x v s : Bytes} (h : R.scan (x ++ s) = ⟨v, x, s⟩)
    (hne : x ≠ []) : (R.read (x ++ s)).isSome = true := by
  cases hread : R.read (x ++ s) with
  | none =>
      rw [R.scan_none hread] at h
      exact absurd (congrArg Scan.raw h).symm hne
  | some found => rfl

theorem scan_induction (R : PieceReader) {P : Bytes -> Prop} {x body v s : Bytes}
    (hstep : ∀ x p y, P x -> R.read (p.raw ++ (y ++ s)) = some (p, y ++ s) -> P (x ++ p.raw))
    (hx : P x) (hscan : R.scan (body ++ s) = ⟨v, body, s⟩) : P (x ++ body) := by
  induction hn : body.length using Nat.strongRecOn generalizing x body v with
  | ind n ih =>
    rcases R.scan_cases hscan with ⟨rfl, _⟩ | ⟨p, y, w, rfl, _, hread, hrest⟩
    · simpa using hx
    · have hpos := List.length_pos_iff.mpr (R.raw_ne_nil hread)
      have hlt : y.length < n := by
        rw [← hn, List.length_append]
        omega
      rw [← List.append_assoc]
      exact ih y.length hlt (hstep x p y hx hread) hrest rfl

theorem scan_of_keeps (R : PieceReader) {x v s s' : Bytes} (hkeeps : R.Keeps s s')
    (hstop : R.read s' = none) (h : R.scan (x ++ s) = ⟨v, x, s⟩) :
    R.scan (x ++ s') = ⟨v, x, s'⟩ := by
  induction hn : x.length using Nat.strongRecOn generalizing x v with
  | ind n ih =>
    rcases R.scan_cases h with ⟨rfl, rfl, _⟩ | ⟨p, y, w, rfl, rfl, hread, hscan⟩
    · exact R.scan_none hstop
    · have hne := List.length_pos_iff.mpr (R.raw_ne_nil hread)
      have hlt : y.length < n := by
        rw [← hn, List.length_append]
        omega
      rw [List.append_assoc, R.scan_some (hkeeps p y hread), ih y.length hlt hscan rfl]

end PieceReader

namespace Reader

/-- A piece of a name is a name byte or an escape. -/
theorem name_read_cases {x s : Bytes} {p : Piece} (h : name.read x = some (p, s)) :
    (∃ b, p = .plain b ∧ Byte.isName b = true ∧ x = b :: s) ∨
      Escape.read x = some (p, s) := by
  unfold name at h
  dsimp only at h
  split at h
  · cases h
  · split at h
    · cases h
      exact Or.inl ⟨_, rfl, by assumption, rfl⟩
    · exact Or.inr h

theorem name_read_of_isName {b : UInt8} (s : Bytes) (h : Byte.isName b = true) :
    name.read (b :: s) = some (.plain b, s) := by
  simp [name, h]

theorem escape_read_front {x s : Bytes} {p : Piece} (h : Escape.read x = some (p, s)) :
    ∃ t, x = 0x5C :: t := by
  unfold Escape.read at h
  split at h
  · exact ⟨_, rfl⟩
  · cases h

theorem escape_read_none {b : UInt8} {s : Bytes} (h : b ≠ 0x5C) :
    Escape.read (b :: s) = none := by
  cases hread : Escape.read (b :: s) with
  | none => rfl
  | some found =>
      obtain ⟨t, heq⟩ := escape_read_front hread
      exact absurd (List.cons.inj heq).1 h

theorem name_read_of_escape {x s : Bytes} {p : Piece} (h : Escape.read x = some (p, s)) :
    name.read x = some (p, s) := by
  obtain ⟨t, rfl⟩ := escape_read_front h
  have hname : Byte.isName 0x5C = false := by decide
  simp [name, hname, h]

theorem name_keeps {s s' : Bytes} (hrep : Replaces s' s) : name.Keeps s s' := by
  intro p x h
  rcases name_read_cases h with ⟨b, rfl, hb, _⟩ | hescape
  · exact name_read_of_isName _ hb
  · exact name_read_of_escape (Escape.read_of_replaces hescape (hrep.append x))

/-- A name ends before a byte that is no name byte and no backslash. -/
theorem name_read_none {s : Bytes} (h : ∀ b ∈ s.head?, Byte.isName b = false ∧ b ≠ 0x5C) :
    name.read s = none := by
  cases s with
  | nil => rfl
  | cons b s =>
      obtain ⟨hname, hslash⟩ := h b rfl
      simp [name, hname, escape_read_none hslash]

/-!
## Strings and addresses

The inside of a string may end in a backslash that nothing follows; so the text behind it must not
be empty if it is to be replaced.
-/

theorem quoted_read_cases {quote : UInt8} {x s : Bytes} {p : Piece}
    (h : (quoted quote).read x = some (p, s)) :
    (x = [0x5C] ∧ p = ⟨[0x5C], []⟩ ∧ s = []) ∨
    (x = 0x5C :: 0x0A :: s ∧ p = ⟨[0x5C, 0x0A], []⟩) ∨
    (x = 0x5C :: 0x0D :: 0x0A :: s ∧ p = ⟨[0x5C, 0x0D, 0x0A], []⟩) ∨
    (∃ b, x = b :: s ∧ p = .plain b ∧ b ≠ quote ∧ b ≠ 0x0A ∧ b ≠ 0x5C) ∨
    (0x5C ≠ quote ∧ Escape.read x = some (p, s) ∧ ∀ t, x ≠ 0x5C :: 0x0D :: 0x0A :: t) := by
  unfold quoted at h
  dsimp only at h
  split at h
  · cases h
  · cases h
    exact Or.inl ⟨rfl, rfl, rfl⟩
  · cases h
    exact Or.inr (Or.inl ⟨rfl, rfl⟩)
  · cases h
    exact Or.inr (Or.inr (Or.inl ⟨rfl, rfl⟩))
  · rename_i b t halone hline hcrlf
    split at h
    · cases h
    · rename_i hstop
      split at h
      · rename_i hslash
        subst hslash
        refine Or.inr (Or.inr (Or.inr (Or.inr ⟨fun hq => hstop (Or.inl hq), h, ?_⟩)))
        intro u heq
        exact hcrlf u rfl (List.cons.inj heq).2
      · rename_i hslash
        cases h
        exact Or.inr (Or.inr (Or.inr (Or.inl
          ⟨b, rfl, rfl, fun hq => hstop (Or.inl hq), fun hl => hstop (Or.inr hl), hslash⟩)))

theorem quoted_read_plain {quote b : UInt8} (s : Bytes) (hquote : b ≠ quote) (hline : b ≠ 0x0A)
    (hslash : b ≠ 0x5C) : (quoted quote).read (b :: s) = some (.plain b, s) := by
  unfold quoted
  dsimp only
  split <;> simp_all

theorem quoted_read_escape {quote : UInt8} {x s : Bytes} {p : Piece} (hquote : 0x5C ≠ quote)
    (h : Escape.read x = some (p, s)) (hcrlf : ∀ t, x ≠ 0x5C :: 0x0D :: 0x0A :: t) :
    (quoted quote).read x = some (p, s) := by
  unfold quoted
  dsimp only
  split
  · cases h
  · cases h
  · simp [Escape.read] at h
  · exact absurd rfl (hcrlf _)
  · obtain ⟨t, heq⟩ := escape_read_front h
    obtain ⟨rfl, rfl⟩ := List.cons.inj heq
    simp [hquote, h]

theorem quoted_read_quote {quote : UInt8} (s : Bytes) (h : Byte.isQuote quote = true) :
    (quoted quote).read (quote :: s) = none := by
  have hquote : quote = 0x22 ∨ quote = 0x27 := by simpa [Byte.isQuote] using h
  rcases hquote with rfl | rfl <;> rfl

theorem quoted_read_none {quote b : UInt8} {s : Bytes}
    (h : (quoted quote).read (b :: s) = none) : b = quote ∨ b = 0x0A := by
  apply Classical.byContradiction
  intro hnot
  obtain ⟨hstop, hline⟩ := not_or.mp hnot
  by_cases hslash : b = 0x5C
  · subst hslash
    cases s with
    | nil => cases h
    | cons c t =>
        by_cases hc : c = 0x0A
        · subst hc
          cases h
        · by_cases hcrlf : ∃ u, c :: t = 0x0D :: 0x0A :: u
          · obtain ⟨u, hu⟩ := hcrlf
            rw [hu] at h
            cases h
          · have hstart : Escape.startsHere (0x5C :: c :: t) = true := by
              simp [Escape.startsHere, hc]
            obtain ⟨⟨p, rest⟩, hread⟩ :=
              Option.isSome_iff_exists.mp (Escape.read_isSome hstart)
            rw [quoted_read_escape hstop hread] at h
            · cases h
            · intro u hu
              exact hcrlf ⟨u, (List.cons.inj hu).2⟩
  · rw [quoted_read_plain s hstop hline hslash] at h
    cases h

theorem quoted_read_of_replaces {quote : UInt8} {p : Piece} {s s' : Bytes}
    (h : (quoted quote).read (p.raw ++ s) = some (p, s)) (halone : p.raw ≠ [0x5C])
    (hrep : Replaces s' s) : (quoted quote).read (p.raw ++ s') = some (p, s') := by
  rcases quoted_read_cases h with ⟨_, rfl, _⟩ | ⟨_, rfl⟩ | ⟨_, rfl⟩ |
    ⟨b, _, rfl, hquote, hline, hslash⟩ | ⟨hquote, hescape, hcrlf⟩
  · exact absurd rfl halone
  · rfl
  · rfl
  · exact quoted_read_plain _ hquote hline hslash
  · apply quoted_read_escape hquote (Escape.read_of_replaces hescape hrep)
    intro t heq
    rcases Escape.read_cases hescape with ⟨c, rfl, _, _, _⟩ | ⟨digits, gap, hdne, rfl, _, hd, _⟩
    · simp only [List.cons_append, List.nil_append, List.cons.injEq, true_and] at heq
      obtain ⟨rfl, htail⟩ := heq
      rcases hrep with hsame | hsparing
      · rw [htail] at hsame
        obtain ⟨u, hu⟩ := List.head?_eq_some_iff.mp hsame.symm
        exact hcrlf u (by simp [hu])
      · rw [htail] at hsparing
        exact absurd (hsparing _ rfl).2 (by decide)
    · obtain ⟨d, more, rfl⟩ := List.exists_cons_of_ne_nil hdne
      have hhex := List.all_eq_true.mp (Escape.hexDigits_append_eq.mp hd).1 d List.mem_cons_self
      simp only [List.cons_append, List.cons.injEq, true_and] at heq
      rw [heq.1] at hhex
      exact absurd hhex (by decide)

theorem quoted_read_ne_alone {quote : UInt8} {p : Piece} {s : Bytes} (hne : s ≠ [])
    (h : (quoted quote).read (p.raw ++ s) = some (p, s)) : p.raw ≠ [0x5C] := by
  intro halone
  rw [halone] at h
  rcases quoted_read_cases h with ⟨_, _, hnil⟩ | ⟨_, rfl⟩ | ⟨_, rfl⟩ | ⟨b, heq, _, _, _, hslash⟩ |
    ⟨_, hescape, _⟩
  · exact hne hnil
  · cases halone
  · cases halone
  · exact hslash (List.cons.inj heq).1.symm
  · rcases Escape.read_cases hescape with ⟨c, rfl, _⟩ | ⟨digits, gap, hdne, rfl, _⟩
    · cases halone
    · simp [hdne] at halone

theorem quoted_keeps {quote : UInt8} {s s' : Bytes} (hne : s ≠ []) (hrep : Replaces s' s) :
    (quoted quote).Keeps s s' := by
  intro p x h
  have hne' : x ++ s ≠ [] := by simp [hne]
  exact quoted_read_of_replaces h (quoted_read_ne_alone hne' h) (hrep.append x)

theorem address_read_cases {x s : Bytes} {p : Piece} (h : address.read x = some (p, s)) :
    (∃ b, x = b :: s ∧ p = .plain b ∧ endsAddress b = false ∧ b ≠ 0x5C) ∨
      Escape.read x = some (p, s) := by
  unfold address at h
  dsimp only at h
  split at h
  · cases h
  · split at h
    · cases h
    · split at h
      · exact Or.inr h
      · cases h
        exact Or.inl ⟨_, rfl, rfl, by simpa using ‹¬ endsAddress _ = true›, by assumption⟩

theorem address_read_plain {b : UInt8} (s : Bytes) (hend : endsAddress b = false)
    (hslash : b ≠ 0x5C) : address.read (b :: s) = some (.plain b, s) := by
  simp [address, hend, hslash]

theorem address_read_escape {x s : Bytes} {p : Piece} (h : Escape.read x = some (p, s)) :
    address.read x = some (p, s) := by
  obtain ⟨t, rfl⟩ := escape_read_front h
  have hend : endsAddress 0x5C = false := by decide
  simp [address, hend, h]

theorem address_keeps {s s' : Bytes} (hrep : Replaces s' s) : address.Keeps s s' := by
  intro p x h
  rcases address_read_cases h with ⟨b, _, rfl, hend, hslash⟩ | hescape
  · exact address_read_plain _ hend hslash
  · exact address_read_escape (Escape.read_of_replaces hescape (hrep.append x))

theorem address_read_none {b : UInt8} (s : Bytes) (h : endsAddress b = true) :
    address.read (b :: s) = none := by
  simp [address, h]

theorem address_read_none_front {b c : UInt8} {s : Bytes}
    (h : address.read (b :: c :: s) = none) (s' : Bytes) :
    address.read (b :: c :: s') = none := by
  by_cases hend : endsAddress b = true
  · exact address_read_none _ hend
  by_cases hslash : b = 0x5C
  · subst hslash
    by_cases hline : c = 0x0A
    · subst hline
      rfl
    · have hstart : Escape.startsHere (0x5C :: c :: s) = true := by
        simp [Escape.startsHere, hline]
      obtain ⟨⟨p, rest⟩, hread⟩ := Option.isSome_iff_exists.mp (Escape.read_isSome hstart)
      rw [address_read_escape hread] at h
      cases h
  · rw [address_read_plain _ (by simpa using hend) hslash] at h
    cases h

theorem remnant_read_cases {x s : Bytes} {p : Piece} (h : remnant.read x = some (p, s)) :
    (∃ c, x = 0x5C :: c :: s ∧ p = ⟨[0x5C, c], [c]⟩ ∧ c ≠ 0x0A) ∨
      (x = 0x5C :: s ∧ p = .plain 0x5C ∧ (s = [] ∨ s.head? = some 0x0A)) ∨
      (∃ b, x = b :: s ∧ p = .plain b ∧ b ≠ 0x5C ∧ b ≠ 0x29) := by
  unfold remnant at h
  dsimp only at h
  split at h
  · cases h
  · split at h
    · rename_i c t hline
      cases h
      exact Or.inr (Or.inl ⟨rfl, rfl, Or.inr (by rw [hline]; rfl)⟩)
    · rename_i hline
      cases h
      exact Or.inl ⟨_, rfl, rfl, hline⟩
  · rename_i b t hpair
    split at h
    · cases h
    · rename_i hparen
      cases h
      by_cases hslash : b = 0x5C
      · subst hslash
        refine Or.inr (Or.inl ⟨rfl, rfl, Or.inl ?_⟩)
        cases s with
        | nil => rfl
        | cons c s => exact absurd rfl (hpair c s rfl)
      · exact Or.inr (Or.inr ⟨b, rfl, rfl, hslash, hparen⟩)

theorem remnant_read_plain {b : UInt8} (s : Bytes) (hslash : b ≠ 0x5C) (hparen : b ≠ 0x29) :
    remnant.read (b :: s) = some (.plain b, s) := by
  unfold remnant
  dsimp only
  split <;> simp_all

theorem remnant_read_pair {c : UInt8} (s : Bytes) (hline : c ≠ 0x0A) :
    remnant.read (0x5C :: c :: s) = some (⟨[0x5C, c], [c]⟩, s) := by
  simp [remnant, hline]

theorem remnant_keeps {s s' : Bytes} (hne : s ≠ []) (hsame : s'.head? = s.head?) :
    remnant.Keeps s s' := by
  intro p x h
  rcases remnant_read_cases h with ⟨c, _, rfl, hline⟩ | ⟨_, rfl, hnil | hline⟩ |
    ⟨b, _, rfl, hslash, hparen⟩
  · exact remnant_read_pair _ hline
  · exact absurd (List.append_eq_nil_iff.mp hnil).2 hne
  · have hline' : (x ++ s').head? = some 0x0A := by
      cases x with
      | nil => exact hsame.trans hline
      | cons b x => exact hline
    obtain ⟨t, ht⟩ := List.head?_eq_some_iff.mp hline'
    rw [ht]
    rfl
  · exact remnant_read_plain _ hslash hparen

end Reader
end StyleTrim
