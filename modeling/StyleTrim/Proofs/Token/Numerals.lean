import StyleTrim.Token.Numeral

/-!
# Numerals and what follows them

A numeral goes on as far as it can. It is read again in front of any text that neither adds a digit
to it nor begins a fraction or an exponent.
-/

namespace StyleTrim
namespace Numeral

def startsFraction : Bytes -> Bool
  | 0x2E :: s => startsWithDigit s
  | _ => false

def startsExponent : Bytes -> Bool
  | [] => false
  | b :: s => (b == 0x65 || b == 0x45) && startsWithDigit (sign s).2

/-!
## The parts
-/

theorem digits_all (s : Bytes) : (digits s).1.all Byte.isDigit = true :=
  List.all_takeWhile

theorem digits_stop (s : Bytes) : startsWithDigit (digits s).2 = false := by
  unfold digits
  cases h : s.dropWhile Byte.isDigit with
  | nil => rfl
  | cons b t =>
      have hb := List.head?_dropWhile_not Byte.isDigit s
      rw [h] at hb
      simpa [startsWithDigit] using hb

theorem digits_append_of_stop {ds s : Bytes} (hall : ds.all Byte.isDigit = true)
    (hstop : startsWithDigit s = false) : digits (ds ++ s) = (ds, s) := by
  have hall' := List.all_eq_true.mp hall
  unfold digits
  rw [List.takeWhile_append_of_pos hall', List.dropWhile_append_of_pos hall']
  cases s with
  | nil => simp
  | cons b s =>
      have hb : Byte.isDigit b = false := hstop
      simp [hb]

theorem fraction_eq_nil {s : Bytes} (h : startsFraction s = false) : fraction s = ([], s) := by
  cases s with
  | nil => rfl
  | cons b s =>
      simp only [fraction]
      rw [if_neg]
      rintro ⟨rfl, hdigit⟩
      rw [startsFraction, hdigit] at h
      cases h

theorem exponent_eq_nil {s : Bytes} (h : startsExponent s = false) : exponent s = ([], s) := by
  cases s with
  | nil => rfl
  | cons b s =>
      simp only [exponent]
      rw [if_neg]
      rintro ⟨hmark, hdigit⟩
      rcases hmark with rfl | rfl <;> simp [startsExponent, hdigit] at h

/-!
## Reading a part again

What a part took is taken again in front of another text. A part that took nothing must find
nothing there either.
-/

theorem startsWithDigit_digits_ne_nil {s : Bytes} (h : startsWithDigit s = true) :
    (digits s).1 ≠ [] := by
  cases s with
  | nil => cases h
  | cons b s =>
      have hb : Byte.isDigit b = true := h
      simp [digits, hb]

theorem startsWithDigit_of_ne_nil {ds : Bytes} (hall : ds.all Byte.isDigit = true)
    (hne : ds ≠ []) (s : Bytes) : startsWithDigit (ds ++ s) = true := by
  obtain ⟨d, more, rfl⟩ := List.exists_cons_of_ne_nil hne
  exact List.all_eq_true.mp hall d List.mem_cons_self

theorem sign_again {a s s' : Bytes} (h : sign (a ++ s) = (a, s))
    (hhead : a = [] -> s'.head? = s.head?) : sign (a ++ s') = (a, s') := by
  cases a with
  | nil =>
      cases s' with
      | nil => rfl
      | cons b s' =>
          obtain ⟨t, rfl⟩ := List.head?_eq_some_iff.mp (hhead rfl).symm
          simp only [List.nil_append, sign] at h ⊢
          split at h
          · cases h
          · rename_i hsign
            rw [if_neg hsign]
  | cons b a =>
      simp only [List.cons_append, sign] at h ⊢
      split at h
      · rename_i hsign
        obtain ⟨ha, _⟩ := Prod.mk.inj h
        obtain rfl : [] = a := (List.cons.inj ha).2
        rw [if_pos hsign]
        rfl
      · cases h

theorem fraction_cases {c s : Bytes} (h : fraction (c ++ s) = (c, s)) :
    (c = [] ∧ startsFraction s = false) ∨
      ∃ ds, c = 0x2E :: ds ∧ ds ≠ [] ∧ ds.all Byte.isDigit = true := by
  cases hstart : startsFraction (c ++ s) with
  | false =>
      rw [fraction_eq_nil hstart] at h
      obtain ⟨rfl, _⟩ := Prod.mk.inj h
      exact Or.inl ⟨rfl, hstart⟩
  | true =>
      right
      unfold startsFraction at hstart
      split at hstart
      · rename_i t heq
        rw [heq, fraction, if_pos ⟨rfl, hstart⟩] at h
        obtain ⟨rfl, _⟩ := Prod.mk.inj h
        exact ⟨_, rfl, startsWithDigit_digits_ne_nil hstart, digits_all t⟩
      · cases hstart

theorem fraction_again {c s s' : Bytes} (h : fraction (c ++ s) = (c, s))
    (hdigit : c ≠ [] -> startsWithDigit s' = false)
    (hstart : c = [] -> startsFraction s' = false) : fraction (c ++ s') = (c, s') := by
  rcases fraction_cases h with ⟨rfl, _⟩ | ⟨ds, rfl, hne, hall⟩
  · exact fraction_eq_nil (hstart rfl)
  · have hstop := hdigit (List.cons_ne_nil _ _)
    rw [List.cons_append, fraction, digits_append_of_stop hall hstop, if_pos]
    exact ⟨rfl, startsWithDigit_of_ne_nil hall hne s'⟩

theorem exponent_cases {d s : Bytes} (h : exponent (d ++ s) = (d, s)) :
    (d = [] ∧ startsExponent s = false) ∨
      ∃ e sg ds, d = e :: (sg ++ ds) ∧ (e = 0x65 ∨ e = 0x45) ∧ ds ≠ [] ∧
        ds.all Byte.isDigit = true ∧ sign (sg ++ (ds ++ s)) = (sg, ds ++ s) := by
  cases hstart : startsExponent (d ++ s) with
  | false =>
      rw [exponent_eq_nil hstart] at h
      obtain ⟨rfl, _⟩ := Prod.mk.inj h
      exact Or.inl ⟨rfl, hstart⟩
  | true =>
      right
      unfold startsExponent at hstart
      split at hstart
      · cases hstart
      · rename_i e t heq
        rw [Bool.and_eq_true, Bool.or_eq_true, beq_iff_eq, beq_iff_eq] at hstart
        rw [heq, exponent, if_pos hstart] at h
        obtain ⟨rfl, rfl⟩ := Prod.mk.inj h
        refine ⟨e, (sign t).1, (digits (sign t).2).1, rfl, hstart.1,
          startsWithDigit_digits_ne_nil hstart.2, digits_all _, ?_⟩
        rw [digits_append, sign_append]

theorem exponent_again {d s s' : Bytes} (h : exponent (d ++ s) = (d, s))
    (hdigit : d ≠ [] -> startsWithDigit s' = false)
    (hstart : d = [] -> startsExponent s' = false) : exponent (d ++ s') = (d, s') := by
  rcases exponent_cases h with ⟨rfl, _⟩ | ⟨e, sg, ds, rfl, he, hne, hall, hsign⟩
  · exact exponent_eq_nil (hstart rfl)
  · have hstop := hdigit (List.cons_ne_nil _ _)
    have hsign' : sign (sg ++ (ds ++ s')) = (sg, ds ++ s') := by
      apply sign_again hsign
      intro _
      obtain ⟨x, more, rfl⟩ := List.exists_cons_of_ne_nil hne
      rfl
    rw [List.cons_append, List.append_assoc, exponent, hsign',
      digits_append_of_stop hall hstop, if_pos]
    exact ⟨he, startsWithDigit_of_ne_nil hall hne s'⟩

/-!
## Reading a numeral again
-/

/-- The text `s'` goes on with a numeral no more than the text `s` does. -/
structure EndsAs (s' s : Bytes) : Prop where
  digit : startsWithDigit s' = false
  fraction : startsFraction s' = true -> startsFraction s = true
  exponent : startsExponent s' = true -> startsExponent s = true

theorem startsHere_eq (s : Bytes) :
    startsHere s = (startsWithDigit (sign s).2 || startsFraction (sign s).2) := by
  unfold startsHere
  split
  · rename_i after heq
    rw [heq]
    simp [startsWithDigit, startsFraction, Byte.isDigit]
  · rename_i hdot
    have hfraction : startsFraction (sign s).2 = false := by
      unfold startsFraction
      split
      · rename_i heq
        exact absurd heq (hdot _)
      · rfl
    rw [hfraction, Bool.or_false]

theorem read_cases {n s : Bytes} (h : read (n ++ s) = (n, s)) :
    ∃ a b c d, n = a ++ (b ++ (c ++ d)) ∧
      sign (a ++ (b ++ (c ++ (d ++ s)))) = (a, b ++ (c ++ (d ++ s))) ∧
      digits (b ++ (c ++ (d ++ s))) = (b, c ++ (d ++ s)) ∧
      fraction (c ++ (d ++ s)) = (c, d ++ s) ∧ exponent (d ++ s) = (d, s) := by
  obtain ⟨a, ra, ha⟩ : ∃ a ra, sign (n ++ s) = (a, ra) := ⟨_, _, rfl⟩
  obtain ⟨b, rb, hb⟩ : ∃ b rb, digits ra = (b, rb) := ⟨_, _, rfl⟩
  obtain ⟨c, rc, hc⟩ : ∃ c rc, fraction rb = (c, rc) := ⟨_, _, rfl⟩
  obtain ⟨d, rd, hd⟩ : ∃ d rd, exponent rc = (d, rd) := ⟨_, _, rfl⟩
  have happb := digits_append ra
  have happc := fraction_append rb
  have happd := exponent_append rc
  simp only [read, ha, hb, hc, hd, Prod.mk.injEq] at h
  rw [hb] at happb
  rw [hc] at happc
  rw [hd] at happd
  obtain ⟨rfl, rfl⟩ := h
  dsimp only at happb happc happd
  subst happd happc happb
  refine ⟨a, b, c, d, ?_, ?_, hb, hc, hd⟩
  · simp only [List.append_assoc]
  · simpa only [List.append_assoc] using ha

theorem fraction_stop {s : Bytes} (h : startsWithDigit s = false) :
    startsWithDigit (fraction s).2 = false := by
  unfold fraction
  split
  · rfl
  · split
    · exact digits_stop _
    · exact h

theorem exponent_stop {s : Bytes} (h : startsWithDigit s = false) :
    startsWithDigit (exponent s).2 = false := by
  unfold exponent
  split
  · rfl
  · split
    · exact digits_stop _
    · exact h

theorem read_stop {n s : Bytes} (h : read (n ++ s) = (n, s)) : startsWithDigit s = false := by
  have hstop : startsWithDigit (read (n ++ s)).2 = false :=
    exponent_stop (fraction_stop (digits_stop _))
  rw [h] at hstop
  exact hstop

/-- A numeral is read again in front of a text that does not go on with it. -/
theorem read_again {n s s' : Bytes} (hne : n ≠ []) (h : read (n ++ s) = (n, s))
    (hend : EndsAs s' s) : read (n ++ s') = (n, s') := by
  obtain ⟨a, b, c, d, rfl, ha, hb, hc, hd⟩ := read_cases h
  have hd' : exponent (d ++ s') = (d, s') := by
    apply exponent_again hd (fun _ => hend.digit)
    rintro rfl
    rcases exponent_cases hd with ⟨_, hnone⟩ | ⟨e, sg, ds, hcons, _⟩
    · rw [Bool.eq_false_iff]
      intro hstart
      rw [hend.exponent hstart] at hnone
      cases hnone
    · cases hcons
  have hstop : startsWithDigit (d ++ s') = false := by
    rcases exponent_cases hd with ⟨rfl, _⟩ | ⟨e, sg, ds, rfl, rfl | rfl, _⟩
    · exact hend.digit
    · rfl
    · rfl
  have hc' : fraction (c ++ (d ++ s')) = (c, d ++ s') := by
    apply fraction_again hc
    · intro _
      exact hstop
    · rintro rfl
      rcases exponent_cases hd with ⟨rfl, _⟩ | ⟨e, sg, ds, rfl, rfl | rfl, _⟩
      · rcases fraction_cases hc with ⟨_, hnone⟩ | ⟨ds, hcons, _⟩
        · rw [Bool.eq_false_iff]
          intro hstart
          rw [List.nil_append] at hnone
          rw [hend.fraction hstart] at hnone
          cases hnone
        · cases hcons
      · rfl
      · rfl
  have hb' : digits (b ++ (c ++ (d ++ s'))) = (b, c ++ (d ++ s')) := by
    have hall := digits_all (b ++ (c ++ (d ++ s)))
    rw [hb] at hall
    apply digits_append_of_stop hall
    rcases fraction_cases hc with ⟨rfl, _⟩ | ⟨ds, rfl, _⟩
    · exact hstop
    · rfl
  have ha' : sign (a ++ (b ++ (c ++ (d ++ s')))) = (a, b ++ (c ++ (d ++ s'))) := by
    apply sign_again ha
    rintro rfl
    rw [List.nil_append] at hne
    obtain ⟨x, more, hx⟩ := List.exists_cons_of_ne_nil hne
    have hfront : ∀ t, (b ++ (c ++ (d ++ t))).head? = some x := by
      intro t
      calc (b ++ (c ++ (d ++ t))).head?
          = (b ++ (c ++ d) ++ t).head? := by simp only [List.append_assoc]
        _ = some x := by rw [hx]; rfl
    rw [hfront, hfront]
  simp only [List.append_assoc, read, ha', hb', hc', hd']

theorem EndsAs.of_plain {b : UInt8} {s' : Bytes} (hdigit : Byte.isDigit b = false)
    (hpoint : b ≠ 0x2E) (hsmall : b ≠ 0x65) (hcapital : b ≠ 0x45) (s : Bytes) :
    EndsAs (b :: s') s := by
  refine ⟨hdigit, ?_, ?_⟩
  · intro h
    unfold startsFraction at h
    split at h
    · rename_i heq
      exact absurd (List.cons.inj heq).1 hpoint
    · cases h
  · intro h
    simp [startsExponent, hsmall, hcapital] at h

theorem startsHere_again {n s : Bytes} (hstart : startsHere (n ++ s) = true)
    (h : read (n ++ s) = (n, s)) (s' : Bytes) : startsHere (n ++ s') = true := by
  obtain ⟨a, b, c, d, rfl, ha, hb, hc, hd⟩ := read_cases h
  have hall := digits_all (b ++ (c ++ (d ++ s)))
  rw [hb] at hall
  have hsome : b ≠ [] ∨ c ≠ [] := by
    cases b with
    | cons x b => exact Or.inl (List.cons_ne_nil _ _)
    | nil =>
        right
        rintro rfl
        simp only [List.append_assoc] at hstart
        rw [startsHere_eq, ha] at hstart
        rcases Bool.or_eq_true_iff.mp hstart with hdigit | hfraction
        · have hnil := startsWithDigit_digits_ne_nil hdigit
          rw [hb] at hnil
          exact hnil rfl
        · rcases fraction_cases hc with ⟨_, hnone⟩ | ⟨ds, hcons, _⟩
          · simp only [List.nil_append] at hfraction
            rw [hnone] at hfraction
            cases hfraction
          · cases hcons
  have ha' : sign (a ++ (b ++ (c ++ (d ++ s')))) = (a, b ++ (c ++ (d ++ s'))) := by
    apply sign_again ha
    intro _
    cases b with
    | cons x b => rfl
    | nil =>
        obtain ⟨x, more, rfl⟩ := List.exists_cons_of_ne_nil (hsome.resolve_left fun h => h rfl)
        rfl
  simp only [List.append_assoc]
  rw [startsHere_eq, ha', Bool.or_eq_true_iff]
  cases b with
  | cons x b => exact Or.inl (startsWithDigit_of_ne_nil hall (List.cons_ne_nil _ _) _)
  | nil =>
      right
      rcases fraction_cases hc with ⟨rfl, _⟩ | ⟨ds, rfl, hne, hds⟩
      · exact absurd rfl (hsome.resolve_left fun h => h rfl)
      · exact startsWithDigit_of_ne_nil hds hne _

end Numeral
end StyleTrim
