import StyleTrim.Proofs.Token.Settled
import StyleTrim.Sheet.Split

/-!
# Cutting the same stretches again

A stretch that was cut off once is cut off again where its written tokens stand. The reader counts
how deep it stands while it looks for the end; the writer keeps a stack of the closers it owes. The
count never exceeds the stack, so behind the closers it is back to zero, and the stretch can end.
-/

namespace StyleTrim
namespace Sheet

open Token

/-!
## The counts of the reader

Each count is a fold over the tokens, and none is left of it once the stretch has ended.
-/

def preludeAfter (statement : Bool) (depth : Option Nat) (t : Token) : Option Nat :=
  depth.bind fun d => if endsPrelude statement d t then none else some (depthAfter d t)

def valueAfter (depths : Option (Nat × Nat)) (t : Token) : Option (Nat × Nat) :=
  depths.bind fun d =>
    if d.1 = 0 ∧ d.2 = 0 ∧ (t.kind = .semicolon ∨ t.kind = .rightBrace) then none
    else some (depthAfter d.1 t, bracesAfter d.2 t)

def aheadAfter : Bool ⊕ Nat -> Token -> Bool ⊕ Nat
  | .inl found, _ => .inl found
  | .inr d, t =>
      match t.kind with
      | .leftBrace => .inl true
      | .rightBrace => .inl false
      | .semicolon => if d = 0 then .inl false else .inr d
      | _ => .inr (depthAfter d t)

theorem foldl_preludeAfter_none (statement : Bool) (ts : List Token) :
    ts.foldl (preludeAfter statement) none = none := by
  induction ts with
  | nil => rfl
  | cons t ts ih => exact ih

theorem foldl_valueAfter_none (ts : List Token) : ts.foldl valueAfter none = none := by
  induction ts with
  | nil => rfl
  | cons t ts ih => exact ih

theorem foldl_aheadAfter_inl (found : Bool) (ts : List Token) :
    ts.foldl aheadAfter (.inl found) = .inl found := by
  induction ts with
  | nil => rfl
  | cons t ts ih => exact ih

theorem splitPrelude_counted (statement : Bool) (d : Nat) (ts : List Token) :
    ∃ d', (splitPrelude statement d ts).1.foldl (preludeAfter statement) (some d) = some d' := by
  induction ts generalizing d with
  | nil => exact ⟨d, rfl⟩
  | cons t ts ih =>
      rw [splitPrelude]
      split
      · exact ⟨d, rfl⟩
      · rename_i hends
        rcases ih (depthAfter d t) with ⟨d', hd'⟩
        refine ⟨d', ?_⟩
        rw [List.foldl_cons]
        simpa [preludeAfter, hends] using hd'

theorem splitPrelude_of_ends {statement : Bool} {ts : List Token} {u : Token}
    (h : ∀ t ∈ ts, ∀ d, endsPrelude statement d t = false)
    (hu : ∀ d, endsPrelude statement d u = true) (rest : List Token) (d : Nat) :
    splitPrelude statement d (ts ++ u :: rest) = (ts, u :: rest) := by
  induction ts generalizing d with
  | nil => exact if_pos (hu d)
  | cons t ts ih =>
      rw [List.forall_mem_cons] at h
      rw [List.cons_append, splitPrelude, h.1 d, ih h.2]
      rfl

theorem splitPrelude_behind {statement : Bool} {d d' : Nat} {ts : List Token}
    (h : ts.foldl (preludeAfter statement) (some d) = some d') (rest : List Token) :
    splitPrelude statement d (ts ++ rest) =
      (ts ++ (splitPrelude statement d' rest).1, (splitPrelude statement d' rest).2) := by
  induction ts generalizing d with
  | nil =>
      cases h
      rfl
  | cons t ts ih =>
      rw [List.foldl_cons] at h
      by_cases hends : endsPrelude statement d t = true
      · rw [show preludeAfter statement (some d) t = none by simp [preludeAfter, hends],
          foldl_preludeAfter_none] at h
        cases h
      · rw [show preludeAfter statement (some d) t = some (depthAfter d t) by
          simp [preludeAfter, hends]] at h
        rw [List.cons_append, splitPrelude, if_neg hends, ih h]
        rfl

theorem splitValue_counted (d b : Nat) (ts : List Token) :
    ∃ d' b', (splitValue d b ts).1.foldl valueAfter (some (d, b)) = some (d', b') := by
  induction ts generalizing d b with
  | nil => exact ⟨d, b, rfl⟩
  | cons t ts ih =>
      rw [splitValue]
      split
      · exact ⟨d, b, rfl⟩
      · rename_i hends
        rcases ih (depthAfter d t) (bracesAfter b t) with ⟨d', b', hd'⟩
        refine ⟨d', b', ?_⟩
        rw [List.foldl_cons, show valueAfter (some (d, b)) t =
          some (depthAfter d t, bracesAfter b t) by simp [valueAfter, hends]]
        exact hd'

theorem splitValue_behind {d b d' b' : Nat} {ts : List Token}
    (h : ts.foldl valueAfter (some (d, b)) = some (d', b')) (rest : List Token) :
    splitValue d b (ts ++ rest) =
      (ts ++ (splitValue d' b' rest).1, (splitValue d' b' rest).2) := by
  induction ts generalizing d b with
  | nil =>
      cases h
      rfl
  | cons t ts ih =>
      rw [List.foldl_cons] at h
      by_cases hends : d = 0 ∧ b = 0 ∧ (t.kind = .semicolon ∨ t.kind = .rightBrace)
      · rw [show valueAfter (some (d, b)) t = none by simp [valueAfter, hends],
          foldl_valueAfter_none] at h
        cases h
      · rw [show valueAfter (some (d, b)) t = some (depthAfter d t, bracesAfter b t) by
          simp [valueAfter, hends]] at h
        rw [List.cons_append, splitValue, if_neg hends, ih h]
        rfl

theorem aheadAfter_plain {d : Nat} {t : Token} (hopen : t.kind ≠ .leftBrace)
    (hclose : t.kind ≠ .rightBrace) (hsemi : t.kind = .semicolon -> d ≠ 0) :
    aheadAfter (.inr d) t = .inr (depthAfter d t) := by
  rw [aheadAfter]
  split
  · rename_i hkind
    exact absurd hkind hopen
  · rename_i hkind
    exact absurd hkind hclose
  · rename_i hkind
    simp [hsemi hkind, depthAfter, hkind]
  · rfl

theorem ruleAhead_behind (d : Nat) (ts rest : List Token) :
    ruleAhead d (ts ++ rest) =
      match ts.foldl aheadAfter (.inr d) with
      | .inl found => found
      | .inr d' => ruleAhead d' rest := by
  induction ts generalizing d with
  | nil => rfl
  | cons t ts ih =>
      rw [List.cons_append, ruleAhead, List.foldl_cons]
      split
      · rename_i hkind
        rw [show aheadAfter (.inr d) t = .inl true by simp [aheadAfter, hkind],
          foldl_aheadAfter_inl]
      · rename_i hkind
        rw [show aheadAfter (.inr d) t = .inl false by simp [aheadAfter, hkind],
          foldl_aheadAfter_inl]
      · rename_i hkind
        by_cases hd : d = 0
        · rw [show aheadAfter (.inr d) t = .inl false by simp [aheadAfter, hkind, hd],
            foldl_aheadAfter_inl]
          simp [hd]
        · rw [show aheadAfter (.inr d) t = .inr d by simp [aheadAfter, hkind, hd], ih]
          simp [hd]
      · rename_i hopen hclose hsemi
        rw [aheadAfter_plain hopen hclose fun hkind => absurd hkind hsemi]
        exact ih _

theorem aheadAfter_eq_inr {d d' : Nat} {ts : List Token} :
    ts.foldl aheadAfter (.inr d) = .inr d' ↔
      ts.foldl (preludeAfter true) (some d) = some d' := by
  induction ts generalizing d with
  | nil => simp
  | cons t ts ih =>
      rw [List.foldl_cons, List.foldl_cons]
      by_cases hends : endsPrelude true d t = true
      · rw [show preludeAfter true (some d) t = none by simp [preludeAfter, hends],
          foldl_preludeAfter_none]
        have hfound : ∃ found, aheadAfter (.inr d) t = .inl found := by
          simp only [endsPrelude, Bool.or_eq_true, Bool.and_eq_true, beq_iff_eq, true_and] at hends
          rcases hends with (hkind | hkind) | ⟨hd, hkind⟩
          · exact ⟨true, by simp [aheadAfter, hkind]⟩
          · exact ⟨false, by simp [aheadAfter, hkind]⟩
          · exact ⟨false, by simp [aheadAfter, hkind, hd]⟩
        rcases hfound with ⟨found, hfound⟩
        rw [hfound, foldl_aheadAfter_inl]
        simp
      · rw [show preludeAfter true (some d) t = some (depthAfter d t) by
          simp [preludeAfter, hends]]
        simp only [endsPrelude, Bool.or_eq_true, Bool.and_eq_true, beq_iff_eq, true_and,
          not_or, not_and] at hends
        rw [aheadAfter_plain hends.1.1 hends.1.2 fun hkind hd => hends.2 hd hkind]
        exact ih

/-!
## The count and the stack
-/

def depthOwed (owed : Bytes) : Nat :=
  owed.countP (· != 0x7D)

theorem depthOwed_cons (b : UInt8) (owed : Bytes) :
    depthOwed (b :: owed) = depthOwed owed + if b = 0x7D then 0 else 1 := by
  by_cases hb : b = 0x7D <;> simp [depthOwed, hb]

theorem depthOwed_of_closing {owed : Bytes} {t : Token} {b : UInt8} (hcloser : t.closer? = none)
    (hclosing : t.closing? = some b) :
    depthOwed owed ≤ depthOwed (owedAfter owed t) + if b = 0x7D then 0 else 1 := by
  unfold owedAfter
  rw [hcloser, hclosing]
  cases owed with
  | nil => exact Nat.zero_le _
  | cons c owed =>
      dsimp only
      split
      · rename_i heq
        subst heq
        exact Nat.le_of_eq (depthOwed_cons b owed)
      · exact Nat.le_add_right _ _

theorem depthAfter_le {d : Nat} {owed : Bytes} (h : d ≤ depthOwed owed) (t : Token) :
    depthAfter d t ≤ depthOwed (owedAfter owed t) := by
  have hpush : ∀ b, t.closer? = some b -> owedAfter owed t = b :: owed := by
    intro b hb
    unfold owedAfter
    rw [hb]
  have hpop : ∀ b, t.closer? = none -> t.closing? = some b ->
      d ≤ depthOwed (owedAfter owed t) + if b = 0x7D then 0 else 1 := by
    intro b hcloser hclosing
    exact Nat.le_trans h (depthOwed_of_closing hcloser hclosing)
  have hsame : t.closer? = none -> t.closing? = none -> d ≤ depthOwed (owedAfter owed t) := by
    intro hcloser hclosing
    unfold owedAfter
    rw [hcloser, hclosing]
    exact h
  cases hkind : t.kind <;> simp only [depthAfter, hkind]
  case function =>
    rw [hpush 0x29 (by simp [closer?, hkind]), depthOwed_cons]
    exact Nat.succ_le_succ h
  case leftParen =>
    rw [hpush 0x29 (by simp [closer?, hkind]), depthOwed_cons]
    exact Nat.succ_le_succ h
  case leftBracket =>
    rw [hpush 0x5D (by simp [closer?, hkind]), depthOwed_cons]
    exact Nat.succ_le_succ h
  case leftBrace =>
    rw [hpush 0x7D (by simp [closer?, hkind]), depthOwed_cons]
    exact h
  case rightParen =>
    exact Nat.sub_le_of_le_add (hpop 0x29 (by simp [closer?, hkind]) (by simp [closing?, hkind]))
  case rightBracket =>
    exact Nat.sub_le_of_le_add (hpop 0x5D (by simp [closer?, hkind]) (by simp [closing?, hkind]))
  case rightBrace =>
    exact hpop 0x7D (by simp [closer?, hkind]) (by simp [closing?, hkind])
  all_goals exact hsame (by simp [closer?, hkind]) (by simp [closing?, hkind])

theorem preludeAfter_owed {statement : Bool} {d d' : Nat} {ts : List Token} {owed : Bytes}
    (h : ts.foldl (preludeAfter statement) (some d) = some d') (hd : d ≤ depthOwed owed)
    (hbrace : 0x7D ∉ owed) :
    d' ≤ depthOwed (ts.foldl owedAfter owed) ∧ 0x7D ∉ ts.foldl owedAfter owed := by
  induction ts generalizing d owed with
  | nil =>
      cases h
      exact ⟨hd, hbrace⟩
  | cons t ts ih =>
      rw [List.foldl_cons] at h ⊢
      by_cases hends : endsPrelude statement d t = true
      · rw [show preludeAfter statement (some d) t = none by simp [preludeAfter, hends],
          foldl_preludeAfter_none] at h
        cases h
      · rw [show preludeAfter statement (some d) t = some (depthAfter d t) by
          simp [preludeAfter, hends]] at h
        apply ih h (depthAfter_le hd t)
        have hopen : t.kind ≠ .leftBrace := by
          intro hkind
          simp [endsPrelude, hkind] at hends
        unfold owedAfter
        split
        · rename_i b hb
          rw [List.mem_cons, not_or]
          refine ⟨?_, hbrace⟩
          rintro rfl
          unfold closer? at hb
          split at hb <;> simp_all
        · split
          · split
            · intro hmem
              exact hbrace (List.mem_cons_of_mem _ hmem)
            · exact hbrace
          · exact hbrace

theorem preludeAfter_closers {statement : Bool} {bs : Bytes} {cs : List Token}
    (h : List.Forall₂ Closes bs cs) (hbrace : 0x7D ∉ bs) {d : Nat} (hd : d ≤ depthOwed bs) :
    cs.foldl (preludeAfter statement) (some d) = some 0 := by
  induction h generalizing d with
  | nil =>
      obtain rfl : d = 0 := Nat.le_zero.mp hd
      rfl
  | cons hb hrest ih =>
      rename_i b c bs cs
      rw [List.mem_cons, not_or] at hbrace
      rw [depthOwed_cons, if_neg (Ne.symm hbrace.1)] at hd
      rcases hb with ⟨hcloser, kind, hmark, hlexeme⟩
      have hkind : c.kind = kind := congrArg Lexeme.kind hlexeme
      have hstep : preludeAfter statement (some d) c = some (d - 1) := by
        rcases hcloser with rfl | rfl | rfl
        · cases hmark
          simp [preludeAfter, endsPrelude, depthAfter, hkind]
        · cases hmark
          simp [preludeAfter, endsPrelude, depthAfter, hkind]
        · exact absurd rfl hbrace.1
      rw [List.foldl_cons, hstep]
      exact ih hbrace.2 (by omega)

theorem valueAfter_owed {d b d' b' : Nat} {ts : List Token} {owed : Bytes}
    (h : ts.foldl valueAfter (some (d, b)) = some (d', b')) (hd : d ≤ depthOwed owed) :
    d' ≤ depthOwed (ts.foldl owedAfter owed) ∧ b' = ts.foldl bracesAfter b := by
  induction ts generalizing d b owed with
  | nil =>
      cases h
      exact ⟨hd, rfl⟩
  | cons t ts ih =>
      rw [List.foldl_cons] at h ⊢
      by_cases hends : d = 0 ∧ b = 0 ∧ (t.kind = .semicolon ∨ t.kind = .rightBrace)
      · rw [show valueAfter (some (d, b)) t = none by simp [valueAfter, hends],
          foldl_valueAfter_none] at h
        cases h
      · rw [show valueAfter (some (d, b)) t = some (depthAfter d t, bracesAfter b t) by
          simp [valueAfter, hends]] at h
        exact ih h (depthAfter_le hd t)

theorem valueAfter_closers {bs : Bytes} {cs : List Token} (h : List.Forall₂ Closes bs cs)
    {d b : Nat} (hd : d ≤ depthOwed bs) (hb : b = bs.count 0x7D) :
    cs.foldl valueAfter (some (d, b)) = some (0, 0) := by
  induction h generalizing d b with
  | nil =>
      obtain rfl : d = 0 := Nat.le_zero.mp hd
      subst hb
      rfl
  | cons hclose hrest ih =>
      rename_i x c bs cs
      rw [depthOwed_cons] at hd
      rw [List.count_cons] at hb
      rcases hclose with ⟨hcloser, kind, hmark, hlexeme⟩
      have hkind : c.kind = kind := congrArg Lexeme.kind hlexeme
      rw [List.foldl_cons]
      rcases hcloser with rfl | rfl | rfl
      · cases hmark
        rw [show valueAfter (some (d, b)) c = some (d - 1, b) by
          simp [valueAfter, depthAfter, bracesAfter, hkind]]
        simp at hd hb
        exact ih (by omega) hb
      · cases hmark
        rw [show valueAfter (some (d, b)) c = some (d - 1, b) by
          simp [valueAfter, depthAfter, bracesAfter, hkind]]
        simp at hd hb
        exact ih (by omega) hb
      · cases hmark
        simp at hd hb
        rw [show valueAfter (some (d, b)) c = some (d, b - 1) by
          simp [valueAfter, depthAfter, bracesAfter, hkind, hb]]
        exact ih hd (by omega)

/-!
## The counts over written tokens
-/

theorem depthAfter_space {t : Token} (h : t.kind = .whitespace) (d : Nat) :
    depthAfter d t = d := by
  simp [depthAfter, h]

theorem eq_of_answers {t u : Token} (h : Answers t u) {f : Token -> Nat} {n : Nat}
    (hkind : ∀ t u : Token, u.kind = t.kind -> f u = f t)
    (hmute : ∀ v : Token, v.isMute -> f v = n) : f u = f t := by
  rcases becomes_cases h.becomes with hsame | ⟨ht, hu⟩
  · exact hkind t u (congrArg Lexeme.kind hsame)
  · rw [hmute u hu, hmute t ht]

theorem depthAfter_answers {t u : Token} (h : Answers t u) (d : Nat) :
    depthAfter d u = depthAfter d t := by
  apply eq_of_answers h (n := d)
  · intro t u hkind
    simp only [depthAfter, hkind]
  · intro v hv
    rcases hv with hv | hv | hv | hv <;> simp [depthAfter, hv]

theorem bracesAfter_answers {t u : Token} (h : Answers t u) (b : Nat) :
    bracesAfter b u = bracesAfter b t := by
  apply eq_of_answers h (n := b)
  · intro t u hkind
    simp only [bracesAfter, hkind]
  · intro v hv
    rcases hv with hv | hv | hv | hv <;> simp [bracesAfter, hv]

theorem kind_eq_of_answers {t u : Token} (h : Answers t u) (kind : TokenKind)
    (hkind : kind ≠ .string ∧ kind ≠ .badString ∧ kind ≠ .url ∧ kind ≠ .badUrl) :
    u.kind = kind ↔ t.kind = kind := by
  have hbeq := h.kind_beq kind hkind
  constructor
  · intro hu
    exact beq_iff_eq.mp (hbeq ▸ beq_iff_eq.mpr hu)
  · intro ht
    exact beq_iff_eq.mp (hbeq.symm ▸ beq_iff_eq.mpr ht)

variable {place : Place} {last : Option Token} {space : Bool} {ts us : List Token}

theorem preludeAfter_echoes (statement : Bool) (h : Echoes place last space ts us)
    (depth : Option Nat) :
    us.foldl (preludeAfter statement) depth = ts.foldl (preludeAfter statement) depth := by
  apply foldl_echoes ?_ ?_ ?_ h
  · intro depth t hspace
    cases depth <;> simp [preludeAfter, endsPrelude, depthAfter_space hspace, hspace]
  · intro depth t hdelim
    cases depth <;> simp [preludeAfter, endsPrelude, depthAfter, hdelim]
  · intro depth t u hanswers
    have hends : ∀ d, endsPrelude statement d u = endsPrelude statement d t := by
      intro d
      simp only [endsPrelude,
        hanswers.kind_beq .leftBrace (by decide),
        hanswers.kind_beq .rightBrace (by decide),
        hanswers.kind_beq .semicolon (by decide)]
    cases depth with
    | none => rfl
    | some d => simp only [preludeAfter, hends, depthAfter_answers hanswers]

theorem valueAfter_echoes (h : Echoes place last space ts us) (depths : Option (Nat × Nat)) :
    us.foldl valueAfter depths = ts.foldl valueAfter depths := by
  apply foldl_echoes ?_ ?_ ?_ h
  · intro depths t hspace
    cases depths <;> simp [valueAfter, depthAfter_space hspace, bracesAfter, hspace]
  · intro depths t hdelim
    cases depths <;> simp [valueAfter, depthAfter, bracesAfter, hdelim]
  · intro depths t u hanswers
    cases depths with
    | none => rfl
    | some d =>
        simp only [valueAfter, depthAfter_answers hanswers, bracesAfter_answers hanswers,
          kind_eq_of_answers hanswers .semicolon (by decide),
          kind_eq_of_answers hanswers .rightBrace (by decide)]

theorem aheadAfter_echoes (h : Echoes place last space ts us) (ahead : Bool ⊕ Nat) :
    us.foldl aheadAfter ahead = ts.foldl aheadAfter ahead := by
  apply foldl_echoes ?_ ?_ ?_ h
  · intro ahead t hspace
    cases ahead <;> simp [aheadAfter, depthAfter_space hspace, hspace]
  · intro ahead t hdelim
    cases ahead <;> simp [aheadAfter, depthAfter, hdelim]
  · intro ahead t u hanswers
    rcases becomes_cases hanswers.becomes with hsame | ⟨ht, hu⟩
    · have hkind : u.kind = t.kind := congrArg Lexeme.kind hsame
      cases ahead <;> simp only [aheadAfter, hkind, depthAfter_answers hanswers]
    · have hno : ∀ v : Token, v.isMute -> aheadAfter ahead v = ahead := by
        intro v hv
        cases ahead <;> rcases hv with hv | hv | hv | hv <;> simp [aheadAfter, depthAfter, hv]
      rw [hno u hu, hno t ht]

theorem preludeAfter_settles {statement : Bool} {d : Nat} (h : Settles place ts us)
    (hcount : ts.foldl (preludeAfter statement) (some 0) = some d) :
    us.foldl (preludeAfter statement) (some 0) = some 0 := by
  cases h with
  | intro hechoes hclosers =>
      have howed := preludeAfter_owed hcount (Nat.zero_le _) List.not_mem_nil
      rw [List.foldl_append, preludeAfter_echoes statement hechoes, hcount]
      exact preludeAfter_closers hclosers howed.2 howed.1

theorem valueAfter_settles {d b : Nat} (h : Settles place ts us)
    (hcount : ts.foldl valueAfter (some (0, 0)) = some (d, b))
    (hbraces : (owed ts).count 0x7D = ts.foldl bracesAfter 0) :
    us.foldl valueAfter (some (0, 0)) = some (0, 0) := by
  cases h with
  | intro hechoes hclosers =>
      have howed := valueAfter_owed hcount (Nat.zero_le (depthOwed []))
      rw [List.foldl_append, valueAfter_echoes hechoes, hcount]
      apply valueAfter_closers hclosers howed.1
      rw [howed.2, hbraces]

end Sheet
end StyleTrim
