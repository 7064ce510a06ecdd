import StyleTrim.Proofs.Sheet.Closed

/-!
# Sheets one behind the other

A text that strict reading takes, and that ends with a closing brace, leaves nothing open. A prelude
ends at the latest before the last brace. A value may go on to the end, but then the brace did not
close the block in which the value stands, and strict reading refuses the text. So two sheets can be
put one behind the other, and cut apart again.
-/

namespace StyleTrim
namespace Sheet

open Token

/-!
## The last brace
-/

def EndsInBrace (ts : List Token) : Prop :=
  ∀ t ∈ ts.getLast?, t.kind = .rightBrace

variable {t : Token} {ts rest : List Token}

theorem EndsInBrace.suffix (h : EndsInBrace ts) (hsuffix : rest <:+ ts) : EndsInBrace rest := by
  intro t ht
  rcases hsuffix with ⟨front, rfl⟩
  apply h
  rw [List.getLast?_append, Option.mem_def.mp ht]
  rfl

theorem splitPrelude_ne_nil {statement : Bool} {depth : Nat} (h : EndsInBrace ts) (hne : ts ≠ []) :
    (splitPrelude statement depth ts).2 ≠ [] := by
  induction ts generalizing depth with
  | nil => exact absurd rfl hne
  | cons t ts ih =>
      rw [splitPrelude]
      split
      · exact List.cons_ne_nil t ts
      · rename_i hends
        cases ts with
        | nil => simp [endsPrelude, h t rfl] at hends
        | cons u us => exact ih (h.suffix (List.suffix_cons t _)) (List.cons_ne_nil u us)

/-!
## Steps
-/

variable {o : Options} {st st' : State} {body : Body}

theorem cases_of_not_isEnded (hbrace : EndsInBrace (t :: ts))
    (h : Moment.isEnded ⟨body, t :: ts⟩ = false) :
    body = .declarations ∧ body.opensOn t.kind ∧ endsAmongDeclarations (t :: ts) = false := by
  have hprelude : (splitPrelude false 0 (t :: ts)).2 ≠ [] :=
    splitPrelude_ne_nil hbrace (List.cons_ne_nil t ts)
  unfold Moment.isEnded at h
  dsimp only at h
  split at h
  · rename_i hat
    have hne : ts ≠ [] := by
      rintro rfl
      rw [hbrace t rfl] at hat
      cases hat
    have hstop : (splitPrelude true 0 ts).2 ≠ [] :=
      splitPrelude_ne_nil (hbrace.suffix (List.suffix_cons t ts)) hne
    simp [hstop] at h
  · rename_i hat
    split at h
    · cases h
    · rename_i hskip
      simp only [Bool.or_eq_true, beq_iff_eq, not_or, Bool.not_eq_true] at hskip
      split at h
      · simp [hprelude] at h
      · exact ⟨rfl, ⟨hskip.1, hskip.2, hat⟩, h⟩

theorem Takes.of_not_isEnded (htakes : Takes o st t ts st' rest) (hbrace : EndsInBrace (t :: ts))
    (h : Moment.isEnded ⟨st.body, t :: ts⟩ = false) :
    st.body = .declarations ∧ st'.frames = st.frames ∧ rest = [] := by
  rcases cases_of_not_isEnded hbrace h with ⟨hbody, hopens, hends⟩
  refine ⟨hbody, ?_⟩
  unfold endsAmongDeclarations at hends
  cases htakes with
  | pass hskip =>
      rw [hopens.1] at hskip
      cases hskip
  | close hkind hinside => exact absurd hkind hopens.2.1
  | statement hat hend => exact absurd hat hopens.2.2
  | enterAtRule hat hsplit hopen henter => exact absurd hat hopens.2.2
  | enterRule hkind hseek hsplit hopen henter =>
      rcases hseek hbody with ⟨hahead, hrule⟩
      rw [hahead] at hends
      simp [hrule, hsplit] at hends
  | dropRule hkind hseek hend hopen =>
      rcases hseek hbody with ⟨hahead, hrule⟩
      rw [hahead] at hends
      exact ⟨rfl, by simpa [hrule] using hends⟩
  | declare hdeclarations hkind hahead =>
      rename_i opening
      rw [hahead] at hends
      have hvalue : (splitValue 0 0 opening.rest).2 = [] := by simpa using hends
      unfold stepDeclaration
      dsimp only
      rw [hvalue]
      split <;> exact ⟨rfl, rfl⟩
  | malformed hdeclarations hkind hahead hrule =>
      rw [hahead] at hends
      have hvalue : (splitValue 0 0 (t :: ts)).2 = [] := by simpa [hrule] using hends
      exact ⟨rfl, by rw [skipMalformed, hvalue]; rfl⟩

/-!
## Runs
-/

theorem State.Grown.frames_ne_nil {seen : Moment -> Prop} {selectors : Bool}
    (h : st.Grown o seen (.rules selectors)) (hbody : st.body = .declarations) :
    st.frames ≠ [] := by
  intro hframes
  have hroot := h.frames
  rw [hframes, hbody] at hroot
  cases (hroot : Body.declarations = .rules selectors)

theorem isEnded_of_closed {selectors : Bool}
    (hgrown : st.Grown o (fun _ => True) (.rules selectors)) (hrun : run o st ts = .ok st')
    (hframes : st'.frames = []) (hbrace : EndsInBrace ts) :
    ∀ moment ∈ moments o st ts, moment.isEnded = true := by
  induction hlength : ts.length using Nat.strongRecOn generalizing st ts with
  | ind length ih =>
    cases ts with
    | nil =>
        rw [moments]
        exact List.forall_mem_nil _
    | cons t ts =>
        rcases run_cons_ok hrun with ⟨next, rest, hstep, hnext⟩
        have htakes := step_takes hstep
        rw [moments_cons_of_ok hstep, List.forall_mem_cons]
        constructor
        · rw [← Bool.not_eq_false]
          intro hopen
          rcases htakes.of_not_isEnded hbrace hopen with ⟨hbody, hsame, rfl⟩
          rw [run_nil] at hnext
          cases hnext
          exact hgrown.frames_ne_nil hbody (hsame.symm.trans hframes)
        · exact ih rest.length (hlength ▸ step_length hstep) (hgrown.takes trivial htakes) hnext
            (hbrace.suffix htakes.suffix) rfl

/-!
## Sheets
-/

/-- The text ends with its last token, and that is a closing brace. -/
def EndsWithBrace (s : Bytes) : Prop :=
  ∃ t, (Token.body (tokenize s)).getLast? = some t ∧ t.kind = .rightBrace ∧ t.stop = s.length

theorem EndsWithBrace.endsInBrace {s : Bytes} (h : EndsWithBrace s) :
    EndsInBrace (Token.body (tokenize s)) := by
  rcases h with ⟨t, hlast, hkind, _⟩
  intro u hu
  rw [hlast] at hu
  cases hu
  exact hkind

theorem EndsWithBrace.isTerminated {s : Bytes} (h : EndsWithBrace s) : isTerminated s = true := by
  rcases h with ⟨t, hlast, hkind, hstop⟩
  simp [Token.isTerminated, hlast, isTerminator, hkind, hstop]

theorem frames_of_finish {sheet : Sheet} (hstrict : o.isStrict = true)
    (h : finish o st = .ok sheet) : st.frames = [] := by
  unfold finish at h
  split at h
  · cases h
  · rename_i hopen
    simpa [hstrict] using hopen

theorem isClosed_of_parse {s : Bytes} {sheet : Sheet} (hstrict : o.isStrict = true)
    (h : parse o s = .ok sheet) (hbrace : EndsWithBrace s) : isClosed o s = true := by
  have hbuild := build_of_parse h
  unfold build at hbuild
  split at hbuild
  · cases hbuild
  · rename_i st hrun
    have hframes := frames_of_finish hstrict hbuild
    have hended := isEnded_of_closed (State.Grown.start o (fun _ => True) (.rules o.isStrict))
      hrun hframes hbrace.endsInBrace
    simp only [isClosed, Bool.and_eq_true, List.all_eq_true]
    refine ⟨⟨hbrace.isTerminated, hended⟩, ?_⟩
    rw [hrun]
    simpa [Except.toOption] using hframes

theorem noBad_append {x y : Bytes} (hx : (tokenize x).any Token.isBad = false)
    (hy : (tokenize y).any Token.isBad = false) (hterminated : isTerminated x = true) :
    (tokenize (x ++ y)).any Token.isBad = false := by
  rw [List.any_eq_false] at hx hy
  rw [tokenize_append hterminated, streamFrom_eq_map, List.any_append, Bool.or_eq_false_iff,
    List.any_map, List.any_eq_false, List.any_eq_false]
  exact ⟨fun t ht => hx t ((List.takeWhile_sublist _).subset ht), hy⟩

theorem parse_append_of_brace {x y : Bytes} {front back : Sheet} (hstrict : o.isStrict = true)
    (hx : parse o x = .ok front) (hy : parse o y = .ok back) (hbrace : EndsWithBrace x) :
    parse o (x ++ y) = .ok (front ++ back) := by
  rcases build_append_of_closed (isClosed_of_parse hstrict hx hbrace) with ⟨nodes, hbuild⟩
  have hfront : nodes = front := by
    have halone := hbuild []
    rw [List.append_nil, build_of_parse hx, build_of_parse (parse_nil o)] at halone
    simpa using (Except.ok.inj halone).symm
  have hbad := noBad_append (noBad_of_parse hstrict hx) (noBad_of_parse hstrict hy)
    hbrace.isTerminated
  rw [parse, ofTokens_eq_build fun _ => hbad, hbuild, build_of_parse hy, hfront]
  rfl

end Sheet
end StyleTrim
