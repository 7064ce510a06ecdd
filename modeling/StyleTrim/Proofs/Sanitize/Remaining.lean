import StyleTrim.Proofs.Sanitize.Pruned

/-!
# What remains of the tokens

Where spans are cut out of a text, the tokens outside of them remain. Only an address in quotes that
loses its string goes wrong: it takes all tokens with it up to the next closing parenthesis.
-/

namespace StyleTrim
namespace Sanitize

open Token Decoded

def isOutside (spans : List Span) (t : Token) : Bool :=
  spans.all fun span => span.stop ≤ t.offset || t.stop ≤ span.start

/-- The token opens an address in quotes whose string is dangerous, and so is cut out. -/
def loses (t : Token) (ts : List Token) : Bool :=
  opensQuoted t.lexeme && (firstVisible ts).any fun u => isDangerousLink u.lexeme

/-- The tokens behind the next closing parenthesis. -/
def behindParen (ts : List Token) : List Token :=
  (ts.dropWhile fun t => t.kind != .rightParen).tail

/-- What stands for an address that lost its string, and for all that it took with it. -/
def lostAddress : Lexeme :=
  ⟨.badUrl, [], [], false⟩

theorem behindParen_suffix (ts : List Token) : behindParen ts <:+ ts :=
  (List.tail_suffix _).trans (List.dropWhile_suffix _)

/-- What remains of the tokens when the spans are cut out. -/
def remaining (spans : List Span) (ts : List Token) : List Lexeme :=
  match ts with
  | [] => []
  | t :: ts =>
      if loses t ts then lostAddress :: remaining spans (behindParen ts)
      else if isOutside spans t then t.lexeme :: remaining spans ts
      else remaining spans ts
termination_by ts.length
decreasing_by
  · exact Nat.lt_succ_of_le (behindParen_suffix ts).length_le
  · exact Nat.lt_succ_self _
  · exact Nat.lt_succ_self _

/-!
## The next closing parenthesis
-/

theorem behindParen_append {front ts : List Token} (h : ∀ t ∈ front, t.kind ≠ .rightParen) :
    behindParen (front ++ ts) = behindParen ts := by
  rw [behindParen, List.dropWhile_append_of_pos, behindParen]
  intro t ht
  simpa using h t ht

theorem behindParen_cons {t : Token} (ts : List Token) (h : t.kind = .rightParen) :
    behindParen (t :: ts) = ts := by
  simp [behindParen, h]

theorem behindParen_none {ts : List Token} (h : ∀ t ∈ ts, t.kind ≠ .rightParen) :
    behindParen ts = [] := by
  rw [← List.append_nil ts, behindParen_append h]
  rfl

/-!
## Token by token
-/

theorem remaining_lost {t : Token} {ts : List Token} (spans : List Span)
    (h : loses t ts = true) :
    remaining spans (t :: ts) = lostAddress :: remaining spans (behindParen ts) := by
  rw [remaining, if_pos h]

theorem remaining_keep {spans : List Span} {t : Token} {ts : List Token}
    (hloses : loses t ts = false) (h : ∀ span ∈ spans, t.stop ≤ span.start) :
    remaining spans (t :: ts) = t.lexeme :: remaining spans ts := by
  have houtside : isOutside spans t = true := by
    rw [isOutside, List.all_eq_true]
    intro span hspan
    simp [h span hspan]
  rw [remaining, if_neg (by simp [hloses]), if_pos houtside]

theorem remaining_behind {span : Span} {spans : List Span} {ts : List Token}
    (h : ∀ t ∈ ts, span.stop ≤ t.offset) : remaining (span :: spans) ts = remaining spans ts := by
  induction hlength : ts.length using Nat.strongRecOn generalizing ts with
  | ind n ih =>
    cases ts with
    | nil => rw [remaining, remaining]
    | cons t ts =>
        have hts : ∀ u ∈ ts, span.stop ≤ u.offset := fun u hu => h u (List.mem_cons_of_mem t hu)
        have hsuffix := behindParen_suffix ts
        have hshorter := hsuffix.length_le
        rw [List.length_cons] at hlength
        have hlost := ih (behindParen ts).length (by omega) (fun u hu => hts u (hsuffix.subset hu))
          rfl
        have houtside : isOutside (span :: spans) t = isOutside spans t := by
          simp [isOutside, h t List.mem_cons_self]
        rw [remaining, remaining, hlost, houtside, ih ts.length (by omega) hts rfl]

theorem remaining_front {span : Span} {spans : List Span} {front ts : List Token}
    (hinside : ∀ m ∈ front, m.raw ≠ [] ∧ span.start ≤ m.offset ∧ m.stop ≤ span.stop)
    (hopens : ∀ m ∈ front, opensQuoted m.lexeme = false)
    (hbehind : ∀ t ∈ ts, span.stop ≤ t.offset) :
    remaining (span :: spans) (front ++ ts) = remaining spans ts := by
  induction front with
  | nil => exact remaining_behind hbehind
  | cons m front ih =>
      rcases hinside m List.mem_cons_self with ⟨hne, hstart, hstop⟩
      have hlength := List.length_pos_iff.mpr hne
      have hloses : ¬loses m (front ++ ts) = true := by simp [loses, hopens m List.mem_cons_self]
      have hm : ¬isOutside (span :: spans) m = true := by
        simp only [isOutside, List.all_cons, Bool.and_eq_true, Bool.or_eq_true, decide_eq_true_eq]
        intro hside
        rw [Token.stop] at hstop hside
        omega
      rw [List.cons_append, remaining, if_neg hloses, if_neg hm]
      exact ih (fun n hn => hinside n (List.mem_cons_of_mem m hn))
        fun n hn => hopens n (List.mem_cons_of_mem m hn)

theorem visible_remaining {spans : List Span} {ws : List Token} (ts : List Token)
    (h : ∀ w ∈ ws, w.kind = .whitespace) :
    visible (remaining spans (ws ++ ts)) = visible (remaining spans ts) := by
  induction ws with
  | nil => rfl
  | cons w ws ih =>
      have hspace := h w List.mem_cons_self
      have hnext := ih fun v hv => h v (List.mem_cons_of_mem w hv)
      have hloses : ¬loses w (ws ++ ts) = true := by simp [loses, opensQuoted, lexeme, hspace]
      rw [List.cons_append, remaining, if_neg hloses]
      split
      · rw [visible_space _ hspace]
        exact hnext
      · exact hnext

end Sanitize
end StyleTrim
