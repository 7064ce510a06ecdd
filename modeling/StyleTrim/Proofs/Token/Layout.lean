import StyleTrim.Proofs.Token.Shape
import StyleTrim.Token.Stream

/-!
# How tokens lie in a text

`Laid offset s ts` says that the tokens `ts` lie one behind the other in the text `s`, which begins
at the offset, with nothing but comments between them. The tokens of a text lie in it.
-/

namespace StyleTrim
namespace Token

open Lexeme

/-- The token without its place. -/
def lexeme (t : Token) : Lexeme :=
  ⟨t.kind, t.value, t.raw, t.unterminated⟩

def Gap (gap s : Bytes) : Prop :=
  ∃ v, Reader.comment.scan (gap ++ s) = ⟨v, gap, s⟩

inductive Laid : Nat -> Bytes -> List Token -> Prop where
  | ending {offset : Nat} {gap : Bytes} (hgap : Gap gap []) :
      Laid offset gap [endAt (offset + gap.length) (!gap.isEmpty)]
  | token {offset : Nat} {gap s : Bytes} {l : Lexeme} {ts : List Token}
      (hgap : Gap gap (l.raw ++ s)) (hshape : Shape l s)
      (htail : Laid (offset + gap.length + l.raw.length) s ts) :
      Laid offset (gap ++ (l.raw ++ s)) (ofLexeme l (offset + gap.length) (!gap.isEmpty) :: ts)

theorem gap_scan (s : Bytes) :
    ∃ gap rest, s = gap ++ rest ∧ Gap gap rest ∧ (Reader.comment.scan s).raw = gap ∧
      (Reader.comment.scan s).rest = rest := by
  have happ := Reader.comment.scan_raw_append s
  refine ⟨_, _, happ.symm, ⟨(Reader.comment.scan s).value, ?_⟩, rfl, rfl⟩
  rw [happ]

theorem laid_streamFrom (offset : Nat) (s : Bytes) : Laid offset s (streamFrom offset s) := by
  induction hn : s.length using Nat.strongRecOn generalizing offset s with
  | ind n ih =>
    obtain ⟨gap, rest, hs, hgap, hraw, hrest⟩ := gap_scan s
    cases rest with
    | nil =>
        rw [streamFrom_nil offset hrest, hraw, hs, List.append_nil]
        exact .ending hgap
    | cons b tail =>
        obtain ⟨l, after, hread⟩ : ∃ l after, Lexeme.read b tail = (l, after) := ⟨_, _, rfl⟩
        have happ := (read_splits b tail).1
        have hlt := rest_length_lt hrest
        rw [streamFrom_cons offset hrest, hraw]
        rw [hread] at happ hlt ⊢
        dsimp only at happ hlt ⊢
        rw [← happ] at hgap hs
        rw [hs]
        exact .token hgap (shape_of_read hread) (ih after.length (hn ▸ hlt) _ _ rfl)

theorem laid_tokenize (s : Bytes) : Laid 0 s (tokenize s) :=
  laid_streamFrom 0 s

theorem Laid.offset_le {offset : Nat} {s : Bytes} {ts : List Token} (h : Laid offset s ts) :
    ∀ t ∈ ts, offset ≤ t.offset := by
  induction h with
  | ending hgap =>
      intro t ht
      rw [List.mem_singleton] at ht
      subst ht
      exact Nat.le_add_right _ _
  | token hgap hshape htail ih =>
      intro t ht
      rcases List.mem_cons.mp ht with rfl | ht
      · exact Nat.le_add_right _ _
      · have hle := ih t ht
        omega

end Token
end StyleTrim
