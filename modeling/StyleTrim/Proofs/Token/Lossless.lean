import StyleTrim.Proofs.Token.Parting

/-!
# Nothing of a text is lost

The tokens of a text and the comments between them make up the text: every token is the stretch of
the text that begins at its offset, no two of them overlap, and whatever lies between two of them is
one comment behind the other. A comment is told here by its bytes alone, without the reader that
skips it.
-/

namespace StyleTrim

/-!
## Comments
-/

/-- A comment ends with the first closing mark behind its opening. -/
def IsComment (c : Bytes) : Prop :=
  ∃ body, c = 0x2F :: 0x2A :: (body ++ [0x2A, 0x2F]) ∧ ¬[0x2A, 0x2F] <:+: body ++ [0x2A]

/-- A comment that is never closed. -/
def IsOpenComment (c : Bytes) : Prop :=
  ∃ body, c = 0x2F :: 0x2A :: body ∧ ¬[0x2A, 0x2F] <:+: body

/-- The gap is filled with comments. Only at the end of the text may the last one be open. -/
def IsFilled (atEnd : Prop) (gap : Bytes) : Prop :=
  ∃ (comments : List Bytes) (last : Bytes),
    gap = comments.flatten ++ last ∧ (∀ c ∈ comments, IsComment c) ∧
      (last = [] ∨ atEnd ∧ IsOpenComment last)

namespace Reader

theorem not_infix_of_scan {body v s : Bytes}
    (h : commentBody.scan (body ++ s) = ⟨v, body, s⟩) :
    ¬[0x2A, 0x2F] <:+: body ++ s.take 1 := by
  induction hn : body.length using Nat.strongRecOn generalizing body v with
  | ind n ih =>
    rcases commentBody.scan_cases h with ⟨rfl, _⟩ | ⟨p, y, w, rfl, _, hread, hscan⟩
    · intro hinfix
      have hlength := hinfix.length_le
      simp only [List.nil_append, List.length_take, List.length_cons, List.length_nil] at hlength
      omega
    · rcases commentBody_read_cases hread with ⟨b, heq, rfl, hstar⟩
      have hrest := ih y.length (by simp [← hn, Piece.plain]) hscan rfl
      change ¬_ <:+: b :: (y ++ s.take 1)
      rw [List.infix_cons_iff]
      rintro (⟨t, ht⟩ | hinfix)
      · rcases List.cons.inj ht with ⟨rfl, htail⟩
        apply hstar rfl
        cases y with
        | nil =>
            cases s with
            | nil => cases htail
            | cons c s =>
                rcases List.cons.inj htail with ⟨rfl, _⟩
                rfl
        | cons c y =>
            rcases List.cons.inj htail with ⟨rfl, _⟩
            rfl
      · exact hrest hinfix

theorem comment_of_read {p : Piece} {s : Bytes} (h : comment.read (p.raw ++ s) = some (p, s)) :
    IsComment p.raw ∨ s = [] ∧ IsOpenComment p.raw := by
  simp only [comment] at h
  split at h
  · rename_i u heq
    simp only [Option.some.injEq, Prod.mk.injEq] at h
    rcases h with ⟨rfl, rfl⟩
    have happ := commentBody.scan_raw_append u
    have hread := commentBody.read_scan_rest u
    have hinfix : ¬[0x2A, 0x2F] <:+:
        (commentBody.scan u).raw ++ (commentBody.scan u).rest.take 1 := by
      apply not_infix_of_scan (v := (commentBody.scan u).value)
      rw [happ]
    by_cases hrest : (commentBody.scan u).rest = []
    · right
      rw [hrest] at hinfix ⊢
      refine ⟨rfl, (commentBody.scan u).raw, ?_, ?_⟩
      · simp
      · simpa using hinfix
    · left
      rcases commentBody_read_none hrest hread with ⟨t, ht⟩
      rw [ht] at hinfix ⊢
      exact ⟨(commentBody.scan u).raw, rfl, hinfix⟩
  · cases h

end Reader

namespace Token

theorem Gap.isFilled {gap s : Bytes} (h : Gap gap s) : IsFilled (s = []) gap := by
  rcases h with ⟨v, hscan⟩
  induction hn : gap.length using Nat.strongRecOn generalizing gap v with
  | ind n ih =>
    rcases Reader.comment.scan_cases hscan with ⟨rfl, _⟩ | ⟨p, y, w, rfl, _, hread, hscan'⟩
    · exact ⟨[], [], rfl, nofun, Or.inl rfl⟩
    · rcases Reader.comment_of_read hread with hcomment | ⟨hend, hopen⟩
      · have hraw := List.length_pos_iff.mpr (Reader.comment.raw_ne_nil hread)
        have hlt : y.length < n := by
          rw [← hn, List.length_append]
          omega
        rcases ih y.length hlt w hscan' rfl with ⟨comments, last, rfl, hall, hlast⟩
        exact ⟨p.raw :: comments, last, by simp, List.forall_mem_cons.mpr ⟨hcomment, hall⟩, hlast⟩
      · rcases List.append_eq_nil_iff.mp hend with ⟨rfl, rfl⟩
        exact ⟨[], p.raw, by simp, nofun, Or.inr ⟨rfl, hopen⟩⟩

/-!
## Stretches of a text
-/

def between (s : Bytes) (start stop : Nat) : Bytes :=
  (s.take stop).drop start

theorem between_append (front x rest : Bytes) :
    between (front ++ (x ++ rest)) front.length (front.length + x.length) = x := by
  rw [between, ← List.append_assoc, ← List.length_append, List.take_left, List.drop_left]

/-- Each token with the place where the token before it ends. -/
def placed (start : Nat) : List Token -> List (Nat × Token)
  | [] => []
  | t :: ts => (start, t) :: placed t.stop ts

/-- The tokens and the comments between them are the whole text. -/
structure Lossless (s : Bytes) (ts : List Token) : Prop where
  ending : ∃ front last, ts = front ++ [last] ∧ last.kind = .endOfText ∧ last.raw = [] ∧
    last.offset = s.length ∧ ∀ t ∈ front, t.kind ≠ .endOfText ∧ t.raw ≠ []
  raw : ∀ t ∈ ts, between s t.offset t.stop = t.raw
  order : ts.Pairwise fun t u => t.offset < u.offset ∧ t.stop ≤ u.offset
  gap : ∀ p ∈ placed 0 ts, p.1 ≤ p.2.offset ∧
    IsFilled (p.2.kind = .endOfText) (between s p.1 p.2.offset)
  mark : ∀ p ∈ placed 0 ts, p.2.afterComment = true ↔ between s p.1 p.2.offset ≠ []
  whole : s = (placed 0 ts).flatMap fun p => between s p.1 p.2.offset ++ p.2.raw

variable {offset : Nat} {s : Bytes} {ts : List Token}

theorem ending_of_laid (h : Laid offset s ts) :
    ∃ front last, ts = front ++ [last] ∧ last.kind = .endOfText ∧ last.raw = [] ∧
      last.offset = offset + s.length ∧ ∀ t ∈ front, t.kind ≠ .endOfText ∧ t.raw ≠ [] := by
  induction h with
  | ending hgap => exact ⟨[], _, rfl, rfl, rfl, rfl, nofun⟩
  | token hgap hshape htail ih =>
      rename_i offset gap s l ts
      rcases ih with ⟨front, last, rfl, hkind, hraw, hoffset, hfront⟩
      refine ⟨ofLexeme l (offset + gap.length) (!gap.isEmpty) :: front, last, rfl, hkind, hraw,
        ?_, List.forall_mem_cons.mpr ⟨⟨?_, ?_⟩, hfront⟩⟩
      · rw [hoffset]
        simp [Nat.add_assoc]
      · exact Lexeme.kind_ne_endOfText hshape
      · exact Lexeme.raw_ne_nil hshape

theorem order_of_laid (h : Laid offset s ts) :
    ts.Pairwise fun t u => t.offset < u.offset ∧ t.stop ≤ u.offset := by
  induction h with
  | ending hgap => exact List.pairwise_singleton _ _
  | token hgap hshape htail ih =>
      rename_i offset gap s l ts
      refine List.pairwise_cons.mpr ⟨?_, ih⟩
      intro u hu
      have hpos := List.length_pos_iff.mpr (Lexeme.raw_ne_nil hshape)
      have hle := htail.offset_le u hu
      simp only [Token.stop, ofLexeme]
      omega

/-!
The text that stands before the place from which the tokens are read is carried along.
-/

structure Sits (text : Bytes) (start : Nat) (t : Token) : Prop where
  raw : between text t.offset t.stop = t.raw
  start_le : start ≤ t.offset
  gap : IsFilled (t.kind = .endOfText) (between text start t.offset)
  mark : t.afterComment = true ↔ between text start t.offset ≠ []

theorem sits_of_laid (h : Laid offset s ts) (front : Bytes) (hfront : front.length = offset) :
    (∀ p ∈ placed offset ts, Sits (front ++ s) p.1 p.2) ∧
      s = (placed offset ts).flatMap fun p => between (front ++ s) p.1 p.2.offset ++ p.2.raw := by
  induction h generalizing front with
  | ending hgap =>
      rename_i offset gap
      subst hfront
      have hbetween := between_append front gap []
      rw [List.append_nil] at hbetween
      refine ⟨List.forall_mem_singleton.mpr ⟨?_, Nat.le_add_right _ _, ?_, ?_⟩, ?_⟩
      · change between (front ++ gap) (front.length + gap.length) (front.length + gap.length) = []
        rw [between, List.drop_eq_nil_iff, List.length_take]
        omega
      · rcases hgap.isFilled with ⟨comments, last, hgap, hall, hlast⟩
        exact ⟨comments, last, hbetween.trans hgap, hall, hlast.imp_right fun h => ⟨rfl, h.2⟩⟩
      · change (!gap.isEmpty) = true ↔ between (front ++ gap) front.length (front.length + _) ≠ []
        rw [hbetween]
        simp
      · change gap = between (front ++ gap) front.length (front.length + gap.length) ++ [] ++ []
        rw [hbetween, List.append_nil, List.append_nil]
  | token hgap hshape htail ih =>
      rename_i offset gap s l ts
      subst hfront
      have hgapText := between_append front gap (l.raw ++ s)
      have hrawText := between_append (front ++ gap) l.raw s
      have htext : front ++ (gap ++ (l.raw ++ s)) = (front ++ (gap ++ l.raw)) ++ s := by simp
      have hne : l.raw ++ s ≠ [] := by simp [Lexeme.raw_ne_nil hshape]
      rcases ih (front ++ (gap ++ l.raw)) (by simp [Nat.add_assoc]) with ⟨hsits, hwhole⟩
      rw [← htext] at hsits hwhole
      rw [List.length_append, List.append_assoc] at hrawText
      refine ⟨List.forall_mem_cons.mpr ⟨⟨hrawText, Nat.le_add_right _ _, ?_, ?_⟩, hsits⟩, ?_⟩
      · rcases hgap.isFilled with ⟨comments, last, hgap, hall, hlast⟩
        exact ⟨comments, last, hgapText.trans hgap, hall,
          Or.inl (hlast.resolve_right fun h => hne h.1)⟩
      · change (!gap.isEmpty) = true ↔ between _ front.length (front.length + gap.length) ≠ []
        rw [hgapText]
        simp
      · rw [placed, List.flatMap_cons]
        change _ = (between _ front.length (front.length + gap.length) ++ l.raw) ++ _
        rw [hgapText, List.append_assoc]
        exact congrArg (gap ++ ·) (congrArg (l.raw ++ ·) hwhole)

theorem exists_placed {t : Token} (start : Nat) (h : t ∈ ts) :
    ∃ before, (before, t) ∈ placed start ts := by
  induction ts generalizing start with
  | nil => cases h
  | cons u ts ih =>
      rcases List.mem_cons.mp h with rfl | h
      · exact ⟨start, List.mem_cons_self⟩
      · rcases ih u.stop h with ⟨before, hmem⟩
        exact ⟨before, List.mem_cons_of_mem _ hmem⟩

/-- Reading a text as tokens loses nothing of it. -/
theorem lossless_tokenize (s : Bytes) : Lossless s (tokenize s) := by
  have hlaid := laid_tokenize s
  have hending := ending_of_laid hlaid
  rw [Nat.zero_add] at hending
  rcases sits_of_laid hlaid [] rfl with ⟨hsits, hwhole⟩
  refine ⟨hending, ?_, order_of_laid hlaid, ?_, fun p hp => (hsits p hp).mark, hwhole⟩
  · intro t ht
    rcases exists_placed 0 ht with ⟨before, hmem⟩
    exact (hsits _ hmem).raw
  · exact fun p hp => ⟨(hsits p hp).start_le, (hsits p hp).gap⟩

end Token
end StyleTrim
