import StyleTrim.Token.Lexeme

/-!
# Token streams

`tokenize` reads a whole text. Comments are no tokens: they are skipped before each lexeme and
leave only the mark that the next token stands after one.
-/

namespace StyleTrim
namespace Token

/-- Puts a lexeme in its place. -/
def ofLexeme (l : Lexeme) (offset : Nat) (afterComment : Bool) : Token :=
  { kind := l.kind
    value := l.value
    raw := l.raw
    offset := offset
    afterComment := afterComment
    unterminated := l.unterminated }

/-- The token behind the last byte of the text. -/
def endAt (offset : Nat) (afterComment : Bool) : Token :=
  ofLexeme (.verbatim .endOfText []) offset afterComment

def collect (offset : Nat) (s : Bytes) (taken : List Token) : List Token :=
  let gap := Reader.comment.scan s
  let start := offset + gap.raw.length
  let afterComment := !gap.raw.isEmpty
  match _h : gap.rest with
  | [] => (endAt start afterComment :: taken).reverse
  | b :: rest =>
      let found := Lexeme.read b rest
      collect (start + found.1.raw.length) found.2
        (ofLexeme found.1 start afterComment :: taken)
termination_by s.length
decreasing_by
  have hgap : gap.rest.length ≤ s.length := Reader.comment.scan_rest_length_le s
  have hread := Lexeme.read_rest_length b rest
  rw [← _h] at hread
  exact Nat.lt_of_lt_of_le hread hgap

/-- The tokens of the text that begins at an offset. -/
def streamFrom (offset : Nat) (s : Bytes) : List Token :=
  collect offset s []

/-- All tokens of a text, the end of the text last. -/
def tokenize (s : Bytes) : List Token :=
  streamFrom 0 s

def first (s : Bytes) : Token :=
  let gap := Reader.comment.scan s
  match gap.rest with
  | [] => endAt gap.raw.length (!gap.raw.isEmpty)
  | b :: rest => ofLexeme (Lexeme.read b rest).1 gap.raw.length (!gap.raw.isEmpty)

/-- The tokens before the end of the text. -/
def body (ts : List Token) : List Token :=
  ts.takeWhile fun t => t.kind != .endOfText

/-!
The stream is described by two equations, one for each way in which the skipping of comments
can end.
-/

theorem collect_nil {s : Bytes} (offset : Nat) (taken : List Token)
    (h : (Reader.comment.scan s).rest = []) :
    collect offset s taken =
      (endAt (offset + (Reader.comment.scan s).raw.length)
        (!(Reader.comment.scan s).raw.isEmpty) :: taken).reverse := by
  rw [collect]
  simp only
  split
  · rfl
  · rename_i h'
    rw [h] at h'
    cases h'

theorem collect_cons {s rest : Bytes} {b : UInt8} (offset : Nat) (taken : List Token)
    (h : (Reader.comment.scan s).rest = b :: rest) :
    collect offset s taken =
      collect (offset + (Reader.comment.scan s).raw.length + (Lexeme.read b rest).1.raw.length)
        (Lexeme.read b rest).2
        (ofLexeme (Lexeme.read b rest).1 (offset + (Reader.comment.scan s).raw.length)
          (!(Reader.comment.scan s).raw.isEmpty) :: taken) := by
  rw [collect]
  simp only
  split
  · rename_i h'
    rw [h] at h'
    cases h'
  · rename_i h'
    rw [h] at h'
    cases h'
    rfl

theorem rest_length_lt {s rest : Bytes} {b : UInt8}
    (h : (Reader.comment.scan s).rest = b :: rest) :
    (Lexeme.read b rest).2.length < s.length := by
  have hgap := Reader.comment.scan_rest_length_le s
  have hread := Lexeme.read_rest_length b rest
  rw [h] at hgap
  omega

theorem collect_eq (offset : Nat) (s : Bytes) (taken : List Token) :
    collect offset s taken = taken.reverse ++ streamFrom offset s := by
  unfold streamFrom
  induction hn : s.length using Nat.strongRecOn generalizing offset s taken with
  | ind n ih =>
    cases hgap : (Reader.comment.scan s).rest with
    | nil => simp [collect_nil _ _ hgap]
    | cons b rest =>
        have hlt := rest_length_lt hgap
        rw [collect_cons offset taken hgap, collect_cons offset [] hgap,
          ih _ (hn ▸ hlt) _ _ _ rfl]
        conv => rhs; rw [ih _ (hn ▸ hlt) _ _ _ rfl]
        simp

theorem streamFrom_nil {s : Bytes} (offset : Nat) (h : (Reader.comment.scan s).rest = []) :
    streamFrom offset s =
      [endAt (offset + (Reader.comment.scan s).raw.length)
        (!(Reader.comment.scan s).raw.isEmpty)] := by
  rw [streamFrom, collect_nil _ _ h]
  rfl

theorem streamFrom_cons {s rest : Bytes} {b : UInt8} (offset : Nat)
    (h : (Reader.comment.scan s).rest = b :: rest) :
    streamFrom offset s =
      ofLexeme (Lexeme.read b rest).1 (offset + (Reader.comment.scan s).raw.length)
          (!(Reader.comment.scan s).raw.isEmpty) ::
        streamFrom
          (offset + (Reader.comment.scan s).raw.length + (Lexeme.read b rest).1.raw.length)
          (Lexeme.read b rest).2 := by
  rw [streamFrom, collect_cons _ _ h, collect_eq]
  rfl

end Token
end StyleTrim
