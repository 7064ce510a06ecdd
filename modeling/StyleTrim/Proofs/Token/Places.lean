import StyleTrim.Token.Stream
import StyleTrim.Token.Written

/-!
# Where tokens stand

The offset of a token says where it stands in its text, and nothing else in the token depends on
that. A text that stands further behind has the same tokens, moved.
-/

namespace StyleTrim
namespace Token

/-- The token, so many bytes further behind. -/
def moved (n : Nat) (t : Token) : Token :=
  { t with offset := t.offset + n }

variable (n : Nat) (t : Token)

@[simp] theorem moved_kind : (t.moved n).kind = t.kind :=
  rfl

@[simp] theorem moved_value : (t.moved n).value = t.value :=
  rfl

@[simp] theorem moved_raw : (t.moved n).raw = t.raw :=
  rfl

@[simp] theorem moved_isDelim (b : UInt8) : (t.moved n).isDelim b = t.isDelim b :=
  rfl

@[simp] theorem moved_isBad : (t.moved n).isBad = t.isBad :=
  rfl

theorem moved_ofLexeme (l : Lexeme) (offset : Nat) (afterComment : Bool) :
    (ofLexeme l offset afterComment).moved n = ofLexeme l (offset + n) afterComment :=
  rfl

theorem streamFrom_moved (offset : Nat) (s : Bytes) :
    streamFrom (offset + n) s = (streamFrom offset s).map (moved n) := by
  induction hlength : s.length using Nat.strongRecOn generalizing offset s with
  | ind length ih =>
    cases hgap : (Reader.comment.scan s).rest with
    | nil =>
        rw [streamFrom_nil _ hgap, streamFrom_nil _ hgap, List.map_singleton, endAt, endAt,
          moved_ofLexeme, Nat.add_right_comm]
    | cons b rest =>
        have hrest := ih _ (hlength ▸ rest_length_lt hgap) (offset +
          (Reader.comment.scan s).raw.length + (Lexeme.read b rest).1.raw.length) _ rfl
        rw [streamFrom_cons _ hgap, streamFrom_cons _ hgap, List.map_cons, moved_ofLexeme, ← hrest,
          Nat.add_right_comm offset, Nat.add_right_comm _ n]

theorem streamFrom_eq_map (offset : Nat) (s : Bytes) :
    streamFrom offset s = (tokenize s).map (moved offset) := by
  rw [tokenize, ← streamFrom_moved, Nat.zero_add]

theorem body_map (ts : List Token) : body (ts.map (moved n)) = (body ts).map (moved n) := by
  induction ts with
  | nil => rfl
  | cons t ts ih =>
      rw [body, body, List.map_cons, List.takeWhile_cons, List.takeWhile_cons, ← body, ← body, ih]
      cases hend : t.kind != .endOfText <;> simp [hend]

theorem forall_mem_streamFrom {s : Bytes} {p : Token -> Prop} (hp : ∀ t, p t -> p (t.moved n))
    (h : ∀ t ∈ tokenize s, p t) : ∀ t ∈ streamFrom n s, p t := by
  rw [streamFrom_eq_map, List.forall_mem_map]
  exact fun t ht => hp t (h t ht)

theorem forall_mem_body {s : Bytes} {p : Token -> Prop} (hp : ∀ t, p t -> p (t.moved n))
    (h : ∀ t ∈ body (tokenize s), p t) : ∀ t ∈ body (streamFrom n s), p t := by
  rw [streamFrom_eq_map, body_map, List.forall_mem_map]
  exact fun t ht => hp t (h t ht)

/-!
## Moved tokens are written alike
-/

theorem writeAfter_moved (place : Place) (last : Option Token) (space : Bool) (ts : List Token) :
    writeAfter place (last.map (moved n)) space (ts.map (moved n)) =
      writeAfter place last space ts := by
  induction ts generalizing last space with
  | nil => rfl
  | cons t ts ih =>
      have hsilent : (t.moved n).isSilent = t.isSilent := rfl
      have hclosed : (t.moved n).closedText = t.closedText := rfl
      have hnext := ih (some t) false
      rw [Option.map_some] at hnext
      simp only [List.map_cons, writeAfter, hsilent, hclosed, moved_kind, ih, hnext]
      cases last with
      | none => rfl
      | some left => rfl

theorem owed_moved (ts : List Token) : owed (ts.map (moved n)) = owed ts := by
  rw [owed, List.foldl_map]
  rfl

theorem write_moved (place : Place) (ts : List Token) :
    write place (ts.map (moved n)) = write place ts := by
  rw [write, owed_moved, write]
  exact congrArg (· ++ owed ts) (writeAfter_moved n place none false ts)

end Token
end StyleTrim
