import StyleTrim.Proofs.Token.Places
import StyleTrim.Proofs.Token.Rewritten

/-!
# Closed tokens keep to themselves

A string or an address that its text broke off is closed before anything is written behind it. The
closed token is read first, with just the text that was written for it, and what stands behind it is
read as if it stood alone.
-/

namespace StyleTrim
namespace Token

open Lexeme

/-- The token breaks off: a string where its line ends, or a string or an address where the text
ends. -/
def BreaksOff (t : Token) : Prop :=
  t.kind = .badString ∨
    (t.unterminated = true ∧ (t.kind = .string ∨ t.kind = .url ∨ t.kind = .badUrl))

/-- What the token `t` may be once it is closed. An address may turn out to be a good one: that is
so when nothing but a backslash at its end was bad about it. -/
structure SealsAs (t u : Token) : Prop where
  string : t.kind = .string ∨ t.kind = .badString -> u.kind = .string
  url : t.kind = .url -> u.kind = .url
  badUrl : t.kind = .badUrl -> u.kind = .url ∨ u.kind = .badUrl

variable {t u : Token}

theorem isOpen_of_breaksOff (h : t.BreaksOff) : t.isOpen = true := by
  rcases h with hkind | ⟨hopen, hkind | hkind | hkind⟩
  · simp [isOpen, isOpenString, hkind]
  · simp [isOpen, isOpenString, hkind, hopen]
  · simp [isOpen, isOpenAddress, hkind, hopen]
  · simp [isOpen, isOpenAddress, hkind, hopen]

theorem kind_ne_endOfText_of_breaksOff (h : t.BreaksOff) : t.kind ≠ .endOfText := by
  rcases h with hkind | ⟨_, hkind | hkind | hkind⟩ <;> simp [hkind]

theorem sealsAs_of_closesAs (h : t.BreaksOff) (hkind : t.ClosesAs u.kind) : t.SealsAs u := by
  rcases h with hbad | ⟨hopen, hstring | hurl | hbad⟩
  · have hclosed : u.kind = .string := by simpa [ClosesAs, isOpenString, hbad] using hkind
    constructor <;> simp [hbad, hclosed]
  · have hclosed : u.kind = .string := by
      simpa [ClosesAs, isOpenString, hstring, hopen] using hkind
    constructor <;> simp [hstring, hclosed]
  · have hclosed : u.kind = .url := by
      simpa [ClosesAs, isOpenString, isOpenAddress, hurl, hopen] using hkind
    constructor <;> simp [hurl, hclosed]
  · have hclosed : u.kind = .url ∨ u.kind = .badUrl := by
      simpa [ClosesAs, isOpenString, isOpenAddress, hbad, hopen] using hkind
    constructor <;> simp [hbad, hclosed]

theorem exists_shape_of_mem {x : Bytes} (ht : t ∈ tokenize x) (hkind : t.kind ≠ .endOfText) :
    ∃ s, Shape t.lexeme s := by
  rcases laid_body (laid_tokenize x) with ⟨e, htokens, he⟩
  rw [htokens, List.mem_append, List.mem_singleton] at ht
  rcases ht with hbody | rfl
  · exact (lexed_tokenize x).exists_shape t hbody
  · exact absurd he hkind

theorem tokenize_of_stands {l : Lexeme} {s : Bytes} (h : Stands l s) :
    tokenize (l.raw ++ s) = ofLexeme l 0 false :: (tokenize s).map (moved l.raw.length) := by
  rw [tokenize, streamFrom_of_stands 0 h, streamFrom_eq_map, Nat.zero_add]

theorem raw_kept_of_isOpen (hopen : t.isOpen = true) :
    t.raw <+: t.closedText ∨ ∃ kept, t.raw = kept ++ [0x5C] ∧ kept <+: t.closedText := by
  rw [isOpen] at hopen
  rw [closedText, if_pos hopen]
  dsimp only
  split
  · rename_i hlone
    right
    rcases List.eq_nil_or_concat t.raw with hnil | ⟨kept, b, hraw⟩
    · rw [hnil] at hlone
      cases hlone
    · rw [List.concat_eq_append] at hraw
      rw [hraw, endsInLoneBackslash_concat, Bool.and_eq_true, beq_iff_eq] at hlone
      rw [hraw, hlone.1, List.dropLast_concat]
      exists kept
      constructor
      · rfl
      · exact List.prefix_append _ _
  · left
    exact List.prefix_append _ _

/-- However a token breaks off, its closed text is one token in front of every text, and takes
nothing of it. -/
theorem tokenize_closedText {x : Bytes} (ht : t ∈ tokenize x) (hbreaks : t.BreaksOff) (s : Bytes) :
    (t.raw <+: t.closedText ∨ ∃ kept, t.raw = kept ++ [0x5C] ∧ kept <+: t.closedText) ∧
      ∃ u, tokenize (t.closedText ++ s) = u :: (tokenize s).map (moved t.closedText.length) ∧
        u.raw = t.closedText ∧ u.unterminated = false ∧ t.SealsAs u := by
  have hopen := isOpen_of_breaksOff hbreaks
  rcases exists_shape_of_mem ht (kind_ne_endOfText_of_breaksOff hbreaks) with ⟨after, hshape⟩
  rcases becomes_of_shape hshape with ⟨l, hl⟩
  have hread := tokenize_of_stands (stands_of_isOpen hl hshape hopen s)
  rw [hl.raw] at hread
  constructor
  · exact raw_kept_of_isOpen hopen
  · exists ofLexeme l 0 false
    constructor
    · exact hread
    · constructor
      · exact hl.raw
      · constructor
        · exact hl.closed.1
        · exact sealsAs_of_closesAs hbreaks hl.kind

def cutString : Token where
  kind := .string
  value := ascii "c\\"
  raw := ascii "\"c\\\\\\"
  offset := 4
  afterComment := false
  unterminated := true

theorem tokenize_closedText_of_cutString :
    cutString ∈ tokenize (ascii "a\x7bb:\"c\\\\\\") ∧ cutString.BreaksOff ∧
      ∃ u, tokenize (ascii "\"c\\\\\"" ++ ascii "\"d") =
          u :: (tokenize (ascii "\"d")).map (moved 5) ∧
        u.raw = ascii "\"c\\\\\"" ∧ u.unterminated = false ∧ cutString.SealsAs u := by
  have hmem : cutString ∈ tokenize (ascii "a\x7bb:\"c\\\\\\") := by decide +kernel
  have hbreaks : cutString.BreaksOff := by simp [BreaksOff, cutString]
  exact ⟨hmem, hbreaks, (tokenize_closedText hmem hbreaks (ascii "\"d")).2⟩

end Token
end StyleTrim
