import StyleTrim.Proofs.Sanitize.Matching
import StyleTrim.Proofs.Token.Shape

/-!
# What patterns take

The texts that the patterns take, part by part: a word with blanks and a mark behind it, an address
with its scheme, in quotes or not, and an import with its script.
-/

namespace StyleTrim
namespace Pattern

open Lexeme

/-!
## Parts
-/

theorem Part.take?_word {f w : Bytes} (h : lower f = w) (x : Bytes) :
    Part.take? (.word w) (f ++ x) = some (f, x) := by
  have hlength : w.length = f.length := by rw [← h, length_lower]
  rw [Part.take?, dropWord?_append h, Option.map_some, hlength, List.take_left]

theorem Part.take?_blanks {x y : Bytes} (hx : x.all Byte.isBlank = true)
    (hstop : ∀ b ∈ y.head?, Byte.isBlank b = false) :
    Part.take? .blanks (x ++ y) = some (x, y) := by
  rw [Part.take?, takeWhile_append_of_stop hx hstop, dropWhile_append_of_stop hx hstop]

theorem Part.take?_quote {x y : Bytes} (hx : x = [] ∨ ∃ q, x = [q] ∧ Byte.isQuote q = true)
    (hstop : ∀ b ∈ y.head?, Byte.isQuote b = false) :
    Part.take? .quote (x ++ y) = some (x, y) := by
  rcases hx with rfl | ⟨q, rfl, hq⟩
  · cases y with
    | nil => rfl
    | cons b y => simp [Part.take?, hstop b rfl]
  · simp [Part.take?, hq]

theorem takeParts?_cons_of {part : Part} {parts : List Part} {s first after more rest : Bytes}
    (hfirst : part.take? s = some (first, after))
    (hmore : takeParts? parts after = some (more, rest)) :
    takeParts? (part :: parts) s = some (first ++ more, rest) := by
  rw [takeParts?, hfirst]
  simp [hmore]

theorem takeParts?_word {f w : Bytes} (h : lower f = w) (x : Bytes) :
    takeParts? [.word w] (f ++ x) = some (f, x) := by
  simp [takeParts?, Part.take?_word h x]

/-!
## Schemes
-/

theorem plain_of_letter {b : UInt8} (h : Byte.isLower (Byte.toLower b) = true) :
    Byte.isBlank b = false ∧ Byte.isQuote b = false := by
  constructor
  · rw [Bool.eq_false_iff]
    intro hblank
    rcases Byte.isBlank_cases hblank with rfl | rfl | rfl | rfl | rfl | rfl <;> cases h
  · rw [Bool.eq_false_iff]
    intro hquote
    rcases Byte.isQuote_cases hquote with rfl | rfl <;> cases h

theorem plain_of_scheme {scheme f : Bytes} (hscheme : scheme = scriptScheme ∨ scheme = pageScheme)
    (h : lower f = scheme) (x : Bytes) :
    ∀ b ∈ (f ++ x).head?, Byte.isBlank b = false ∧ Byte.isQuote b = false := by
  have hletter : scheme.head?.all Byte.isLower = true := by
    rcases hscheme with rfl | rfl <;> decide
  have hne : scheme ≠ [] := by
    rcases hscheme with rfl | rfl <;> decide
  subst h
  cases f with
  | nil => exact absurd rfl hne
  | cons c f =>
      intro b hb
      cases hb
      exact plain_of_letter hletter

/-!
## Patterns
-/

theorem take?_marked {p : Pattern} {m : UInt8} (hparts : p.parts = [.blanks, .word [m]])
    (hblank : Byte.isBlank m = false) (hmark : Byte.toLower m = m) (before : Option UInt8)
    {word : Bytes} (gap : Bytes) (hfront : (p.wholeWord && inWord before) = false)
    (hword : lower word = p.opening) (hgap : gap.all Byte.isBlank = true) (rest : Bytes) :
    p.take? before ((word ++ (gap ++ [m])) ++ rest) = some (word ++ (gap ++ [m]), rest) := by
  have hlast : takeParts? [.word [m]] (m :: rest) = some ([m], rest) :=
    takeParts?_word (f := [m]) (by simp [lower, hmark]) rest
  have hblanks : takeParts? [.blanks, .word [m]] (gap ++ m :: rest) = some (gap ++ [m], rest) :=
    takeParts?_cons_of (Part.take?_blanks hgap (by simp [hblank])) hlast
  refine take?_eq_some.mpr ⟨hfront, ?_⟩
  rw [hparts]
  simpa using takeParts?_cons_of (Part.take?_word hword (gap ++ m :: rest)) hblanks

theorem take?_address {scheme : Bytes} (hscheme : scheme = scriptScheme ∨ scheme = pageScheme)
    (before : Option UInt8) {word gap quote f : Bytes} (hword : lower word = ascii "url")
    (hgap : gap.all Byte.isBlank = true)
    (hquote : quote = [] ∨ ∃ q, quote = [q] ∧ Byte.isQuote q = true)
    (hf : lower f = scheme) (rest : Bytes) :
    (addressWith scheme).take? before ((word ++ 0x28 :: (gap ++ (quote ++ f))) ++ rest) =
      some (word ++ 0x28 :: (gap ++ (quote ++ f)), rest) := by
  have hplain := plain_of_scheme hscheme hf rest
  have hquoted := takeParts?_cons_of
    (Part.take?_quote hquote fun b hb => (hplain b hb).2) (takeParts?_word hf rest)
  have hargument := takeParts?_cons_of (Part.take?_blanks hgap (y := quote ++ (f ++ rest)) (by
    intro b hb
    rcases hquote with rfl | ⟨q, rfl, hq⟩
    · exact (hplain b hb).1
    · cases hb
      rcases Byte.isQuote_cases hq with rfl | rfl <;> decide)) hquoted
  have hparen := takeParts?_cons_of
    (Part.take?_word (f := [0x28]) (w := ascii "(") (by decide) (gap ++ (quote ++ (f ++ rest))))
    hargument
  have hblanks := takeParts?_cons_of
    (Part.take?_blanks (x := []) rfl (y := [0x28] ++ (gap ++ (quote ++ (f ++ rest)))) (by
      intro b hb
      cases hb
      decide)) hparen
  refine take?_eq_some.mpr ⟨rfl, ?_⟩
  simpa [addressWith] using takeParts?_cons_of (Part.take?_word hword _) hblanks

theorem take?_scriptImport (before : Option UInt8) {word gap f : Bytes} {q : UInt8}
    (hword : lower word = ascii "@import") (hne : gap ≠ []) (hgap : gap.all Byte.isBlank = true)
    (hquote : Byte.isQuote q = true) (hf : lower f = scriptScheme) (rest : Bytes) :
    scriptImport.take? before ((word ++ (gap ++ q :: f)) ++ rest) =
      some (word ++ (gap ++ q :: f), rest) := by
  have hplain := plain_of_scheme (Or.inl rfl) hf rest
  have hquoted := takeParts?_cons_of (Part.take?_quote (x := [q])
    (Or.inr ⟨q, rfl, hquote⟩) fun b hb => (hplain b hb).2) (takeParts?_word hf rest)
  rcases List.exists_cons_of_ne_nil hne with ⟨c, gap', rfl⟩
  rw [List.all_cons, Bool.and_eq_true] at hgap
  have hblanks := takeParts?_cons_of (Part.take?_blanks hgap.2 (y := [q] ++ (f ++ rest)) (by
    intro b hb
    cases hb
    rcases Byte.isQuote_cases hquote with rfl | rfl <;> decide)) hquoted
  have hblank : Part.take? .blank (c :: (gap' ++ ([q] ++ (f ++ rest)))) =
      some ([c], gap' ++ ([q] ++ (f ++ rest))) := by
    simp [Part.take?, hgap.1]
  refine take?_eq_some.mpr ⟨rfl, ?_⟩
  have hgaps := takeParts?_cons_of hblank hblanks
  simpa [scriptImport] using takeParts?_cons_of (Part.take?_word hword _) hgaps

end Pattern
end StyleTrim
