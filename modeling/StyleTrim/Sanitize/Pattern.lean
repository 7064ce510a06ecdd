import StyleTrim.Text.Word

/-!
# Dangerous patterns

Some constructs of style sheets run scripts or load whole documents. Here they are found in plain
text, whatever the case of their letters. A pattern is an opening word and parts that follow one
another; no part begins with what the part before it could still take, so matching needs no
search.
-/

namespace StyleTrim

namespace Pattern

/-- What a part takes: a word, exactly one blank, as many blanks as there are, or a quote of either
kind if there is one. -/
inductive Part where
  | word (letters : Bytes)
  | blank
  | blanks
  | quote

def Part.take? : Part -> Bytes -> Option (Bytes × Bytes)
  | .word letters, s => (dropWord? letters s).map fun rest => (s.take letters.length, rest)
  | .blank, s =>
      match s with
      | [] => none
      | b :: rest => if Byte.isBlank b then some ([b], rest) else none
  | .blanks, s => some (s.takeWhile Byte.isBlank, s.dropWhile Byte.isBlank)
  | .quote, s =>
      match s with
      | [] => some ([], [])
      | b :: rest => if Byte.isQuote b then some ([b], rest) else some ([], b :: rest)

def takeParts? : List Part -> Bytes -> Option (Bytes × Bytes)
  | [], s => some ([], s)
  | part :: parts, s =>
      match part.take? s with
      | none => none
      | some (found, rest) =>
          (takeParts? parts rest).map fun more => (found ++ more.1, more.2)

end Pattern

/-- A word and the parts behind it. Where whole words are asked for, the opening must not be the
end of a longer one. -/
structure Pattern where
  opening : Bytes
  parts : List Pattern.Part
  wholeWord : Bool

namespace Pattern

/-!
## The patterns
-/

def scriptScheme : Bytes :=
  ascii "javascript:"

def pageScheme : Bytes :=
  ascii "data:text/html"

def expression : Pattern :=
  { opening := ascii "expression"
    parts := [.blanks, .word (ascii "(")]
    wholeWord := true }

def behavior : Pattern :=
  { opening := ascii "behavior"
    parts := [.blanks, .word (ascii ":")]
    wholeWord := true }

def binding : Pattern :=
  { opening := ascii "-moz-binding"
    parts := [.blanks, .word (ascii ":")]
    wholeWord := false }

def addressWith (scheme : Bytes) : Pattern :=
  { opening := ascii "url"
    parts := [.blanks, .word (ascii "("), .blanks, .quote, .word scheme]
    wholeWord := false }

def scriptImport : Pattern :=
  { opening := ascii "@import"
    parts := [.blank, .blanks, .quote, .word scriptScheme]
    wholeWord := false }

def dangerous : List Pattern :=
  [expression, behavior, binding, addressWith scriptScheme, addressWith pageScheme, scriptImport]

/-!
## Matching
-/

def isWordByte (b : UInt8) : Bool :=
  Byte.isAlnum b || b == 0x2D || b == 0x5F

def take? (p : Pattern) (before : Option UInt8) (s : Bytes) : Option (Bytes × Bytes) :=
  if p.wholeWord && before.any isWordByte then none
  else takeParts? (.word p.opening :: p.parts) s

/-- The dangerous construct at the front of a text that follows the byte `before`, and the text
after it. -/
def matchAt? (before : Option UInt8) (s : Bytes) : Option (Bytes × Bytes) :=
  dangerous.findSome? fun p => p.take? before s

/-!
A construct is the front of the text, and is never empty.
-/

theorem take_append_of_dropWord? {word s rest : Bytes} (h : dropWord? word s = some rest) :
    s.take word.length ++ rest = s := by
  induction word generalizing s with
  | nil =>
      cases s <;> simp_all [dropWord?]
  | cons w ws ih =>
      cases s with
      | nil => simp [dropWord?] at h
      | cons b s =>
          by_cases hb : Byte.toLower b = w
          · rw [dropWord?, if_pos hb] at h
            simp [ih h]
          · rw [dropWord?, if_neg hb] at h
            cases h

theorem Part.take?_append {part : Part} {s found rest : Bytes}
    (h : part.take? s = some (found, rest)) : found ++ rest = s := by
  unfold Part.take? at h
  split at h
  · obtain ⟨after, hdrop, heq⟩ := Option.map_eq_some_iff.mp h
    cases heq
    exact take_append_of_dropWord? hdrop
  · split at h
    · cases h
    · split at h <;> cases h
      rfl
  · cases h
    exact List.takeWhile_append_dropWhile
  · split at h
    · cases h
      rfl
    · split at h <;> cases h <;> rfl

theorem takeParts?_cons {part : Part} {parts : List Part} {s found rest : Bytes}
    (h : takeParts? (part :: parts) s = some (found, rest)) :
    ∃ first after more, part.take? s = some (first, after) ∧
      takeParts? parts after = some (more, rest) ∧ found = first ++ more := by
  unfold takeParts? at h
  split at h
  · cases h
  · rename_i first after hfirst
    obtain ⟨⟨more, last⟩, hmore, heq⟩ := Option.map_eq_some_iff.mp h
    cases heq
    exact ⟨first, after, more, hfirst, hmore, rfl⟩

theorem takeParts?_append {parts : List Part} {s found rest : Bytes}
    (h : takeParts? parts s = some (found, rest)) : found ++ rest = s := by
  induction parts generalizing s found rest with
  | nil =>
      cases h
      rfl
  | cons part parts ih =>
      obtain ⟨first, after, more, hfirst, hmore, rfl⟩ := takeParts?_cons h
      rw [List.append_assoc, ih hmore]
      exact Part.take?_append hfirst

theorem take?_append {p : Pattern} {before : Option UInt8} {s found rest : Bytes}
    (h : p.take? before s = some (found, rest)) : found ++ rest = s := by
  unfold take? at h
  split at h
  · cases h
  · exact takeParts?_append h

theorem opening_length_le {p : Pattern} {before : Option UInt8} {s found rest : Bytes}
    (h : p.take? before s = some (found, rest)) : p.opening.length ≤ found.length := by
  unfold take? at h
  split at h
  · cases h
  · obtain ⟨first, after, more, hfirst, _, rfl⟩ := takeParts?_cons h
    obtain ⟨tail, hdrop, heq⟩ := Option.map_eq_some_iff.mp hfirst
    cases heq
    have hlen := dropWord?_length hdrop
    simp only [List.length_append, List.length_take]
    omega

theorem opening_ne_nil : ∀ p ∈ dangerous, p.opening ≠ [] := by
  decide

theorem matchAt?_append {before : Option UInt8} {s found rest : Bytes}
    (h : matchAt? before s = some (found, rest)) : found ++ rest = s := by
  obtain ⟨p, _, hp⟩ := List.exists_of_findSome?_eq_some h
  exact take?_append hp

theorem matchAt?_ne_nil {before : Option UInt8} {s found rest : Bytes}
    (h : matchAt? before s = some (found, rest)) : found ≠ [] := by
  obtain ⟨p, hmem, hp⟩ := List.exists_of_findSome?_eq_some h
  have hopen := List.length_pos_iff.mpr (opening_ne_nil p hmem)
  have hle := opening_length_le hp
  exact List.length_pos_iff.mp (by omega)

theorem matchAt?_length {before : Option UInt8} {s found rest : Bytes}
    (h : matchAt? before s = some (found, rest)) : rest.length < s.length := by
  have happ := congrArg List.length (matchAt?_append h)
  have hne := List.length_pos_iff.mpr (matchAt?_ne_nil h)
  rw [List.length_append] at happ
  omega

end Pattern
end StyleTrim
