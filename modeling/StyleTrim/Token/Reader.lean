import StyleTrim.Token.Escape

/-!
# The readers

One reader for each stretch of text that is made of pieces: comments between tokens, names, the
inside of a string, the inside of an address, and what is skipped of an address that went wrong.
-/

namespace StyleTrim
namespace Reader

/-!
## Comments
-/

def commentBody : PieceReader where
  read
    | [] => none
    | 0x2A :: 0x2F :: _ => none
    | b :: s => some (.plain b, s)
  raw_append := by
    intro s p rest h
    split at h <;> simp_all
    obtain ⟨rfl, rfl⟩ := h
    rfl
  raw_ne_nil := by
    intro s p rest h
    split at h <;> simp_all
    obtain ⟨rfl, rfl⟩ := h
    simp [Piece.plain]

/-- A whole comment. One that is never closed runs to the end of the text. -/
def comment : PieceReader where
  read
    | 0x2F :: 0x2A :: s =>
        let body := commentBody.scan s
        some (⟨0x2F :: 0x2A :: (body.raw ++ body.rest.take 2), []⟩, body.rest.drop 2)
    | _ => none
  raw_append := by
    intro s p rest h
    split at h
    · rename_i s
      simp only [Option.some.injEq, Prod.mk.injEq] at h
      obtain ⟨rfl, rfl⟩ := h
      simp only [List.cons_append, List.append_assoc, List.take_append_drop]
      rw [commentBody.scan_raw_append]
    · cases h
  raw_ne_nil := by
    intro s p rest h
    split at h
    · simp only [Option.some.injEq, Prod.mk.injEq] at h
      obtain ⟨rfl, rfl⟩ := h
      simp
    · cases h

/-!
## Names
-/

/-- The pieces of a name: name bytes and escapes. -/
def name : PieceReader where
  read
    | [] => none
    | b :: s => if Byte.isName b then some (.plain b, s) else Escape.read (b :: s)
  raw_append := by
    intro s p rest h
    split at h
    · cases h
    · split at h
      · simp only [Option.some.injEq, Prod.mk.injEq] at h
        obtain ⟨rfl, rfl⟩ := h
        rfl
      · exact Escape.read_raw_append h
  raw_ne_nil := by
    intro s p rest h
    split at h
    · cases h
    · split at h
      · simp only [Option.some.injEq, Prod.mk.injEq] at h
        obtain ⟨rfl, rfl⟩ := h
        simp [Piece.plain]
      · exact Escape.read_raw_ne_nil h

theorem name_scan_raw_ne_nil {s : Bytes} (h : (name.read s).isSome) :
    (name.scan s).raw ≠ [] := by
  obtain ⟨⟨p, rest⟩, hread⟩ := Option.isSome_iff_exists.mp h
  rw [name.scan_some hread]
  simp [name.raw_ne_nil hread]

/-!
## Strings

A backslash before a line end continues the string on the next line and stands for nothing, and
so does a backslash that is the last byte of the text.
-/

/-- The pieces of a string: everything but its quote and a bare line feed. -/
def quoted (quote : UInt8) : PieceReader where
  read
    | [] => none
    | [0x5C] => some (⟨[0x5C], []⟩, [])
    | 0x5C :: 0x0A :: s => some (⟨[0x5C, 0x0A], []⟩, s)
    | 0x5C :: 0x0D :: 0x0A :: s => some (⟨[0x5C, 0x0D, 0x0A], []⟩, s)
    | b :: s =>
        if b = quote ∨ b = 0x0A then none
        else if b = 0x5C then Escape.read (b :: s)
        else some (.plain b, s)
  raw_append := by
    intro s p rest h
    split at h
    · cases h
    · simp only [Option.some.injEq, Prod.mk.injEq] at h
      obtain ⟨rfl, rfl⟩ := h
      rfl
    · simp only [Option.some.injEq, Prod.mk.injEq] at h
      obtain ⟨rfl, rfl⟩ := h
      rfl
    · simp only [Option.some.injEq, Prod.mk.injEq] at h
      obtain ⟨rfl, rfl⟩ := h
      rfl
    · split at h
      · cases h
      · split at h
        · exact Escape.read_raw_append h
        · simp only [Option.some.injEq, Prod.mk.injEq] at h
          obtain ⟨rfl, rfl⟩ := h
          rfl
  raw_ne_nil := by
    intro s p rest h
    split at h
    · cases h
    · simp only [Option.some.injEq, Prod.mk.injEq] at h
      obtain ⟨rfl, rfl⟩ := h
      simp
    · simp only [Option.some.injEq, Prod.mk.injEq] at h
      obtain ⟨rfl, rfl⟩ := h
      simp
    · simp only [Option.some.injEq, Prod.mk.injEq] at h
      obtain ⟨rfl, rfl⟩ := h
      simp
    · split at h
      · cases h
      · split at h
        · exact Escape.read_raw_ne_nil h
        · simp only [Option.some.injEq, Prod.mk.injEq] at h
          obtain ⟨rfl, rfl⟩ := h
          simp [Piece.plain]

/-!
## Addresses
-/

def endsAddress (b : UInt8) : Bool :=
  b == 0x29 || b == 0x28 || Byte.isSpace b || Byte.isQuote b || Byte.isNonPrintable b

def address : PieceReader where
  read
    | [] => none
    | b :: s =>
        if endsAddress b then none
        else if b = 0x5C then Escape.read (b :: s)
        else some (.plain b, s)
  raw_append := by
    intro s p rest h
    split at h
    · cases h
    · split at h
      · cases h
      · split at h
        · exact Escape.read_raw_append h
        · simp only [Option.some.injEq, Prod.mk.injEq] at h
          obtain ⟨rfl, rfl⟩ := h
          rfl
  raw_ne_nil := by
    intro s p rest h
    split at h
    · cases h
    · split at h
      · cases h
      · split at h
        · exact Escape.read_raw_ne_nil h
        · simp only [Option.some.injEq, Prod.mk.injEq] at h
          obtain ⟨rfl, rfl⟩ := h
          simp [Piece.plain]

/-- What is skipped of a bad address: everything up to the next closing parenthesis that no
backslash hides. -/
def remnant : PieceReader where
  read
    | [] => none
    | 0x5C :: c :: s =>
        if c = 0x0A then some (.plain 0x5C, c :: s) else some (⟨[0x5C, c], [c]⟩, s)
    | b :: s => if b = 0x29 then none else some (.plain b, s)
  raw_append := by
    intro s p rest h
    split at h
    · cases h
    · split at h <;>
      · simp only [Option.some.injEq, Prod.mk.injEq] at h
        obtain ⟨rfl, rfl⟩ := h
        rfl
    · split at h
      · cases h
      · simp only [Option.some.injEq, Prod.mk.injEq] at h
        obtain ⟨rfl, rfl⟩ := h
        rfl
  raw_ne_nil := by
    intro s p rest h
    split at h
    · cases h
    · split at h <;>
      · simp only [Option.some.injEq, Prod.mk.injEq] at h
        obtain ⟨rfl, rfl⟩ := h
        simp [Piece.plain]
    · split at h
      · cases h
      · simp only [Option.some.injEq, Prod.mk.injEq] at h
        obtain ⟨rfl, rfl⟩ := h
        simp [Piece.plain]

end Reader
end StyleTrim
