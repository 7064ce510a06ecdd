import StyleTrim.Text.Utf8

/-!
# Reading text piece by piece

Comments, names, strings and addresses are read in the same way: as long as a reader finds a
piece at the front of the text, the piece is taken. A piece is a plain byte or an escape, and
brings the text it was read from together with the bytes it stands for. A reader promises that
the text of a piece is not empty and is what it takes from the front, so the reading ends and
nothing is lost.
-/

namespace StyleTrim

structure Piece where
  raw : Bytes
  value : Bytes

/-- A byte that stands for itself. -/
def Piece.plain (b : UInt8) : Piece :=
  ⟨[b], [b]⟩

structure PieceReader where
  read : Bytes -> Option (Piece × Bytes)
  raw_append : ∀ {s p rest}, read s = some (p, rest) -> p.raw ++ rest = s
  raw_ne_nil : ∀ {s p rest}, read s = some (p, rest) -> p.raw ≠ []

/-- What was read from a text: the bytes it stands for, its text, and the text after it. -/
structure Scan where
  value : Bytes
  raw : Bytes
  rest : Bytes

namespace PieceReader

theorem rest_length_lt (R : PieceReader) {s rest : Bytes} {p : Piece}
    (h : R.read s = some (p, rest)) : rest.length < s.length := by
  have happ := R.raw_append h
  have hne := R.raw_ne_nil h
  rw [← happ, List.length_append]
  have := List.length_pos_iff.mpr hne
  omega

def collect (R : PieceReader) (s : Bytes) (taken : List Piece) : List Piece × Bytes :=
  match _h : R.read s with
  | none => (taken, s)
  | some (p, rest) => R.collect rest (p :: taken)
termination_by s.length
decreasing_by exact R.rest_length_lt (by assumption)

/-- Reads pieces until the reader finds none. -/
def scan (R : PieceReader) (s : Bytes) : Scan :=
  let found := R.collect s []
  let pieces := found.1.reverse
  { value := pieces.flatMap Piece.value, raw := pieces.flatMap Piece.raw, rest := found.2 }

/-!
The two equations of `scan` are the way in which it is used from here on.
-/

theorem collect_none (R : PieceReader) {s : Bytes} (taken : List Piece) (h : R.read s = none) :
    R.collect s taken = (taken, s) := by
  rw [collect]
  split
  · rfl
  · rename_i h'
    rw [h] at h'
    cases h'

theorem collect_some (R : PieceReader) {s rest : Bytes} {p : Piece} (taken : List Piece)
    (h : R.read s = some (p, rest)) : R.collect s taken = R.collect rest (p :: taken) := by
  rw [collect]
  split
  · rename_i h'
    rw [h] at h'
    cases h'
  · rename_i h'
    rw [h] at h'
    cases h'
    rfl

theorem collect_eq (R : PieceReader) (s : Bytes) (taken : List Piece) :
    R.collect s taken = ((R.collect s []).1 ++ taken, (R.collect s []).2) := by
  induction hn : s.length using Nat.strongRecOn generalizing s taken with
  | ind n ih =>
    cases h : R.read s with
    | none => simp [collect_none R _ h]
    | some found =>
        obtain ⟨p, rest⟩ := found
        have hlt := R.rest_length_lt h
        rw [collect_some R taken h, collect_some R [] h,
          ih rest.length (hn ▸ hlt) rest (p :: taken) rfl,
          ih rest.length (hn ▸ hlt) rest [p] rfl]
        simp

theorem scan_none (R : PieceReader) {s : Bytes} (h : R.read s = none) :
    R.scan s = ⟨[], [], s⟩ := by
  simp [scan, collect_none R _ h]

theorem scan_some (R : PieceReader) {s rest : Bytes} {p : Piece}
    (h : R.read s = some (p, rest)) :
    R.scan s =
      ⟨p.value ++ (R.scan rest).value, p.raw ++ (R.scan rest).raw, (R.scan rest).rest⟩ := by
  simp [scan, collect_some R _ h, collect_eq R rest [p]]

/-- Nothing is lost: the text read and the text after it make up the whole. -/
theorem scan_raw_append (R : PieceReader) (s : Bytes) :
    (R.scan s).raw ++ (R.scan s).rest = s := by
  induction hn : s.length using Nat.strongRecOn generalizing s with
  | ind n ih =>
    cases h : R.read s with
    | none => simp [scan_none R h]
    | some found =>
        obtain ⟨p, rest⟩ := found
        have hlt := R.rest_length_lt h
        rw [scan_some R h, List.append_assoc, ih rest.length (hn ▸ hlt) rest rfl]
        exact R.raw_append h

/-- Nothing more can be read: the reader finds no piece in the text that is left. -/
theorem read_scan_rest (R : PieceReader) (s : Bytes) : R.read (R.scan s).rest = none := by
  induction hn : s.length using Nat.strongRecOn generalizing s with
  | ind n ih =>
    cases h : R.read s with
    | none => simp [scan_none R h, h]
    | some found =>
        obtain ⟨p, rest⟩ := found
        have hlt := R.rest_length_lt h
        rw [scan_some R h]
        exact ih rest.length (hn ▸ hlt) rest rfl

theorem scan_rest_length_le (R : PieceReader) (s : Bytes) :
    (R.scan s).rest.length ≤ s.length := by
  have h := congrArg List.length (R.scan_raw_append s)
  rw [List.length_append] at h
  omega

end PieceReader
end StyleTrim
