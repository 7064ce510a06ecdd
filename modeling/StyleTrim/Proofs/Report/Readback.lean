import StyleTrim.Proofs.Report.Reader
import StyleTrim.Proofs.Text.Decimals
import StyleTrim.Proofs.Token.Numerals
import StyleTrim.Report.Report

/-!
# Reports read back

What is written for a JSON value is read as that value, whatever bytes its texts hold. Each piece of
the text is read on its own, with any text behind it; only a number asks that no byte follows which
it would take for its own. A comma or a new line follows every number, so the pieces join, and the
reports say what the results say.
-/

namespace StyleTrim
namespace Report

/-!
## Strings
-/

theorem readString?_plain {b : UInt8} (hquote : b ≠ 0x22) (hslash : b ≠ 0x5C) (hspace : ¬b < 0x20)
    (s : Bytes) :
    readString? (b :: s) = (readString? s).map fun found => (b :: found.1, found.2) := by
  rw [readString?, if_neg hquote, if_neg hslash, if_neg hspace]

theorem readString?_escape {s text rest : Bytes} (h : readEscape? s = some (text, rest)) :
    readString? (0x5C :: s) =
      (readString? rest).map fun found => (text ++ found.1, found.2) := by
  rw [readString?, if_neg (by decide), if_pos rfl]
  split
  · rename_i hnone
    rw [h] at hnone
    cases hnone
  · rename_i hsome
    rw [h] at hsome
    cases hsome
    rfl

theorem readString?_letter {c b : UInt8} (hletter : c ≠ 0x75) (h : escapedByte? c = some b)
    (s : Bytes) :
    readString? (0x5C :: c :: s) = (readString? s).map fun found => (b :: found.1, found.2) := by
  have hescape : readEscape? (c :: s) = some ([b], s) := by
    rw [readEscape?, if_neg hletter, h]
    rfl
  exact readString?_escape hescape

theorem hexValue_control {b : UInt8} (h : b < 0x20) :
    [0x30, 0x30, hexDigit (b / 16), hexDigit (b % 16)].all Byte.isHexDigit = true ∧
      hexValue [0x30, 0x30, hexDigit (b / 16), hexDigit (b % 16)] = b.toNat := by
  have hall : ∀ n < 0x20, let b := UInt8.ofNat n
      [0x30, 0x30, hexDigit (b / 16), hexDigit (b % 16)].all Byte.isHexDigit = true ∧
        hexValue [0x30, 0x30, hexDigit (b / 16), hexDigit (b % 16)] = b.toNat := by
    decide +kernel
  have hb := hall b.toNat h
  rw [UInt8.ofNat_toNat] at hb
  exact hb

theorem readEscape?_control {b : UInt8} (h : b < 0x20) (s : Bytes) :
    readEscape? (0x75 :: 0x30 :: 0x30 :: hexDigit (b / 16) :: hexDigit (b % 16) :: s) =
      some ([b], s) := by
  rcases hexValue_control h with ⟨hdigits, hvalue⟩
  have hsmall : b.toNat < 0x20 := h
  rw [readEscape?, if_pos rfl, readCharacter?, readUnit?, if_pos hdigits, hvalue]
  dsimp only
  rw [if_pos (Or.inl (by omega)), Utf8.encode, if_pos (by omega)]
  exact congrArg (fun c => some ([c], s)) UInt8.ofNat_toNat

theorem readString?_quoteByte (b : UInt8) (s : Bytes) :
    readString? (quoteByte b ++ s) = (readString? s).map fun found => (b :: found.1, found.2) := by
  unfold quoteByte
  split
  · exact readString?_letter (c := 0x22) (by decide) rfl s
  · exact readString?_letter (c := 0x5C) (by decide) rfl s
  · exact readString?_letter (c := 0x62) (by decide) rfl s
  · exact readString?_letter (c := 0x66) (by decide) rfl s
  · exact readString?_letter (c := 0x6E) (by decide) rfl s
  · exact readString?_letter (c := 0x72) (by decide) rfl s
  · exact readString?_letter (c := 0x74) (by decide) rfl s
  · rename_i hquote hslash _ _ _ _ _
    split
    · rename_i hcontrol
      exact readString?_escape (readEscape?_control hcontrol s)
    · rename_i hcontrol
      exact readString?_plain hquote hslash hcontrol s

theorem readString?_quote (text s : Bytes) :
    readString? (text.flatMap quoteByte ++ 0x22 :: s) = some (text, s) := by
  induction text with
  | nil => rw [List.flatMap_nil, List.nil_append, readString?, if_pos rfl]
  | cons b text ih =>
      rw [List.flatMap_cons, List.append_assoc, readString?_quoteByte, ih]
      rfl

/-!
## Numbers
-/

def endsNumber : Bytes -> Bool
  | [] => true
  | b :: _ => !(Byte.isDigit b || b == 0x2E || b == 0x65 || b == 0x45)

theorem isWhole_ofNat (n : Nat) : isWhole (Decimal.ofNat n) = true := by
  rcases Nat.eq_zero_or_pos n with rfl | hpos
  · rw [Decimal.ofNat]
    decide
  · have hhead := Decimal.head?_ofNat hpos
    have hne := Decimal.ofNat_ne_nil n
    simp [isWhole, hhead, hne]

theorem readMagnitude?_ofNat {s : Bytes} (h : endsNumber s = true) (negative : Bool) (n : Nat) :
    readMagnitude? negative (Decimal.ofNat n ++ s) =
      some (.number (if negative then -(n : Int) else n) 0, s) := by
  have hbounds : Numeral.startsWithDigit s = false ∧ Numeral.startsFraction s = false ∧
      Numeral.startsExponent s = false := by
    cases s with
    | nil => exact ⟨rfl, rfl, rfl⟩
    | cons b s =>
        simp only [endsNumber, Bool.not_eq_true', Bool.or_eq_false_iff, beq_eq_false_iff_ne] at h
        rcases h with ⟨⟨⟨hdigit, hpoint⟩, hsmall⟩, hcapital⟩
        refine ⟨hdigit, ?_, ?_⟩
        · unfold Numeral.startsFraction
          split
          · rename_i heq
            cases heq
            exact absurd rfl hpoint
          · rfl
        · simp [Numeral.startsExponent, hsmall, hcapital]
  rcases hbounds with ⟨hdigit, hfraction, hexponent⟩
  have hdigits := Numeral.digits_append_of_stop (Decimal.isDigit_ofNat n) hdigit
  rw [readMagnitude?, hdigits]
  dsimp only
  rw [Numeral.fraction_eq_nil hfraction]
  dsimp only
  rw [Numeral.exponent_eq_nil hexponent, if_pos (isWhole_ofNat n), List.tail_nil, List.append_nil,
    Decimal.value_ofNat]
  rfl

theorem readNumber?_ofInt {s : Bytes} (h : endsNumber s = true) (n : Int) :
    readNumber? (Decimal.ofInt n ++ s) = some (.number n 0, s) := by
  cases n with
  | ofNat n =>
      have hread := readMagnitude?_ofNat h false n
      have hdigits := Decimal.isDigit_ofNat n
      change readNumber? (Decimal.ofNat n ++ s) = _
      cases hwritten : Decimal.ofNat n with
      | nil => exact absurd hwritten (Decimal.ofNat_ne_nil n)
      | cons d digits =>
          rw [hwritten] at hread hdigits
          have hminus : d ≠ 0x2D := by
            rintro rfl
            cases hdigits
          rw [List.cons_append, readNumber?, if_neg hminus]
          exact hread
  | negSucc n =>
      have hread := readMagnitude?_ofNat h true (n + 1)
      change readNumber? (0x2D :: (Decimal.ofNat (n + 1) ++ s)) = _
      rw [readNumber?, if_pos rfl]
      exact hread

/-!
## Pieces of text
-/

def Reads (piece : Bytes) (marks : List Mark) : Prop :=
  ∀ s, readMarks? (piece ++ s) = (readMarks? s).map (marks ++ ·)

def ReadsBefore (piece : Bytes) (marks : List Mark) : Prop :=
  ∀ s, endsNumber s = true -> readMarks? (piece ++ s) = (readMarks? s).map (marks ++ ·)

theorem Reads.before {piece : Bytes} {marks : List Mark} (h : Reads piece marks) :
    ReadsBefore piece marks :=
  fun s _ => h s

section

variable {x y : Bytes} {a b : List Mark}

theorem map_append_append (found : Option (List Mark)) :
    (found.map (b ++ ·)).map (a ++ ·) = found.map (a ++ b ++ ·) := by
  cases found with
  | none => rfl
  | some marks => exact congrArg some (List.append_assoc a b marks).symm

theorem Reads.append (hx : Reads x a) (hy : Reads y b) : Reads (x ++ y) (a ++ b) := by
  intro s
  rw [List.append_assoc, hx, hy, map_append_append]

theorem Reads.append_before (hx : Reads x a) (hy : ReadsBefore y b) :
    ReadsBefore (x ++ y) (a ++ b) := by
  intro s hs
  rw [List.append_assoc, hx, hy s hs, map_append_append]

theorem ReadsBefore.append (hx : ReadsBefore x a) (hy : Reads y b)
    (hends : ∀ s, endsNumber (y ++ s) = true) : Reads (x ++ y) (a ++ b) := by
  intro s
  rw [List.append_assoc, hx _ (hends s), hy, map_append_append]

end

theorem readMarks?_eq_of_dropWhile {s t : Bytes} (h : s.dropWhile isSpace = t.dropWhile isSpace) :
    readMarks? s = readMarks? t := by
  cases hs : s.dropWhile isSpace with
  | nil => rw [readMarks?_nil hs, readMarks?_nil (h.symm.trans hs)]
  | cons b more =>
      have ht := h.symm.trans hs
      cases hmark : readMark? (b :: more) with
      | none => rw [readMarks?_none hs hmark, readMarks?_none ht hmark]
      | some found => rw [readMarks?_some hs hmark, readMarks?_some ht hmark]

theorem reads_space {gap : Bytes} (h : gap.all isSpace = true) : Reads gap [] := by
  intro s
  have hdrop : (gap ++ s).dropWhile isSpace = s.dropWhile isSpace :=
    List.dropWhile_append_of_pos (List.all_eq_true.mp h)
  rw [readMarks?_eq_of_dropWhile hdrop]
  cases readMarks? s <;> rfl

theorem read?_of_reads {piece : Bytes} {value : Value} (h : Reads piece value.marks) :
    Value.read? piece = some value := by
  have hmarks := h []
  rw [List.append_nil, readMarks?_nil List.dropWhile_nil] at hmarks
  rw [Value.read?, hmarks]
  exact Value.ofMarks?_eq_some_iff.mpr (List.append_nil _)

theorem reads_mark {piece : Bytes} {b : UInt8} {mark : Mark} (hspace : isSpace b = false)
    (h : ∀ s, readMark? (b :: (piece ++ s)) = some (mark, s)) : Reads (b :: piece) [mark] := by
  intro s
  exact readMarks?_some (List.dropWhile_cons_of_neg (by simp [hspace])) (h s)

theorem reads_punctuation {b : UInt8} {mark : Mark} (hspace : isSpace b = false)
    (hquote : b ≠ 0x22) (h : punctuation? b = some mark) : Reads [b] [mark] := by
  apply reads_mark hspace
  intro s
  rw [readMark?, if_neg hquote, h]
  rfl

theorem reads_comma : Reads (ascii ", ") [.comma] :=
  (reads_punctuation rfl (by decide) rfl).append (reads_space rfl)

theorem reads_quote (text : Bytes) : Reads (quote text) [.scalar (.string text)] := by
  change Reads (0x22 :: (text.flatMap quoteByte ++ [0x22])) _
  apply reads_mark rfl
  intro s
  rw [List.append_assoc, List.singleton_append, readMark?, if_pos rfl, readString?_quote]
  rfl

theorem reads_bool (value : Bool) :
    Reads (if value then ascii "true" else ascii "false") [.scalar (.bool value)] := by
  cases value
  · change Reads (0x66 :: ascii "alse") _
    exact reads_mark rfl fun s => rfl
  · change Reads (0x74 :: ascii "rue") _
    exact reads_mark rfl fun s => rfl

theorem isDigit_cases {b : UInt8} (h : Byte.isDigit b = true) :
    b = 0x30 ∨ b = 0x31 ∨ b = 0x32 ∨ b = 0x33 ∨ b = 0x34 ∨ b = 0x35 ∨ b = 0x36 ∨ b = 0x37 ∨
      b = 0x38 ∨ b = 0x39 := by
  simp only [Byte.isDigit, Bool.and_eq_true, decide_eq_true_eq, UInt8.le_iff_toNat_le,
    ← UInt8.toNat_inj, UInt8.reduceToNat] at h ⊢
  omega

theorem readMark?_of_digit {b : UInt8} (h : b = 0x2D ∨ Byte.isDigit b = true) (s : Bytes) :
    isSpace b = false ∧
      readMark? (b :: s) =
        (readNumber? (b :: s)).map fun found => (.scalar found.1, found.2) := by
  rcases h with rfl | hdigit
  · exact ⟨rfl, rfl⟩
  · rcases isDigit_cases hdigit with rfl | rfl | rfl | rfl | rfl | rfl | rfl | rfl | rfl | rfl <;>
    exact ⟨rfl, rfl⟩

theorem ofInt_eq_cons (n : Int) :
    ∃ b digits, Decimal.ofInt n = b :: digits ∧ (b = 0x2D ∨ Byte.isDigit b = true) := by
  cases n with
  | ofNat n =>
      have hdigits := Decimal.isDigit_ofNat n
      cases hwritten : Decimal.ofNat n with
      | nil => exact absurd hwritten (Decimal.ofNat_ne_nil n)
      | cons b digits =>
          rw [hwritten, List.all_cons, Bool.and_eq_true] at hdigits
          exact ⟨b, digits, hwritten, Or.inr hdigits.1⟩
  | negSucc n => exact ⟨0x2D, Decimal.ofNat (n + 1), rfl, Or.inl rfl⟩

theorem reads_ofInt (n : Int) : ReadsBefore (Decimal.ofInt n) [.scalar (.number n 0)] := by
  intro s hs
  have hnumber := readNumber?_ofInt hs n
  rcases ofInt_eq_cons n with ⟨b, digits, hwritten, hfirst⟩
  rw [hwritten, List.cons_append] at hnumber ⊢
  rcases readMark?_of_digit hfirst (digits ++ s) with ⟨hspace, hmark⟩
  rw [hnumber] at hmark
  exact readMarks?_some (List.dropWhile_cons_of_neg (by simp [hspace])) hmark

theorem reads_quoteAll (list : List Bytes) :
    Reads (quoteAll list) (separated (Value.itemParts (list.map Value.text))) := by
  match list with
  | [] => exact reads_space rfl
  | [s] => exact reads_quote s
  | s :: next :: list =>
      exact ((reads_quote s).append reads_comma).append (reads_quoteAll (next :: list))

theorem reads_newline (level : Nat) : Reads (0x0A :: List.replicate (2 * level) 0x20) [] := by
  apply reads_space
  rw [List.all_cons, List.all_replicate]
  simp [isSpace]

/-!
## Writers

What a writer has written is the beginning of an object, within the objects that are open around
it. Every call of the writer adds a field, opens an object or closes one, and it sets commas and
braces as they have to stand.
-/

structure Outer where
  fields : List (Bytes × Value)
  key : Bytes

def Outer.marks (o : Outer) : List Mark :=
  .openObject :: closedParts (Value.fieldParts o.fields) ++ [.scalar (.string o.key), .colon]

def begun (outers : List Outer) (fields : List (Bytes × Value)) : List Mark :=
  outers.flatMap Outer.marks ++ .openObject :: separated (Value.fieldParts fields)

structure Writer.Holds (w : Writer) (outers : List Outer) (fields : List (Bytes × Value)) :
    Prop where
  reads : ReadsBefore w.out (begun outers fields)
  first : w.first = fields.isEmpty
  depth : w.depth = outers.length

theorem closedParts_of_ne_nil {parts : List (List Mark)} (h : parts ≠ []) :
    closedParts parts = separated parts ++ [.comma] := by
  rcases List.eq_nil_or_concat parts with hnil | ⟨front, last, rfl⟩
  · exact absurd hnil h
  · rw [List.concat_eq_append, closedParts_concat, separated_concat]

theorem fieldParts_concat (fields : List (Bytes × Value)) (key : Bytes) (value : Value) :
    Value.fieldParts (fields ++ [(key, value)]) =
      Value.fieldParts fields ++ [.scalar (.string key) :: .colon :: value.marks] := by
  induction fields with
  | nil => rfl
  | cons field fields ih =>
      exact congrArg ((.scalar (.string field.1) :: .colon :: field.2.marks) :: ·) ih

theorem begun_concat (outers : List Outer) (fields : List (Bytes × Value)) (key : Bytes)
    (value : Value) :
    begun outers (fields ++ [(key, value)]) =
      (outers ++ [Outer.mk fields key]).flatMap Outer.marks ++ value.marks := by
  rw [begun, fieldParts_concat, separated_concat, List.flatMap_append, List.flatMap_singleton]
  simp only [Outer.marks, List.append_assoc, List.cons_append, List.nil_append]

namespace Writer

variable {w : Writer} {outers : List Outer} {fields : List (Bytes × Value)}

theorem holds_start : start.Holds [] [] where
  reads := (reads_punctuation (b := 0x7B) rfl (by decide) rfl).before
  first := rfl
  depth := rfl

theorem reads_separate (h : w.Holds outers fields) :
    Reads w.separate.out
      (outers.flatMap Outer.marks ++ .openObject :: closedParts (Value.fieldParts fields)) := by
  have hspace := reads_newline (w.depth + 1)
  have hfirst := h.first
  unfold separate
  cases fields with
  | nil =>
      rw [hfirst, ← List.append_nil (_ ++ _)]
      exact h.reads.append hspace fun s => rfl
  | cons field fields =>
      have hcomma : Reads [0x2C] [.comma] := reads_punctuation rfl (by decide) rfl
      have hnext := (h.reads.append hcomma fun s => rfl).append hspace
      have hparts : Value.fieldParts (field :: fields) ≠ [] := List.cons_ne_nil _ _
      rw [begun, List.append_nil, List.append_assoc (outers.flatMap Outer.marks),
        List.cons_append, ← closedParts_of_ne_nil hparts] at hnext
      rw [hfirst]
      exact hnext

theorem reads_key (h : w.Holds outers fields) (name : String) :
    Reads (w.key name).out ((outers ++ [Outer.mk fields (ascii name)]).flatMap Outer.marks) := by
  have hcolon : Reads (ascii ": ") [.colon] :=
    (reads_punctuation (b := 0x3A) rfl (by decide) rfl).append (reads_space rfl)
  have hall := (reads_separate h).append ((reads_quote (ascii name)).append hcolon)
  rw [List.append_assoc] at hall
  rw [List.flatMap_append, List.flatMap_singleton]
  exact hall

theorem reads_close (h : w.Holds outers fields) (level : Nat) :
    Reads ((w.newline level).write [0x7D]).out
      (outers.flatMap Outer.marks ++ (Value.object fields).marks) := by
  have hclose : Reads [0x7D] [.closeObject] := reads_punctuation rfl (by decide) rfl
  have hall := h.reads.append ((reads_newline level).append hclose) fun s => rfl
  rw [begun, List.append_assoc (outers.flatMap Outer.marks), ← List.append_assoc w.out] at hall
  exact hall

namespace Holds

variable (h : w.Holds outers fields) (name : String)
include h

theorem entry {piece : Bytes} {value : Value} (hpiece : ReadsBefore piece value.marks) :
    ((w.key name).write piece).Holds outers (fields ++ [(ascii name, value)]) where
  reads := by
    rw [begun_concat]
    exact (reads_key h name).append_before hpiece
  first := by cases fields <;> rfl
  depth := by
    unfold key separate
    split <;> exact h.depth

theorem text (value : Bytes) :
    (w.text name value).Holds outers (fields ++ [(ascii name, .text value)]) :=
  h.entry name (reads_quote value).before

theorem bool (value : Bool) :
    (w.bool name value).Holds outers (fields ++ [(ascii name, .flag value)]) :=
  h.entry name (reads_bool value).before

theorem number (value : Int) :
    (w.number name value).Holds outers (fields ++ [(ascii name, .count value)]) :=
  h.entry name (reads_ofInt value)

theorem texts (values : List Bytes) :
    (w.texts name values).Holds outers (fields ++ [(ascii name, .texts values)]) := by
  have hopen : Reads [0x5B] [.openArray] := reads_punctuation rfl (by decide) rfl
  have hclose : Reads [0x5D] [.closeArray] := reads_punctuation rfl (by decide) rfl
  exact h.entry name ((hopen.append (reads_quoteAll values)).append hclose).before

theorem beginObject : (w.beginObject name).Holds (outers ++ [⟨fields, ascii name⟩]) [] where
  reads := by
    have hopen : Reads [0x7B] [.openObject] := reads_punctuation rfl (by decide) rfl
    exact ((reads_key h name).append hopen).before
  first := rfl
  depth := by
    rw [List.length_append]
    exact congrArg (· + 1) h.depth

omit h name in
theorem endObject {outer : Outer} (h : w.Holds (outers ++ [outer]) fields) :
    w.endObject.Holds outers (outer.fields ++ [(outer.key, .object fields)]) where
  reads := by
    rw [begun_concat]
    exact (reads_close h _).before
  first := by cases outer.fields <;> rfl
  depth := by
    have hdepth := h.depth
    rw [List.length_append] at hdepth
    exact congrArg (· - 1) hdepth

omit h name in
theorem read?_render (h : w.Holds [] fields) : Value.read? w.render = some (.object fields) :=
  read?_of_reads (reads_close h 0)

end Holds
end Writer

/-!
## Reports
-/

/-- What the report of a filter job says. -/
def filterSays (r : Job.FilterResult) : Value :=
  .record
    [("success", .flag true),
      ("input", .record
        [("html", .text r.htmlPath), ("css", .text r.cssPath), ("cssSize", .count r.inputBytes)]),
      ("output", .record [("path", .text r.outputPath), ("size", .count r.outputBytes)]),
      ("htmlAnalysis", .record
        [("tags", .count r.tags), ("ids", .count r.ids), ("classes", .count r.classes),
          ("attributes", .count r.attributes)]),
      ("stats", .record
        [("totalRules", .count r.stats.total), ("keptRules", .count r.stats.kept),
          ("removedRules", .count r.stats.removed), ("atRules", .count r.stats.atRules),
          ("mediaQueries", .count r.stats.mediaQueries),
          ("reduction", .text (Decimal.ofInt r.reduction ++ ascii "%")),
          ("durationMs", .count r.duration)])]

/-- What the report of a merge job says. -/
def mergeSays (r : Job.MergeResult) : Value :=
  .record
    [("success", .flag true),
      ("input", .record
        [("files", .texts r.inputFiles), ("fileCount", .count r.inputFiles.length),
          ("totalSize", .count r.inputBytes), ("totalRules", .count r.stats.inputRules)]),
      ("output", .record
        [("path", .text r.outputPath), ("size", .count r.outputBytes),
          ("rules", .count r.stats.outputRules)]),
      ("stats", .record
        [("inputRules", .count r.stats.inputRules), ("outputRules", .count r.stats.outputRules),
          ("duplicateRulesRemoved", .count r.stats.duplicates),
          ("fontFacesDeduped", .count r.stats.fontFaces),
          ("keyframesDeduped", .count r.stats.keyframes),
          ("mediaQueriesCombined", .count r.stats.media),
          ("emptyRulesRemoved", .count r.stats.empty),
          ("reduction", .text (Decimal.ofInt r.reduction ++ ascii "%")),
          ("durationMs", .count r.duration)]),
      ("warnings", .texts (r.warnings.map Fault.message))]

/-- A field that is there only where its text is not empty. -/
def unlessEmpty (key : String) (text : Bytes) : List (String × Value) :=
  if text.isEmpty then [] else [(key, .text text)]

/-- What the report of a fault says. -/
def faultSays (f : Fault) : Value :=
  .record
    ([("success", .flag false), ("error", .text f.message), ("kind", .text f.kind.name)] ++
      unlessEmpty "path" f.path ++ unlessEmpty "hint" f.hint)

theorem read?_ofFilter (r : Job.FilterResult) :
    Value.read? (ofFilter r).render = some (filterSays r) := by
  have hinput := Writer.holds_start
    |>.bool "success" true
    |>.beginObject "input"
    |>.text "html" r.htmlPath
    |>.text "css" r.cssPath
    |>.number "cssSize" r.inputBytes
    |>.endObject
  have houtput := hinput
    |>.beginObject "output"
    |>.text "path" r.outputPath
    |>.number "size" r.outputBytes
    |>.endObject
  have hpage := houtput
    |>.beginObject "htmlAnalysis"
    |>.number "tags" r.tags
    |>.number "ids" r.ids
    |>.number "classes" r.classes
    |>.number "attributes" r.attributes
    |>.endObject
  have hstats := hpage
    |>.beginObject "stats"
    |>.number "totalRules" r.stats.total
    |>.number "keptRules" r.stats.kept
    |>.number "removedRules" r.stats.removed
    |>.number "atRules" r.stats.atRules
    |>.number "mediaQueries" r.stats.mediaQueries
    |>.text "reduction" (percent r.reduction)
    |>.number "durationMs" r.duration
    |>.endObject
  exact hstats.read?_render

theorem read?_ofMerge (r : Job.MergeResult) :
    Value.read? (ofMerge r).render = some (mergeSays r) := by
  have hinput := Writer.holds_start
    |>.bool "success" true
    |>.beginObject "input"
    |>.texts "files" r.inputFiles
    |>.number "fileCount" r.inputFiles.length
    |>.number "totalSize" r.inputBytes
    |>.number "totalRules" r.stats.inputRules
    |>.endObject
  have houtput := hinput
    |>.beginObject "output"
    |>.text "path" r.outputPath
    |>.number "size" r.outputBytes
    |>.number "rules" r.stats.outputRules
    |>.endObject
  have hstats := houtput
    |>.beginObject "stats"
    |>.number "inputRules" r.stats.inputRules
    |>.number "outputRules" r.stats.outputRules
    |>.number "duplicateRulesRemoved" r.stats.duplicates
    |>.number "fontFacesDeduped" r.stats.fontFaces
    |>.number "keyframesDeduped" r.stats.keyframes
    |>.number "mediaQueriesCombined" r.stats.media
    |>.number "emptyRulesRemoved" r.stats.empty
    |>.text "reduction" (percent r.reduction)
    |>.number "durationMs" r.duration
    |>.endObject
  exact (hstats.texts "warnings" (r.warnings.map Fault.message)).read?_render

theorem read?_ofFault (f : Fault) : Value.read? (ofFault f).render = some (faultSays f) := by
  have hkind := Writer.holds_start
    |>.bool "success" false
    |>.text "error" f.message
    |>.text "kind" f.kind.name
  have hpath := hkind.text "path" f.path
  unfold ofFault faultSays unlessEmpty
  cases f.path.isEmpty <;> cases f.hint.isEmpty
  · exact (hpath.text "hint" f.hint).read?_render
  · exact hpath.read?_render
  · exact (hkind.text "hint" f.hint).read?_render
  · exact hkind.read?_render

/-- A text is read back from its quotation and each report as what it says, and this reading is
exact: every value has one list of marks, and only that list is read as the value. -/
theorem reports_read_back :
    (∀ s, Value.read? (quote s) = some (.text s)) ∧
      (∀ r, Value.read? (ofFilter r).render = some (filterSays r)) ∧
      (∀ r, Value.read? (ofMerge r).render = some (mergeSays r)) ∧
      (∀ f, Value.read? (ofFault f).render = some (faultSays f)) ∧
      ∀ marks value, Value.ofMarks? marks = some value ↔ marks = value.marks :=
  ⟨fun s => read?_of_reads (reads_quote s), read?_ofFilter, read?_ofMerge, read?_ofFault,
    fun _ _ => Value.ofMarks?_eq_some_iff⟩

end Report
end StyleTrim
