import StyleTrim.Proofs.Page.Fragments
import StyleTrim.Proofs.Token.Shape

/-!
# Start tags

A start tag is written with a name and attributes, each behind at least one blank. The scan knows
nothing of tags: it looks at every place on its own. So the text around a tag cannot hide what the
tag names. Each name stands behind a bracket or a blank, and ends before an equals sign, a blank or
a bracket, and these bounds are all that the scan asks for.
-/

namespace StyleTrim
namespace Markup

open Page Lexeme

/-!
## How a start tag is written
-/

/-- A value behind an equals sign, in quotes or without. -/
inductive Value where
  | quoted (quote : UInt8) (text : Bytes) (isQuote : Byte.isQuote quote = true)
    (free : quote ∉ text)
  | bare (text : Bytes) (nonempty : text ≠ []) (plain : text.all isBareValue = true)

namespace Value

def text : Value -> Bytes
  | quoted _ text _ _ => text
  | bare text _ _ => text

def write : Value -> Bytes
  | quoted quote text _ _ => quote :: text ++ [quote]
  | bare text _ _ => text

end Value

/-- A value with its equals sign, and blanks on both sides of the sign. -/
structure Assignment where
  before : Bytes
  behind : Bytes
  value : Value
  before_blank : before.all Byte.isBlank = true
  behind_blank : behind.all Byte.isBlank = true

def Assignment.write (a : Assignment) : Bytes :=
  a.before ++ 0x3D :: a.behind ++ a.value.write

/-- An attribute with the blanks in front of it. -/
structure Attribute where
  gap : Bytes
  name : Bytes
  assignment? : Option Assignment
  gap_ne_nil : gap ≠ []
  gap_blank : gap.all Byte.isBlank = true
  name_ne_nil : name ≠ []
  name_markup : name.all isMarkupName = true

namespace Attribute

def assigned (a : Attribute) : Bytes :=
  match a.assignment? with
  | some assignment => assignment.write
  | none => []

def write (a : Attribute) : Bytes :=
  a.gap ++ a.name ++ a.assigned

def value? (a : Attribute) : Option Bytes :=
  a.assignment?.map fun assignment => assignment.value.text

end Attribute

structure StartTag where
  initial : UInt8
  more : Bytes
  attributes : List Attribute
  initial_alpha : Byte.isAlpha initial = true
  more_markup : more.all isMarkupName = true

namespace StartTag

def name (tag : StartTag) : Bytes :=
  tag.initial :: tag.more

def write (tag : StartTag) : Bytes :=
  0x3C :: tag.name ++ tag.attributes.flatMap Attribute.write ++ [0x3E]

end StartTag

/-- A stretch of bytes that are no blanks, as long as it can be. -/
def IsRun (s word : Bytes) : Prop :=
  ∃ front back, s = front ++ word ++ back ∧ word ≠ [] ∧ (∀ b ∈ word, Byte.isBlank b = false) ∧
    (∀ b ∈ front.getLast?, Byte.isBlank b = true) ∧ ∀ b ∈ back.head?, Byte.isBlank b = true

/-!
## What stands behind a name
-/

theorem isMarkupName_of_isAlpha {b : UInt8} (h : Byte.isAlpha b = true) :
    isMarkupName b = true := by
  simp [isMarkupName, Byte.isAlnum, h]

theorem isMarkupName_of_isBlank {b : UInt8} (h : Byte.isBlank b = true) :
    isMarkupName b = false := by
  rcases Byte.isBlank_cases h with rfl | rfl | rfl | rfl | rfl | rfl <;> rfl

theorem isWordByte_of_isBlank {b : UInt8} (h : Byte.isBlank b = true) : isWordByte b = false := by
  rcases Byte.isBlank_cases h with rfl | rfl | rfl | rfl | rfl | rfl <;> rfl

theorem isBareValue_of_isBlank {b : UInt8} (h : Byte.isBlank b = true) :
    isBareValue b = false := by
  simp [isBareValue, h]

theorem isBlank_of_isBareValue {b : UInt8} (h : isBareValue b = true) :
    Byte.isBlank b = false := by
  simp only [isBareValue, Bool.not_eq_true', Bool.or_eq_false_iff] at h
  exact h.1.1.1.1.1

theorem isQuote_of_isBareValue {b : UInt8} (h : isBareValue b = true) :
    Byte.isQuote b = false := by
  simp only [isBareValue, Bool.not_eq_true', Bool.or_eq_false_iff] at h
  exact h.1.1.1.1.2

theorem isBlank_of_isQuote {b : UInt8} (h : Byte.isQuote b = true) : Byte.isBlank b = false := by
  rcases Byte.isQuote_cases h with rfl | rfl <;> rfl

def Ends (s : Bytes) : Prop :=
  ∃ b ∈ s.head?, Byte.isBlank b = true ∨ b = 0x3E

theorem ends_closing (s : Bytes) : Ends (0x3E :: s) :=
  ⟨0x3E, rfl, Or.inr rfl⟩

theorem Attribute.ends_write (a : Attribute) (s : Bytes) : Ends (a.write ++ s) := by
  cases hgap : a.gap with
  | nil => exact absurd hgap a.gap_ne_nil
  | cons b gap =>
      have hblank := a.gap_blank
      rw [hgap, List.all_cons, Bool.and_eq_true] at hblank
      refine ⟨b, ?_, Or.inl hblank.1⟩
      rw [Attribute.write, hgap]
      rfl

theorem ends_attributes (attributes : List Attribute) (s : Bytes) :
    Ends (attributes.flatMap Attribute.write ++ 0x3E :: s) := by
  cases attributes with
  | nil => exact ends_closing s
  | cons a attributes =>
      rw [List.flatMap_cons, List.append_assoc]
      exact a.ends_write _

variable {s rest : Bytes}

theorem Ends.stops {p : UInt8 -> Bool} (hblank : ∀ {b}, Byte.isBlank b = true -> p b = false)
    (hclosing : p 0x3E = false) (h : Ends s) : ∀ b ∈ s.head?, p b = false := by
  rcases h with ⟨c, hc, hends⟩
  intro b hb
  obtain rfl : c = b := Option.some.inj (hc.symm.trans hb)
  rcases hends with hends | rfl
  · exact hblank hends
  · exact hclosing

theorem Attribute.assigned_stops (a : Attribute) (h : Ends s) :
    ∀ b ∈ (a.assigned ++ s).head?, isMarkupName b = false := by
  unfold Attribute.assigned
  split
  · rename_i assignment _
    unfold Assignment.write
    intro b hb
    cases hbefore : assignment.before with
    | nil =>
        rw [hbefore] at hb
        cases hb
        rfl
    | cons c before =>
        have hblank := assignment.before_blank
        rw [hbefore] at hb hblank
        rw [List.all_cons, Bool.and_eq_true] at hblank
        cases hb
        exact isMarkupName_of_isBlank hblank.1
  · exact h.stops isMarkupName_of_isBlank rfl

theorem dropWhile_blanks {blanks : Bytes} (hall : blanks.all Byte.isBlank = true) {b : UInt8}
    (hb : Byte.isBlank b = false) :
    (blanks ++ b :: s).dropWhile Byte.isBlank = b :: s := by
  apply dropWhile_append_of_stop hall
  intro c hc
  cases hc
  exact hb

/-!
## Reading values
-/

theorem readValue?_write (value : Value) {behind : Bytes} (hbehind : behind.all Byte.isBlank = true)
    (h : Ends s) : readValue? (behind ++ value.write ++ s) = some value.text := by
  rw [List.append_assoc]
  unfold readValue?
  cases value with
  | quoted quote text hquote hfree =>
      have hmem : quote ∈ text ++ quote :: s :=
        List.mem_append_right text (List.mem_cons_self)
      have htext : (text ++ quote :: s).takeWhile (· != quote) = text := by
        apply takeWhile_append_of_stop
        · rw [List.all_eq_true]
          intro b hb
          exact bne_iff_ne.mpr fun heq => hfree (heq ▸ hb)
        · intro b hb
          cases hb
          exact bne_self_eq_false quote
      have hwrite : (Value.quoted quote text hquote hfree).write ++ s =
          quote :: (text ++ quote :: s) := by
        rw [Value.write, List.cons_append, List.cons_append, List.append_assoc]
        rfl
      rw [hwrite, dropWhile_blanks hbehind (isBlank_of_isQuote hquote)]
      dsimp only
      rw [if_pos hquote, if_pos (List.contains_iff_mem.mpr hmem), htext]
      rfl
  | bare text hne hplain =>
      cases text with
      | nil => exact absurd rfl hne
      | cons b text =>
          have hb : isBareValue b = true := List.all_eq_true.mp hplain b List.mem_cons_self
          have htext : (b :: (text ++ s)).takeWhile isBareValue = b :: text :=
            takeWhile_append_of_stop hplain (h.stops isBareValue_of_isBlank rfl)
          rw [Value.write, List.cons_append,
            dropWhile_blanks hbehind (isBlank_of_isBareValue hb)]
          dsimp only
          rw [isQuote_of_isBareValue hb, htext]
          rfl

theorem valueAfterName?_assigned {a : Attribute} {value : Bytes} (hvalue : a.value? = some value)
    (h : Ends s) : valueAfterName? (a.assigned ++ s) = some value := by
  rcases Option.map_eq_some_iff.mp hvalue with ⟨assignment, hassignment, rfl⟩
  have hwrite : a.assigned ++ s =
      assignment.before ++ 0x3D :: (assignment.behind ++ assignment.value.write ++ s) := by
    rw [Attribute.assigned, hassignment]
    simp only [Assignment.write, List.append_assoc, List.cons_append]
  rw [valueAfterName?, hwrite, dropWhile_blanks assignment.before_blank rfl]
  exact readValue?_write assignment.value assignment.behind_blank h

/-!
## Words
-/

theorem words_of_dropWhile {b : UInt8} (h : s.dropWhile Byte.isBlank = b :: rest) :
    words s = (b :: rest.takeWhile fun c => !Byte.isBlank c) ::
      words (rest.dropWhile fun c => !Byte.isBlank c) := by
  rw [words]
  split
  · rename_i hnil
    rw [h] at hnil
    cases hnil
  · rename_i hrest
    rw [h] at hrest
    cases hrest
    rfl

theorem getLast?_dropWhile {p : UInt8 -> Bool} (h : s.dropWhile p ≠ []) :
    (s.dropWhile p).getLast? = s.getLast? := by
  have hsplit := congrArg List.getLast? (List.takeWhile_append_dropWhile (p := p) (l := s))
  rw [List.getLast?_append, Option.or_of_isSome (List.getLast?_isSome.mpr h)] at hsplit
  exact hsplit

theorem front_cases {front : Bytes} (h : ∀ b ∈ front.getLast?, Byte.isBlank b = true) :
    front.all Byte.isBlank = true ∨ ∃ b inner, front.dropWhile Byte.isBlank = b :: inner ∧
      ∃ stop ∈ inner.getLast?, Byte.isBlank stop = true := by
  cases hdrop : front.dropWhile Byte.isBlank with
  | nil => exact Or.inl (List.all_eq_true.mpr (List.dropWhile_eq_nil_iff.mp hdrop))
  | cons b inner =>
      have hb := head?_dropWhile front Byte.isBlank b (by rw [hdrop]; rfl)
      have hlast := getLast?_dropWhile (p := Byte.isBlank) (s := front)
        (by rw [hdrop]; exact List.cons_ne_nil b inner)
      rw [hdrop] at hlast
      refine Or.inr ⟨b, inner, rfl, ?_⟩
      cases hinner : inner.getLast? with
      | none =>
          rw [List.getLast?_cons, hinner] at hlast
          rw [h b hlast.symm] at hb
          cases hb
      | some stop =>
          rw [List.getLast?_cons, hinner] at hlast
          exact ⟨stop, rfl, h stop hlast.symm⟩

theorem mem_words_of_isRun {word : Bytes} (h : IsRun s word) : word ∈ words s := by
  induction hlength : s.length using Nat.strong_induction_on generalizing s with
  | h n ih =>
      rcases h with ⟨front, back, rfl, hne, hword, hfront, hback⟩
      rcases front_cases hfront with hall | ⟨c, inner, hdrop, stop, hstop, hblank⟩
      · -- Nothing but blanks stands before the run: it is the first word.
        cases word with
        | nil => exact absurd rfl hne
        | cons b word =>
            have hrest : (front ++ b :: word ++ back).dropWhile Byte.isBlank =
                b :: (word ++ back) := by
              rw [List.append_assoc]
              exact dropWhile_blanks hall (hword b List.mem_cons_self)
            have hwhole : (word ++ back).takeWhile (fun c => !Byte.isBlank c) = word := by
              apply takeWhile_append_of_stop
              · rw [List.all_eq_true]
                intro c hc
                rw [hword c (List.mem_cons_of_mem b hc)]
                rfl
              · intro c hc
                rw [hback c hc]
                rfl
            rw [words_of_dropWhile hrest, hwhole]
            exact List.mem_cons_self
      · -- The first word ends before the run, which is one of the text behind it as well.
        have hmem : stop ∈ inner := List.mem_of_getLast? hstop
        have hrest : (front ++ word ++ back).dropWhile Byte.isBlank =
            c :: (inner ++ (word ++ back)) := by
          rw [List.append_assoc, List.dropWhile_append, hdrop]
          rfl
        have hbehind := dropWhile_append_of_mem (p := fun c => !Byte.isBlank c) hmem
          (by rw [hblank]; rfl) (word ++ back)
        rw [words_of_dropWhile hrest, hbehind]
        apply List.mem_cons_of_mem
        refine ih _ ?_ ⟨inner.dropWhile fun c => !Byte.isBlank c, back,
          (List.append_assoc _ _ _).symm, hne, hword, ?_, hback⟩ rfl
        · have hlonger := congrArg List.length hrest
          have hdropped := (List.dropWhile_sublist (l := front ++ word ++ back)
            Byte.isBlank).length_le
          have hless := (List.dropWhile_sublist (l := inner) fun c => !Byte.isBlank c).length_le
          simp only [List.length_append, List.length_cons] at hlonger hlength hdropped hless ⊢
          omega
        · have hleft := mem_dropWhile_of_mem (p := fun c => !Byte.isBlank c) hmem
            (by rw [hblank]; rfl)
          intro b hb
          rw [getLast?_dropWhile (List.ne_nil_of_mem hleft), hstop] at hb
          cases hb
          exact hblank

/-!
## The places of a tag
-/

theorem mem_spots {front : Bytes} (hne : s ≠ []) : ⟨front.getLast?, s⟩ ∈ spots (front ++ s) :=
  mem_spotsFrom.mpr ⟨front, rfl, hne, (Option.or_none).symm⟩

theorem StartTag.tag_found (tag : StartTag) (front back : Bytes) :
    ∃ spot ∈ spots (front ++ tag.write ++ back), tagAt? spot = some (lower tag.name) := by
  let behind := tag.attributes.flatMap Attribute.write ++ 0x3E :: back
  have hsplit : front ++ tag.write ++ back = front ++ 0x3C :: (tag.name ++ behind) := by
    simp only [StartTag.write, behind, List.append_assoc, List.cons_append, List.nil_append]
  have hname : (tag.name ++ behind).takeWhile isMarkupName = tag.name := by
    apply takeWhile_append_of_stop
    · rw [StartTag.name, List.all_cons, isMarkupName_of_isAlpha tag.initial_alpha,
        tag.more_markup]
      rfl
    · exact (ends_attributes tag.attributes back).stops isMarkupName_of_isBlank rfl
  rw [hsplit]
  refine ⟨_, mem_spots (List.cons_ne_nil _ _), ?_⟩
  change (if Byte.isAlpha tag.initial then
    some (lower ((tag.name ++ behind).takeWhile isMarkupName)) else none) = _
  rw [if_pos tag.initial_alpha, hname]

theorem StartTag.attribute_place (tag : StartTag) (front back : Bytes) {a : Attribute}
    (ha : a ∈ tag.attributes) :
    ∃ spot ∈ spots (front ++ tag.write ++ back),
      (∃ b, spot.before = some b ∧ Byte.isBlank b = true) ∧
      ∃ s, Ends s ∧ spot.rest = a.name ++ (a.assigned ++ s) := by
  rcases List.append_of_mem ha with ⟨left, right, hattributes⟩
  let ahead := front ++ 0x3C :: tag.name ++ left.flatMap Attribute.write ++ a.gap
  let behind := right.flatMap Attribute.write ++ 0x3E :: back
  have hsplit : front ++ tag.write ++ back = ahead ++ (a.name ++ (a.assigned ++ behind)) := by
    simp only [StartTag.write, Attribute.write, hattributes, ahead, behind, List.flatMap_append,
      List.flatMap_cons, List.append_assoc, List.cons_append, List.nil_append]
  rw [hsplit]
  refine ⟨_, mem_spots (List.append_ne_nil_of_left_ne_nil a.name_ne_nil _), ?_, behind,
    ends_attributes right back, rfl⟩
  have hlast := List.getLast?_isSome.mpr a.gap_ne_nil
  refine ⟨a.gap.getLast a.gap_ne_nil, ?_,
    List.all_eq_true.mp a.gap_blank _ (List.getLast_mem a.gap_ne_nil)⟩
  dsimp only [ahead]
  rw [List.getLast?_append, Option.or_of_isSome hlast, List.getLast?_eq_some_getLast a.gap_ne_nil]

/-!
## What is found
-/

theorem valueAt?_place {spot : Spot} {a : Attribute} {name value : Bytes}
    (hbefore : ∃ b, spot.before = some b ∧ Byte.isBlank b = true) (hends : Ends s)
    (hrest : spot.rest = a.name ++ (a.assigned ++ s)) (hname : lower a.name = name)
    (hvalue : a.value? = some value) : valueAt? name spot = some value := by
  rcases hbefore with ⟨b, hb, hblank⟩
  have hword : ¬spot.before.any isWordByte = true := by
    rw [hb, Option.any_some, isWordByte_of_isBlank hblank]
    exact Bool.false_ne_true
  rw [valueAt?, if_neg hword, hrest, dropWord?_append hname]
  exact valueAfterName?_assigned hvalue hends

theorem dataAttributeAt?_place {spot : Spot} {a : Attribute} {c : UInt8} {more : Bytes}
    (hbefore : ∃ b, spot.before = some b ∧ Byte.isBlank b = true) (hends : Ends s)
    (hrest : spot.rest = a.name ++ (a.assigned ++ s))
    (hname : lower a.name = ascii "data-" ++ c :: more) :
    dataAttributeAt? spot = some (lower a.name) := by
  rcases hbefore with ⟨b, hb, hblank⟩
  have hany : spot.before.any Byte.isBlank = true := by
    rw [hb, Option.any_some, hblank]
  rcases List.map_eq_append_iff.mp hname with ⟨front, kept, hsplit, hfront, hkept⟩
  have hmarkup := a.name_markup
  rw [hsplit, List.all_append, Bool.and_eq_true] at hmarkup
  have htaken : (kept ++ (a.assigned ++ s)).takeWhile isMarkupName = kept :=
    takeWhile_append_of_stop hmarkup.2 (a.assigned_stops hends)
  have hne : kept.isEmpty = false := by
    cases kept with
    | nil => cases hkept
    | cons d kept => rfl
  rw [dataAttributeAt?, if_pos hany, hrest, hsplit, List.append_assoc, dropWord?_append hfront]
  dsimp only
  rw [htaken, hne, if_neg Bool.false_ne_true, ← hsplit, hname]
  exact congrArg (fun name => some (ascii "data-" ++ name)) hkept

/-- Whatever stands around a start tag, the scan finds the name of the tag, the value of an id, each
word of a class and the name of each data attribute. -/
theorem startTag_found (tag : StartTag) (front back : Bytes) :
    let facts := Facts.ofMarkup (front ++ tag.write ++ back)
    lower tag.name ∈ facts.tags ∧
      ∀ a ∈ tag.attributes,
        (∀ value, a.value? = some value ->
          (lower a.name = ascii "id" -> value ≠ [] -> value ∈ facts.ids) ∧
          (lower a.name = ascii "class" -> ∀ word, IsRun value word -> word ∈ facts.classes)) ∧
        ∀ c more, lower a.name = ascii "data-" ++ c :: more -> lower a.name ∈ facts.attributes := by
  intro facts
  constructor
  · rcases tag.tag_found front back with ⟨spot, hspot, htag⟩
    exact NameSet.mem_ofList.mpr (List.mem_filterMap.mpr ⟨spot, hspot, htag⟩)
  · intro a ha
    rcases tag.attribute_place front back ha with ⟨spot, hspot, hbefore, s, hends, hrest⟩
    refine ⟨?_, ?_⟩
    · intro value hvalue
      refine ⟨?_, ?_⟩
      · intro hname hne
        have hid : idAt? spot = some value := by
          rw [idAt?, valueAt?_place hbefore hends hrest hname hvalue]
          exact Option.filter_eq_some_iff.mpr ⟨rfl, by simpa using hne⟩
        exact NameSet.mem_ofList.mpr (List.mem_filterMap.mpr ⟨spot, hspot, hid⟩)
      · intro hname word hword
        have hclasses : classesAt spot = words value := by
          rw [classesAt, valueAt?_place hbefore hends hrest hname hvalue]
        apply NameSet.mem_ofList.mpr
        apply List.mem_flatMap.mpr
        exact ⟨spot, hspot, hclasses ▸ mem_words_of_isRun hword⟩
    · intro c more hname
      have hdata := dataAttributeAt?_place hbefore hends hrest hname
      apply NameSet.mem_ofList.mpr
      exact List.mem_append_left _ (List.mem_filterMap.mpr ⟨spot, hspot, hdata⟩)

def spacedAttribute (name : Bytes) (assignment? : Option Assignment)
    (name_ne_nil : name ≠ []) (name_markup : name.all isMarkupName = true) : Attribute :=
  ⟨[0x20], name, assignment?, List.cons_ne_nil _ _, rfl, name_ne_nil, name_markup⟩

def quotedWords : Assignment :=
  ⟨[0x20], [0x0B], .quoted 0x27 (ascii " a\tb>c ") rfl (by decide), rfl, rfl⟩

def bareWord : Assignment :=
  ⟨[], [], .bare (ascii "x/") (by decide) (by decide), rfl, rfl⟩

def bookTag : StartTag :=
  { initial := 0x48
    more := ascii "1"
    attributes :=
      [spacedAttribute (ascii "id") none (by decide) (by decide),
        spacedAttribute (ascii "Class") (some quotedWords) (by decide) (by decide),
        spacedAttribute (ascii "data-X") none (by decide) (by decide),
        spacedAttribute (ascii "ID") (some bareWord) (by decide) (by decide)]
    initial_alpha := rfl
    more_markup := by decide }

theorem startTag_found_in_comment :
    let facts := Facts.ofMarkup (ascii "<p title=\"<!--" ++ bookTag.write ++ ascii "-->")
    bookTag.write = ascii "<H1 id Class =\x0b' a\tb>c ' data-X ID=x/>" ∧
      ascii "h1" ∈ facts.tags ∧ ascii "x/" ∈ facts.ids ∧ IsRun (ascii " a\tb>c ") (ascii "b>c") ∧
      ascii "b>c" ∈ facts.classes ∧ ascii "data-x" ∈ facts.attributes := by
  intro facts
  have hrun : IsRun (ascii " a\tb>c ") (ascii "b>c") :=
    ⟨ascii " a\t", ascii " ", by decide +kernel, by decide +kernel, by decide +kernel,
      by decide +kernel, by decide +kernel⟩
  rcases startTag_found bookTag (ascii "<p title=\"<!--") (ascii "-->") with ⟨htag, hattributes⟩
  have hclass := hattributes (spacedAttribute (ascii "Class") (some quotedWords) (by decide)
    (by decide)) (List.mem_cons_of_mem _ List.mem_cons_self)
  have hdata := hattributes (spacedAttribute (ascii "data-X") none (by decide) (by decide))
    (List.mem_cons_of_mem _ (List.mem_cons_of_mem _ List.mem_cons_self))
  have hid := hattributes (spacedAttribute (ascii "ID") (some bareWord) (by decide) (by decide))
    (List.mem_cons_of_mem _ (List.mem_cons_of_mem _ (List.mem_cons_of_mem _ List.mem_cons_self)))
  exact ⟨by decide, htag, (hid.1 _ rfl).1 (by decide) (by decide), hrun,
    (hclass.1 _ rfl).2 (by decide) _ hrun, hdata.2 0x78 [] (by decide)⟩

end Markup
end StyleTrim
