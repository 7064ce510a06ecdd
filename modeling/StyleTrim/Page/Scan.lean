import StyleTrim.Page.Facts
import StyleTrim.Text.Word

/-!
# Scanning markup

Markup is not parsed. Every position of the text is looked at on its own, with nothing but the
byte before it, for a tag, an id, a class or an attribute that might begin there. Comments and
scripts count as well, so the facts are too many rather than too few.
-/

namespace StyleTrim
namespace Page

/-- A position in a text: the byte before it, if there is one, and the text from there on. -/
structure Spot where
  before : Option UInt8
  rest : Bytes

def collectSpots (before : Option UInt8) (s : Bytes) (taken : List Spot) : List Spot :=
  match s with
  | [] => taken.reverse
  | b :: rest => collectSpots (some b) rest (⟨before, s⟩ :: taken)

def spotsFrom (before : Option UInt8) (s : Bytes) : List Spot :=
  collectSpots before s []

def spots (s : Bytes) : List Spot :=
  spotsFrom none s

/-!
## Tags
-/

def isMarkupName (b : UInt8) : Bool :=
  Byte.isAlnum b || b == 0x2D || b == 0x5F

def tagAt? (spot : Spot) : Option Bytes :=
  match spot.rest with
  | 0x3C :: b :: s =>
      if Byte.isAlpha b then some (lower ((b :: s).takeWhile isMarkupName)) else none
  | _ => none

/-!
## Values of attributes
-/

def isBareValue (b : UInt8) : Bool :=
  !(Byte.isBlank b || Byte.isQuote b || b == 0x3E || b == 0x3D || b == 0x3C || b == 0x60)

def readValue? (s : Bytes) : Option Bytes :=
  match s.dropWhile Byte.isBlank with
  | [] => none
  | b :: rest =>
      if Byte.isQuote b then
        if rest.contains b then some (rest.takeWhile (· != b)) else none
      else
        let value := (b :: rest).takeWhile isBareValue
        if value.isEmpty then none else some value

def valueAfterName? (s : Bytes) : Option Bytes :=
  match s.dropWhile Byte.isBlank with
  | 0x3D :: rest => readValue? rest
  | _ => none

def isWordByte (b : UInt8) : Bool :=
  Byte.isAlnum b || b == 0x5F

def valueAt? (name : Bytes) (spot : Spot) : Option Bytes :=
  if spot.before.any isWordByte then none
  else
    match dropWord? name spot.rest with
    | some rest => valueAfterName? rest
    | none => none

def idAt? (spot : Spot) : Option Bytes :=
  (valueAt? (ascii "id") spot).filter fun value => !value.isEmpty

def words (s : Bytes) : List Bytes :=
  match _h : s.dropWhile Byte.isBlank with
  | [] => []
  | b :: rest =>
      (b :: rest.takeWhile fun c => !Byte.isBlank c) ::
        words (rest.dropWhile fun c => !Byte.isBlank c)
termination_by s.length
decreasing_by
  have h1 := (List.dropWhile_sublist (l := s) Byte.isBlank).length_le
  have h2 := (List.dropWhile_sublist (l := rest) fun c => !Byte.isBlank c).length_le
  rw [_h, List.length_cons] at h1
  omega

def classesAt (spot : Spot) : List Bytes :=
  match valueAt? (ascii "class") spot with
  | some value => words value
  | none => []

/-!
## Names of attributes

A data attribute is one by its name. Of the other attributes only some common ones are looked
for, each by its name with an equals sign, a space or a closing bracket behind it.
-/

def dataAttributeAt? (spot : Spot) : Option Bytes :=
  if spot.before.any Byte.isBlank then
    match dropWord? (ascii "data-") spot.rest with
    | some rest =>
        let name := rest.takeWhile isMarkupName
        if name.isEmpty then none else some (ascii "data-" ++ lower name)
    | none => none
  else none

def commonAttributes : List Bytes :=
  [ascii "href", ascii "src", ascii "type", ascii "name", ascii "value", ascii "disabled",
    ascii "checked", ascii "selected", ascii "readonly", ascii "required", ascii "placeholder",
    ascii "role", ascii "aria-hidden", ascii "aria-label", ascii "aria-expanded",
    ascii "target", ascii "rel"]

def endsCommonAttribute : Bytes -> Bool
  | [] => false
  | b :: _ => b == 0x3D || b == 0x20 || b == 0x3E

def hasAttributeAt (name : Bytes) (spot : Spot) : Bool :=
  (dropWord? name spot.rest).any endsCommonAttribute

def commonAttributesIn (all : List Spot) : List Bytes :=
  commonAttributes.filter fun name => all.any (hasAttributeAt name)

end Page

/-- The facts that can be read off a text of markup. -/
def Facts.ofMarkup (s : Bytes) : Facts :=
  let all := Page.spots s
  { tags := .ofList (all.filterMap Page.tagAt?)
    ids := .ofList (all.filterMap Page.idAt?)
    classes := .ofList (all.flatMap Page.classesAt)
    attributes :=
      .ofList (all.filterMap Page.dataAttributeAt? ++ Page.commonAttributesIn all) }

end StyleTrim
