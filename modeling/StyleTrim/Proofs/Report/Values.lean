import StyleTrim.Text.Byte

/-!
# JSON values

A JSON text, white space apart, is a list of marks: brackets, colons, commas and the scalars. A
value is read from its marks one by one, with a stack of the arrays and objects that are still
open. Reading is exact: every value has one list of marks, and no other list is read as that value.
-/

namespace StyleTrim
namespace Report

inductive Scalar where
  | null
  | bool (value : Bool)
  /-- The significand times this power of ten. -/
  | number (significand exponent : Int)
  | string (text : Bytes)
deriving DecidableEq, Repr

inductive Value where
  | scalar (value : Scalar)
  | array (items : List Value)
  | object (fields : List (Bytes × Value))

namespace Value

def flag (b : Bool) : Value :=
  scalar (.bool b)

def count (n : Int) : Value :=
  scalar (.number n 0)

def text (s : Bytes) : Value :=
  scalar (.string s)

def texts (list : List Bytes) : Value :=
  array (list.map text)

def record (fields : List (String × Value)) : Value :=
  object (fields.map fun field => (ascii field.1, field.2))

end Value

inductive Mark where
  | openArray
  | closeArray
  | openObject
  | closeObject
  | colon
  | comma
  | scalar (value : Scalar)
deriving DecidableEq, Repr

def separated : List (List Mark) -> List Mark
  | [] => []
  | [part] => part
  | part :: other :: parts => part ++ .comma :: separated (other :: parts)

namespace Value

mutual

/-- The marks with which a value is written. -/
def marks : Value -> List Mark
  | scalar value => [.scalar value]
  | array items => .openArray :: separated (itemParts items) ++ [.closeArray]
  | object fields => .openObject :: separated (fieldParts fields) ++ [.closeObject]

def itemParts : List Value -> List (List Mark)
  | [] => []
  | value :: values => value.marks :: itemParts values

def fieldParts : List (Bytes × Value) -> List (List Mark)
  | [] => []
  | (key, value) :: fields =>
      (.scalar (.string key) :: .colon :: value.marks) :: fieldParts fields

end

end Value

/-!
## Reading marks
-/

/-- An array or object that is still open, with what was read of it, last one first. -/
inductive Frame where
  | array (items : List Value)
  | object (fields : List (Bytes × Value)) (key : Bytes)

/-- What has just been read, or is to come next. -/
inductive Point where
  | value
  | firstItem
  | firstField
  | nextField (fields : List (Bytes × Value))
  | colon (fields : List (Bytes × Value)) (key : Bytes)
  | behind (value : Value)

structure Reading where
  stack : List Frame
  point : Point

namespace Reading

def stepValue (stack : List Frame) : Mark -> Option Reading
  | .scalar value => some ⟨stack, .behind (.scalar value)⟩
  | .openArray => some ⟨stack, .firstItem⟩
  | .openObject => some ⟨stack, .firstField⟩
  | _ => none

def stepKey (stack : List Frame) (fields : List (Bytes × Value)) : Mark -> Option Reading
  | .scalar (.string key) => some ⟨stack, .colon fields key⟩
  | _ => none

def stepBehind (value : Value) : List Frame -> Mark -> Option Reading
  | .array items :: stack, .comma => some ⟨.array (value :: items) :: stack, .value⟩
  | .array items :: stack, .closeArray =>
      some ⟨stack, .behind (.array (value :: items).reverse)⟩
  | .object fields key :: stack, .comma => some ⟨stack, .nextField ((key, value) :: fields)⟩
  | .object fields key :: stack, .closeObject =>
      some ⟨stack, .behind (.object ((key, value) :: fields).reverse)⟩
  | _, _ => none

def step (r : Reading) (mark : Mark) : Option Reading :=
  match r.point with
  | .value => stepValue r.stack mark
  | .firstItem =>
      if mark = .closeArray then some ⟨r.stack, .behind (.array [])⟩
      else stepValue (.array [] :: r.stack) mark
  | .firstField =>
      if mark = .closeObject then some ⟨r.stack, .behind (.object [])⟩
      else stepKey r.stack [] mark
  | .nextField fields => stepKey r.stack fields mark
  | .colon fields key =>
      if mark = .colon then some ⟨.object fields key :: r.stack, .value⟩ else none
  | .behind value => stepBehind value r.stack mark

def run (r : Reading) : List Mark -> Option Reading
  | [] => some r
  | mark :: marks => (r.step mark).bind fun r => r.run marks

def start : Reading :=
  ⟨[], .value⟩

def value? : Reading -> Option Value
  | ⟨[], .behind value⟩ => some value
  | _ => none

end Reading

/-- The value whose marks these are. -/
def Value.ofMarks? (marks : List Mark) : Option Value :=
  (Reading.start.run marks).bind Reading.value?

/-!
## Every value is read
-/

namespace Reading

theorem run_cons_of_step {r r' : Reading} {mark : Mark} (h : r.step mark = some r')
    (marks : List Mark) : r.run (mark :: marks) = r'.run marks := by
  rw [run, h]
  rfl

section

variable (stack : List Frame) (marks : List Mark)

theorem run_firstItem (value : Value) (values : List Value) :
    run ⟨stack, .firstItem⟩ (separated (Value.itemParts (value :: values)) ++ marks) =
      run ⟨.array [] :: stack, .value⟩
        (separated (Value.itemParts (value :: values)) ++ marks) := by
  cases values <;> cases value <;> rfl

theorem run_firstField (field : Bytes × Value) (fields : List (Bytes × Value)) :
    run ⟨stack, .firstField⟩ (separated (Value.fieldParts (field :: fields)) ++ marks) =
      run ⟨stack, .nextField []⟩ (separated (Value.fieldParts (field :: fields)) ++ marks) := by
  cases fields <;> rfl

theorem run_closeArray (items : List Value) (value : Value) :
    run ⟨.array items :: stack, .behind value⟩ (.closeArray :: marks) =
      run ⟨stack, .behind (.array (items.reverse ++ [value]))⟩ marks := by
  rw [← List.reverse_cons]
  rfl

theorem run_closeObject (fields : List (Bytes × Value)) (key : Bytes) (value : Value) :
    run ⟨.object fields key :: stack, .behind value⟩ (.closeObject :: marks) =
      run ⟨stack, .behind (.object (fields.reverse ++ [(key, value)]))⟩ marks := by
  rw [← List.reverse_cons]
  rfl

end

mutual

theorem run_marks (value : Value) (stack : List Frame) (marks : List Mark) :
    run ⟨stack, .value⟩ (value.marks ++ marks) = run ⟨stack, .behind value⟩ marks := by
  cases value with
  | scalar value => rfl
  | array items =>
      rw [Value.marks, List.append_assoc, List.cons_append, run_cons_of_step rfl]
      cases items with
      | nil => rfl
      | cons value values =>
          exact (run_firstItem _ _ value values).trans
            (run_items (value :: values) (List.cons_ne_nil _ _) [] stack marks)
  | object fields =>
      rw [Value.marks, List.append_assoc, List.cons_append, run_cons_of_step rfl]
      cases fields with
      | nil => rfl
      | cons field fields =>
          exact (run_firstField _ _ field fields).trans
            (run_fields (field :: fields) (List.cons_ne_nil _ _) [] stack marks)

theorem run_items (values : List Value) (hne : values ≠ []) (items : List Value)
    (stack : List Frame) (marks : List Mark) :
    run ⟨.array items :: stack, .value⟩
        (separated (Value.itemParts values) ++ .closeArray :: marks) =
      run ⟨stack, .behind (.array (items.reverse ++ values))⟩ marks := by
  match values with
  | [] => exact absurd rfl hne
  | [value] => exact (run_marks value _ _).trans (run_closeArray stack marks items value)
  | value :: other :: values =>
      have hmore := run_items (other :: values) (List.cons_ne_nil _ _) (value :: items) stack marks
      rw [List.reverse_cons, List.append_assoc] at hmore
      rw [Value.itemParts, Value.itemParts, separated, List.append_assoc, run_marks value]
      exact hmore

theorem run_fields (entries : List (Bytes × Value)) (hne : entries ≠ [])
    (fields : List (Bytes × Value)) (stack : List Frame) (marks : List Mark) :
    run ⟨stack, .nextField fields⟩
        (separated (Value.fieldParts entries) ++ .closeObject :: marks) =
      run ⟨stack, .behind (.object (fields.reverse ++ entries))⟩ marks := by
  match entries with
  | [] => exact absurd rfl hne
  | [(key, value)] =>
      exact (run_marks value _ _).trans (run_closeObject stack marks fields key value)
  | (key, value) :: (other, next) :: entries =>
      have hmore := run_fields ((other, next) :: entries) (List.cons_ne_nil _ _)
        ((key, value) :: fields) stack marks
      rw [List.reverse_cons, List.append_assoc] at hmore
      rw [Value.fieldParts, Value.fieldParts, separated, List.append_assoc, List.cons_append,
        List.cons_append, run_cons_of_step rfl, run_cons_of_step rfl, run_marks value]
      exact hmore

end

end Reading

/-!
## Nothing else is read

What a reading has taken can be told from where it stands: the open arrays and objects up to where
they have come, and then the value behind which it stands, or the beginning of what it stands in.
-/

def closedParts (parts : List (List Mark)) : List Mark :=
  parts.flatMap fun part => part ++ [.comma]

theorem closedParts_concat (parts : List (List Mark)) (part : List Mark) :
    closedParts (parts ++ [part]) = closedParts parts ++ part ++ [.comma] := by
  rw [closedParts, List.flatMap_append, List.flatMap_singleton, ← List.append_assoc]
  rfl

theorem separated_concat (parts : List (List Mark)) (part : List Mark) :
    separated (parts ++ [part]) = closedParts parts ++ part := by
  induction parts with
  | nil => rfl
  | cons first parts ih =>
      rw [closedParts, List.flatMap_cons, ← closedParts, List.append_assoc, ← ih]
      cases parts <;> exact (List.append_assoc first [.comma] _).symm

namespace Value

theorem itemParts_reverse_cons (value : Value) (items : List Value) :
    itemParts (value :: items).reverse = itemParts items.reverse ++ [value.marks] := by
  rw [List.reverse_cons]
  induction items.reverse with
  | nil => rfl
  | cons first items ih => exact congrArg (first.marks :: ·) ih

theorem fieldParts_reverse_cons (key : Bytes) (value : Value) (fields : List (Bytes × Value)) :
    fieldParts ((key, value) :: fields).reverse =
      fieldParts fields.reverse ++ [.scalar (.string key) :: .colon :: value.marks] := by
  rw [List.reverse_cons]
  induction fields.reverse with
  | nil => rfl
  | cons first fields ih =>
      exact congrArg ((.scalar (.string first.1) :: .colon :: first.2.marks) :: ·) ih

end Value

def takenFields (fields : List (Bytes × Value)) : List Mark :=
  .openObject :: closedParts (Value.fieldParts fields.reverse)

def Frame.taken : Frame -> List Mark
  | .array items => .openArray :: closedParts (Value.itemParts items.reverse)
  | .object fields key => takenFields fields ++ [.scalar (.string key), .colon]

def Point.taken : Point -> List Mark
  | .value => []
  | .firstItem => [.openArray]
  | .firstField => [.openObject]
  | .nextField fields => takenFields fields
  | .colon fields key => takenFields fields ++ [.scalar (.string key)]
  | .behind found => found.marks

namespace Reading

def takenOpen (stack : List Frame) : List Mark :=
  stack.reverse.flatMap Frame.taken

theorem takenOpen_cons (frame : Frame) (stack : List Frame) :
    takenOpen (frame :: stack) = takenOpen stack ++ frame.taken := by
  rw [takenOpen, List.reverse_cons, List.flatMap_append, List.flatMap_singleton, takenOpen]

def taken (r : Reading) : List Mark :=
  takenOpen r.stack ++ r.point.taken

variable {r r' : Reading} {stack : List Frame} {mark : Mark} {fields : List (Bytes × Value)}
  {value : Value}

theorem taken_stepValue (h : stepValue stack mark = some r) :
    r.taken = takenOpen stack ++ [mark] := by
  unfold stepValue at h
  split at h <;> cases h <;> rfl

theorem taken_stepKey (h : stepKey stack fields mark = some r) :
    r.taken = takenOpen stack ++ takenFields fields ++ [mark] := by
  unfold stepKey at h
  split at h
  · cases h
    exact (List.append_assoc _ _ _).symm
  · cases h

theorem taken_stepBehind (h : stepBehind value stack mark = some r) :
    r.taken = takenOpen stack ++ value.marks ++ [mark] := by
  unfold stepBehind at h
  split at h
  · cases h
    rw [taken, takenOpen_cons, takenOpen_cons, Frame.taken, Value.itemParts_reverse_cons,
      closedParts_concat]
    simp only [Frame.taken, Point.taken, List.append_nil, List.append_assoc, List.cons_append]
  · cases h
    rw [taken, takenOpen_cons, Point.taken, Value.marks, Value.itemParts_reverse_cons,
      separated_concat]
    simp only [Frame.taken, List.append_assoc, List.cons_append]
  · rename_i key stack
    cases h
    rw [taken, takenOpen_cons, Point.taken, takenFields, Value.fieldParts_reverse_cons,
      closedParts_concat]
    simp only [Frame.taken, takenFields, List.append_assoc, List.cons_append, List.nil_append]
  · rename_i key stack
    cases h
    rw [taken, takenOpen_cons, Point.taken, Value.marks, Value.fieldParts_reverse_cons,
      separated_concat]
    simp only [Frame.taken, takenFields, List.append_assoc, List.cons_append, List.nil_append]
  · cases h

theorem taken_step (h : r.step mark = some r') : r'.taken = r.taken ++ [mark] := by
  rcases r with ⟨stack, point⟩
  unfold step at h
  cases point with
  | value => exact (taken_stepValue h).trans (by rw [taken, Point.taken, List.append_nil])
  | firstItem =>
      dsimp only at h
      split at h
      · rename_i hclose
        cases h
        rw [hclose, taken, taken, List.append_assoc]
        rfl
      · rw [taken_stepValue h, takenOpen_cons]
        rfl
  | firstField =>
      dsimp only at h
      split at h
      · rename_i hclose
        cases h
        rw [hclose, taken, taken, List.append_assoc]
        rfl
      · exact taken_stepKey h
  | nextField fields => exact taken_stepKey h
  | colon fields key =>
      dsimp only at h
      split at h
      · rename_i hcolon
        cases h
        rw [hcolon, taken, takenOpen_cons, taken]
        simp only [Frame.taken, Point.taken, List.append_nil, List.append_assoc, List.cons_append,
          List.nil_append]
      · cases h
  | behind value => exact taken_stepBehind h

theorem taken_run {marks : List Mark} (h : r.run marks = some r') :
    r'.taken = r.taken ++ marks := by
  induction marks generalizing r with
  | nil =>
      cases h
      exact (List.append_nil _).symm
  | cons mark marks ih =>
      rw [run] at h
      rcases Option.bind_eq_some_iff.mp h with ⟨next, hstep, hrun⟩
      rw [ih hrun, taken_step hstep, List.append_assoc]
      rfl

end Reading

theorem Value.ofMarks?_eq_some_iff {marks : List Mark} {value : Value} :
    ofMarks? marks = some value ↔ marks = value.marks := by
  constructor
  · intro h
    rcases Option.bind_eq_some_iff.mp h with ⟨r, hrun, hvalue⟩
    have htaken := Reading.taken_run hrun
    rcases r with ⟨stack, point⟩
    unfold Reading.value? at hvalue
    split at hvalue
    · rename_i found hr
      cases hvalue
      cases hr
      exact htaken.symm
    · cases hvalue
  · rintro rfl
    have hrun := Reading.run_marks value [] []
    rw [List.append_nil] at hrun
    rw [ofMarks?, Reading.start, hrun]
    rfl

end Report
end StyleTrim
