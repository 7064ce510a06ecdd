import StyleTrim.CommandLine.Arguments

/-!
# Arguments in any order

The arguments of a command fall into units: a flag, an option with its value, a path. What the units
ask for is said here without reading them one after another. Reading gives just that, so where an
option is given only once nothing depends on the order of the units, but for the order of the paths.
-/

namespace StyleTrim
namespace CommandLine

def verboseFlag (short : Bool) : Bytes :=
  if short then ascii "-v" else ascii "--verbose"

theorem isVerbose_verboseFlag (short : Bool) : isVerbose (verboseFlag short) = true := by
  cases short <;> rfl

theorem eq_of_perm_of_length_le_one {α : Type} {xs ys : List α} (h : xs.Perm ys)
    (hone : xs.length ≤ 1) : ys = xs := by
  cases xs with
  | nil => exact h.nil_eq.symm
  | cons x rest =>
      cases rest with
      | nil => exact h.singleton_eq.symm
      | cons y rest => simp at hone

theorem read_flatMap {unit state result : Type} {read : state -> List Bytes -> result}
    {arguments : unit -> List Bytes} {after : List unit -> state} {valid : unit -> Prop}
    (hstep : ∀ u, valid u -> ∀ us rest,
      read (after us) (arguments u ++ rest) = read (after (us ++ [u])) rest)
    {us : List unit} (hvalid : ∀ u ∈ us, valid u) (before : List unit) :
    read (after before) (us.flatMap arguments) = read (after (before ++ us)) [] := by
  induction us generalizing before with
  | nil => rw [List.flatMap_nil, List.append_nil]
  | cons u us ih =>
      rw [List.forall_mem_cons] at hvalid
      rw [List.flatMap_cons, hstep u hvalid.1, ih hvalid.2, List.append_assoc]
      rfl

/-!
## The filter command
-/

inductive FilterUnit where
  | verbose (short : Bool)
  | option (o : FilterOption) (value : Bytes)
deriving DecidableEq

namespace FilterUnit

def arguments : FilterUnit -> List Bytes
  | .verbose short => [verboseFlag short]
  | .option o value => [o.name, value]

def isVerboseFlag : FilterUnit -> Bool
  | .verbose _ => true
  | .option _ _ => false

def value? (o : FilterOption) : FilterUnit -> Option Bytes
  | .verbose _ => none
  | .option o' value => if o' = o then some value else none

def valuesOf (us : List FilterUnit) (o : FilterOption) : List Bytes :=
  us.filterMap (value? o)

def CountsBytes (value : Bytes) : Prop :=
  value ≠ [] ∧ value.all Byte.isDigit = true ∧ 0 < Decimal.value value ∧
    Decimal.value value < 0x10000000000000000

def IsValid (u : FilterUnit) : Prop :=
  ∀ value ∈ u.value? .maxBytes, CountsBytes value

/-- The units are valid, and every option is given once at most. -/
structure IsLine (us : List FilterUnit) : Prop where
  valid : ∀ u ∈ us, u.IsValid
  once : ∀ o, (valuesOf us o).length ≤ 1

/-- The value that counts is the last one. -/
def textOf (us : List FilterUnit) (o : FilterOption) : Bytes :=
  (valuesOf us o).getLast?.getD []

/-- What the units ask for. -/
def order (us : List FilterUnit) : Order Job.FilterRequest where
  request :=
    { htmlPath := textOf us .html
      cssPath := textOf us .css
      outputPath := textOf us .output
      baseDirectory := textOf us .baseDirectory
      options :=
        { maxBytes :=
            ((valuesOf us .maxBytes).getLast?.map Decimal.value).getD defaultMaxBytes } }
  verbose := us.any isVerboseFlag

theorem byteCount?_of_countsBytes {value : Bytes} (h : CountsBytes value) :
    byteCount? value = some (Decimal.value value) := by
  rcases h with ⟨hne, hdigits, hpos, hfits⟩
  have hread : Decimal.toNat? value = some (Decimal.value value) := if_pos ⟨hne, hdigits⟩
  rw [byteCount?, hread, Option.filter_some, if_pos]
  simp [hpos, hfits]

theorem ofName?_name (o : FilterOption) : FilterOption.ofName? o.name = some o := by
  cases o <;> decide

theorem isVerbose_name (o : FilterOption) : isVerbose o.name = false := by
  cases o <;> decide

variable {us vs : List FilterUnit} {u : FilterUnit}

theorem valuesOf_concat (us : List FilterUnit) (u : FilterUnit) (o : FilterOption) :
    valuesOf (us ++ [u]) o = valuesOf us o ++ (u.value? o).toList := by
  rw [valuesOf, List.filterMap_append, List.filterMap_cons, ← valuesOf]
  cases u.value? o <;> rfl

theorem order_verbose (us : List FilterUnit) (short : Bool) :
    order (us ++ [.verbose short]) = { order us with verbose := true } := by
  simp [order, textOf, valuesOf_concat, value?, isVerboseFlag]

theorem order_option (us : List FilterUnit) {o : FilterOption} {value : Bytes}
    (hvalid : (option o value).IsValid) :
    o.fill (order us).request value = .ok (order (us ++ [.option o value])).request ∧
      (order (us ++ [.option o value])).verbose = (order us).verbose := by
  constructor
  · cases o with
    | maxBytes =>
        rw [FilterOption.fill, byteCount?_of_countsBytes (hvalid value rfl)]
        simp [order, textOf, valuesOf_concat, value?]
    | _ => simp [FilterOption.fill, order, textOf, valuesOf_concat, value?]
  · simp [order, isVerboseFlag]

theorem read_unit (hvalid : u.IsValid) (us : List FilterUnit) (rest : List Bytes) :
    readFilterArguments (order us) (u.arguments ++ rest) =
      readFilterArguments (order (us ++ [u])) rest := by
  cases u with
  | verbose short =>
      change readFilterArguments (order us) (verboseFlag short :: rest) = _
      rw [order_verbose, readFilterArguments, if_pos (isVerbose_verboseFlag short)]
  | option o value =>
      rcases order_option us hvalid with ⟨hfill, hverbose⟩
      have hname : ¬isVerbose o.name = true := by simp [isVerbose_name]
      change readFilterArguments (order us) (o.name :: value :: rest) = _
      rw [readFilterArguments, if_neg hname, ofName?_name]
      dsimp only
      rw [hfill, ← hverbose]

theorem order_of_perm (h : IsLine us) (hperm : us.Perm vs) : order vs = order us := by
  have hvalues : ∀ o, valuesOf vs o = valuesOf us o := by
    intro o
    exact eq_of_perm_of_length_le_one (hperm.filterMap (value? o)) (h.once o)
  simp only [order, textOf, hvalues, hperm.any_eq]

/-- What comes of the units as the arguments of the command. -/
def answer (us : List FilterUnit) : Except UsageError Command :=
  if isComplete (order us).request then .ok (.filter (order us)) else .error .filterIncomplete

theorem read_of_perm (h : IsLine us) (hperm : us.Perm vs) :
    readFilterArguments { request := {} } (vs.flatMap arguments) = .ok (order us) := by
  have hvalid : ∀ u ∈ vs, u.IsValid := fun u hu => h.valid u (hperm.mem_iff.mpr hu)
  have hread : readFilterArguments (order []) (vs.flatMap arguments) =
      readFilterArguments (order vs) [] :=
    read_flatMap (fun _ => read_unit) hvalid []
  rw [order_of_perm h hperm] at hread
  exact hread

theorem parse_of_perm (h : IsLine us) (hperm : us.Perm vs) :
    parse (ascii "filter" :: vs.flatMap arguments) = answer us := by
  have hfilter : parse (ascii "filter" :: vs.flatMap arguments) =
      (filterOrder (vs.flatMap arguments)).map .filter := rfl
  rw [hfilter, filterOrder, read_of_perm h hperm, answer]
  dsimp only
  split <;> rfl

end FilterUnit

/-!
## The merge command
-/

inductive MergeUnit where
  | verbose (short : Bool)
  | flag (f : MergeFlag)
  | baseDirectory (value : Bytes)
  | path (value : Bytes)
deriving DecidableEq

namespace MergeUnit

def arguments : MergeUnit -> List Bytes
  | .verbose short => [verboseFlag short]
  | .flag f => [f.name]
  | .baseDirectory value => [ascii "--base-dir", value]
  | .path value => [value]

def isVerboseFlag : MergeUnit -> Bool
  | .verbose _ => true
  | _ => false

def baseDirectory? : MergeUnit -> Option Bytes
  | .baseDirectory value => some value
  | _ => none

def path? : MergeUnit -> Option Bytes
  | .path value => some value
  | _ => none

def baseDirectoriesOf (us : List MergeUnit) : List Bytes :=
  us.filterMap baseDirectory?

/-- The paths, in their order. -/
def pathsOf (us : List MergeUnit) : List Bytes :=
  us.filterMap path?

/-- A path is told from an option: it does not begin with a hyphen, or is that hyphen alone. -/
def IsValid (u : MergeUnit) : Prop :=
  ∀ value ∈ u.path?, looksLikeOption value = false

/-- The units are valid, and a base directory is given once at most. -/
structure IsLine (us : List MergeUnit) : Prop where
  valid : ∀ u ∈ us, u.IsValid
  once : (baseDirectoriesOf us).length ≤ 1

/-- What the units ask for. A flag that is given switches its option, however often it is given. -/
def given (us : List MergeUnit) : MergeArguments where
  options :=
    { combineMedia := decide (.flag .noCombineMedia ∉ us)
      dedupFontFaces := decide (.flag .keepFontFaces ∉ us)
      dedupKeyframes := decide (.flag .keepKeyframes ∉ us)
      removeEmpty := decide (.flag .removeEmpty ∈ us) }
  baseDirectory := (baseDirectoriesOf us).getLast?.getD []
  verbose := us.any isVerboseFlag
  paths := pathsOf us

variable {us vs : List MergeUnit} {u : MergeUnit}

theorem ofName?_name (f : MergeFlag) : MergeFlag.ofName? f.name = some f := by
  cases f <;> decide

theorem isVerbose_name (f : MergeFlag) : isVerbose f.name = false := by
  cases f <;> decide

theorem isPath_of_valid {value : Bytes} (hvalid : looksLikeOption value = false) :
    isVerbose value = false ∧ MergeFlag.ofName? value = none ∧
      value ≠ ascii "--base-dir" := by
  have hne : ∀ word, looksLikeOption word = true -> value ≠ word := by
    rintro word hword rfl
    rw [hvalid] at hword
    cases hword
  have hlong : value ≠ ascii "--verbose" := hne _ (by decide)
  have hshort : value ≠ ascii "-v" := hne _ (by decide)
  constructor
  · simp [isVerbose, hlong, hshort]
  · constructor
    · rw [MergeFlag.ofName?, List.find?_eq_none]
      intro f hf
      have hflag : looksLikeOption f.name = true := by
        cases f <;> decide
      simpa using (hne f.name hflag).symm
    · exact hne _ (by decide)

theorem given_verbose (us : List MergeUnit) (short : Bool) :
    given (us ++ [.verbose short]) = { given us with verbose := true } := by
  simp [given, baseDirectoriesOf, pathsOf, baseDirectory?, path?, isVerboseFlag]

theorem given_flag (us : List MergeUnit) (f : MergeFlag) :
    given (us ++ [.flag f]) = { given us with options := f.apply (given us).options } := by
  cases f <;>
  simp [given, baseDirectoriesOf, pathsOf, baseDirectory?, path?, isVerboseFlag, MergeFlag.apply]

theorem given_baseDirectory (us : List MergeUnit) (value : Bytes) :
    given (us ++ [.baseDirectory value]) = { given us with baseDirectory := value } := by
  simp [given, baseDirectoriesOf, pathsOf, baseDirectory?, path?, isVerboseFlag]

theorem given_path (us : List MergeUnit) (value : Bytes) :
    given (us ++ [.path value]) = { given us with paths := (given us).paths ++ [value] } := by
  simp [given, baseDirectoriesOf, pathsOf, baseDirectory?, path?, isVerboseFlag]

theorem read_unit (hvalid : u.IsValid) (us : List MergeUnit) (rest : List Bytes) :
    readMergeArguments (given us) (u.arguments ++ rest) =
      readMergeArguments (given (us ++ [u])) rest := by
  cases u with
  | verbose short =>
      change readMergeArguments (given us) (verboseFlag short :: rest) = _
      rw [given_verbose, readMergeArguments.eq_def]
      exact if_pos (isVerbose_verboseFlag short)
  | flag f =>
      have hname : ¬isVerbose f.name = true := by simp [isVerbose_name]
      change readMergeArguments (given us) (f.name :: rest) = _
      rw [given_flag, readMergeArguments.eq_def]
      dsimp only
      rw [if_neg hname, ofName?_name]
  | baseDirectory value =>
      rw [given_baseDirectory]
      rfl
  | path value =>
      rcases isPath_of_valid (hvalid value rfl) with ⟨hverbose, hflag, hbase⟩
      have hoption : ¬looksLikeOption value = true := by simp [hvalid value rfl]
      change readMergeArguments (given us) (value :: rest) = _
      rw [given_path, readMergeArguments.eq_def]
      dsimp only
      rw [if_neg (by simp [hverbose]), hflag]
      dsimp only
      rw [if_neg hbase, if_neg hoption]

theorem given_of_perm (h : IsLine us) (hperm : us.Perm vs) (hpaths : pathsOf vs = pathsOf us) :
    given vs = given us := by
  have hbase : baseDirectoriesOf vs = baseDirectoriesOf us :=
    eq_of_perm_of_length_le_one (hperm.filterMap baseDirectory?) h.once
  simp only [given, hbase, hpaths, hperm.any_eq, hperm.mem_iff]

/-- What comes of the units as the arguments of the command: the first path is the output, and the
other ones are the inputs. -/
def answer (us : List MergeUnit) : Except UsageError Command :=
  match pathsOf us with
  | output :: input :: inputs =>
      .ok <| .merge
        { request :=
            { inputPaths := input :: inputs
              outputPath := output
              baseDirectory := (given us).baseDirectory
              options := (given us).options }
          verbose := (given us).verbose }
  | _ => .error .mergeIncomplete

theorem read_of_perm (h : IsLine us) (hperm : us.Perm vs) (hpaths : pathsOf vs = pathsOf us) :
    readMergeArguments {} (vs.flatMap arguments) = .ok (given us) := by
  have hvalid : ∀ u ∈ vs, u.IsValid := fun u hu => h.valid u (hperm.mem_iff.mpr hu)
  have hread : readMergeArguments (given []) (vs.flatMap arguments) =
      readMergeArguments (given vs) [] :=
    read_flatMap (fun _ => read_unit) hvalid []
  rw [given_of_perm h hperm hpaths] at hread
  exact hread

theorem parse_of_perm (h : IsLine us) (hperm : us.Perm vs) (hpaths : pathsOf vs = pathsOf us) :
    parse (ascii "merge" :: vs.flatMap arguments) = answer us := by
  have hmerge : parse (ascii "merge" :: vs.flatMap arguments) =
      (mergeOrder (vs.flatMap arguments)).map .merge := rfl
  have hgiven : (given us).paths = pathsOf us := rfl
  rw [hmerge, mergeOrder, read_of_perm h hperm hpaths, answer]
  dsimp only
  rw [hgiven]
  cases pathsOf us with
  | nil => rfl
  | cons output paths =>
      cases paths with
      | nil => rfl
      | cons input inputs => rfl

end MergeUnit

/-!
## Both commands
-/

/-- The units of a line ask for the same in every order that leaves the paths in theirs. -/
theorem units_commute :
    (∀ us vs : List FilterUnit, FilterUnit.IsLine us -> us.Perm vs ->
      readFilterArguments { request := {} } (vs.flatMap FilterUnit.arguments) =
          .ok (FilterUnit.order us) ∧
        parse (ascii "filter" :: vs.flatMap FilterUnit.arguments) =
          parse (ascii "filter" :: us.flatMap FilterUnit.arguments) ∧
        parse (ascii "filter" :: us.flatMap FilterUnit.arguments) = FilterUnit.answer us) ∧
    (∀ us vs : List MergeUnit, MergeUnit.IsLine us -> us.Perm vs ->
      MergeUnit.pathsOf vs = MergeUnit.pathsOf us ->
      readMergeArguments {} (vs.flatMap MergeUnit.arguments) = .ok (MergeUnit.given us) ∧
        parse (ascii "merge" :: vs.flatMap MergeUnit.arguments) =
          parse (ascii "merge" :: us.flatMap MergeUnit.arguments) ∧
        parse (ascii "merge" :: us.flatMap MergeUnit.arguments) = MergeUnit.answer us) := by
  constructor
  · intro us vs hline hperm
    have hanswer := FilterUnit.parse_of_perm hline (List.Perm.refl us)
    constructor
    · exact FilterUnit.read_of_perm hline hperm
    · constructor
      · rw [hanswer, FilterUnit.parse_of_perm hline hperm]
      · exact hanswer
  · intro us vs hline hperm hpaths
    have hanswer := MergeUnit.parse_of_perm hline (List.Perm.refl us) rfl
    constructor
    · exact MergeUnit.read_of_perm hline hperm hpaths
    · constructor
      · rw [hanswer, MergeUnit.parse_of_perm hline hperm hpaths]
      · exact hanswer

def filterUnits : List FilterUnit :=
  [.option .html (ascii "page"), .option .css (ascii "--output"), .option .output (ascii "-v"),
    .option .maxBytes (ascii "0512"), .verbose true, .verbose false]

def mergeUnits : List MergeUnit :=
  [.path (ascii "all.css"), .flag .removeEmpty, .baseDirectory (ascii "--verbose"),
    .path (ascii "-"), .path (ascii "b.css"), .flag .removeEmpty]

theorem units_commute_with_values_like_options :
    parse (ascii "filter" :: [ascii "--verbose", ascii "--output", ascii "-v", ascii "--css",
        ascii "--output", ascii "-v", ascii "--max-input-bytes", ascii "0512", ascii "--html",
        ascii "page"]) =
      .ok (.filter
        { request :=
            { htmlPath := ascii "page"
              cssPath := ascii "--output"
              outputPath := ascii "-v"
              options := { maxBytes := 512 } }
          verbose := true }) ∧
    parse (ascii "merge" :: [ascii "--base-dir", ascii "--verbose", ascii "--remove-empty-rules",
        ascii "all.css", ascii "-", ascii "--remove-empty-rules", ascii "b.css"]) =
      .ok (.merge
        { request :=
            { inputPaths := [ascii "-", ascii "b.css"]
              outputPath := ascii "all.css"
              baseDirectory := ascii "--verbose"
              options := { removeEmpty := true } } }) := by
  have hlimit : FilterUnit.CountsBytes (ascii "0512") := by
    constructor <;> decide +kernel
  have hpaths : [ascii "all.css", ascii "-", ascii "b.css"].any looksLikeOption = false := by
    decide +kernel
  have hfilter : FilterUnit.IsLine filterUnits := by
    constructor
    · simp [filterUnits, FilterUnit.IsValid, FilterUnit.value?, hlimit]
    · intro o
      cases o <;> decide +kernel
  have hmerge : MergeUnit.IsLine mergeUnits := by
    constructor
    · simpa [mergeUnits, MergeUnit.IsValid, MergeUnit.path?] using hpaths
    · decide +kernel
  have hfilterPerm : filterUnits.Perm
      [.verbose false, .option .output (ascii "-v"), .option .css (ascii "--output"),
        .verbose true, .option .maxBytes (ascii "0512"), .option .html (ascii "page")] := by
    decide +kernel
  have hmergePerm : mergeUnits.Perm
      [.baseDirectory (ascii "--verbose"), .flag .removeEmpty, .path (ascii "all.css"),
        .path (ascii "-"), .flag .removeEmpty, .path (ascii "b.css")] := by
    decide +kernel
  rcases units_commute.1 _ _ hfilter hfilterPerm with ⟨-, hsame, hanswer⟩
  rcases units_commute.2 _ _ hmerge hmergePerm rfl with ⟨-, hsame', hanswer'⟩
  exact ⟨hsame.trans hanswer, hsame'.trans hanswer'⟩

end CommandLine
end StyleTrim
