import StyleTrim.Filter
import StyleTrim.Merge.Merger

/-!
# Results of jobs

What a job says of itself when it is done. After a fault the result holds what was known by then,
and the rest is as if nothing had been found.
-/

namespace StyleTrim
namespace Job

structure FilterResult where
  ok : Bool := false
  fault : Fault := .nothing
  htmlPath : Bytes := []
  cssPath : Bytes := []
  outputPath : Bytes := []
  inputBytes : Nat := 0
  outputBytes : Nat := 0
  tags : Nat := 0
  ids : Nat := 0
  classes : Nat := 0
  attributes : Nat := 0
  stats : Filter.Stats := {}
  reduction : Int := 0
  duration : Int := 0

structure MergeResult where
  ok : Bool := false
  fault : Fault := .nothing
  warnings : List Fault := []
  inputFiles : List Bytes := []
  inputBytes : Nat := 0
  outputPath : Bytes := []
  outputBytes : Nat := 0
  stats : Merge.Stats := {}
  reduction : Int := 0
  duration : Int := 0

end Job
end StyleTrim
