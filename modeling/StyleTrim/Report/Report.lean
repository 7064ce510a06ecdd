import StyleTrim.Job.Result
import StyleTrim.Report.Writer

/-!
# Reports

Each result, and each fault, as a JSON object.
-/

namespace StyleTrim
namespace Report

def ofFilter (r : Job.FilterResult) : Writer :=
  Writer.start
    |>.bool "success" true
    |>.beginObject "input"
    |>.text "html" r.htmlPath
    |>.text "css" r.cssPath
    |>.number "cssSize" r.inputBytes
    |>.endObject
    |>.beginObject "output"
    |>.text "path" r.outputPath
    |>.number "size" r.outputBytes
    |>.endObject
    |>.beginObject "htmlAnalysis"
    |>.number "tags" r.tags
    |>.number "ids" r.ids
    |>.number "classes" r.classes
    |>.number "attributes" r.attributes
    |>.endObject
    |>.beginObject "stats"
    |>.number "totalRules" r.stats.total
    |>.number "keptRules" r.stats.kept
    |>.number "removedRules" r.stats.removed
    |>.number "atRules" r.stats.atRules
    |>.number "mediaQueries" r.stats.mediaQueries
    |>.text "reduction" (percent r.reduction)
    |>.number "durationMs" r.duration
    |>.endObject

def ofMerge (r : Job.MergeResult) : Writer :=
  Writer.start
    |>.bool "success" true
    |>.beginObject "input"
    |>.texts "files" r.inputFiles
    |>.number "fileCount" r.inputFiles.length
    |>.number "totalSize" r.inputBytes
    |>.number "totalRules" r.stats.inputRules
    |>.endObject
    |>.beginObject "output"
    |>.text "path" r.outputPath
    |>.number "size" r.outputBytes
    |>.number "rules" r.stats.outputRules
    |>.endObject
    |>.beginObject "stats"
    |>.number "inputRules" r.stats.inputRules
    |>.number "outputRules" r.stats.outputRules
    |>.number "duplicateRulesRemoved" r.stats.duplicates
    |>.number "fontFacesDeduped" r.stats.fontFaces
    |>.number "keyframesDeduped" r.stats.keyframes
    |>.number "mediaQueriesCombined" r.stats.media
    |>.number "emptyRulesRemoved" r.stats.empty
    |>.text "reduction" (percent r.reduction)
    |>.number "durationMs" r.duration
    |>.endObject
    |>.texts "warnings" (r.warnings.map Fault.message)

/-- A path and a hint are left out where there is none. -/
def ofFault (f : Fault) : Writer :=
  let w := Writer.start
    |>.bool "success" false
    |>.text "error" f.message
    |>.text "kind" f.kind.name
  let w := if f.path.isEmpty then w else w.text "path" f.path
  if f.hint.isEmpty then w else w.text "hint" f.hint

end Report
end StyleTrim
