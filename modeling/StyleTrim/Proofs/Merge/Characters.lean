import StyleTrim.Proofs.Filter.Liveness
import StyleTrim.Proofs.Merge.Declared
import StyleTrim.Proofs.Sanitize.Characters
import StyleTrim.Proofs.Sheet.Characters
import StyleTrim.Proofs.Sheet.Compare

/-!
# Valid texts in, valid texts out

Both jobs read trees, move their nodes about, write them and sanitize what was written. A merge
makes new nodes as well, but their condition is that of a media rule that was read, and what stands
inside of them stood inside of such rules. So from valid texts both jobs make valid texts.
-/

namespace StyleTrim

open Utf8

namespace Merge

/-!
## Merged trees
-/

theorem siftAfter_subset {α : Type} (keeps : List α -> α -> Bool) (earlier as : List α) :
    siftAfter keeps earlier as ⊆ as := by
  induction as generalizing earlier with
  | nil => exact List.Subset.refl _
  | cons a as ih =>
      intro b hb
      rw [siftAfter, List.mem_append] at hb
      rcases hb with hb | hb
      · split at hb
        · exact List.mem_cons.mpr (Or.inl (List.mem_singleton.mp hb))
        · cases hb
      · exact List.mem_cons_of_mem a (ih _ hb)

theorem gather_subset (o : Options) (nodes : List Node) : gather o nodes ⊆ nodes :=
  fun _ hnode => (List.mem_filter.mp (siftAfter_subset _ _ _ hnode)).1

variable {o : Options} {nodes : List Node}

theorem isValid_condition {node : Node} {condition : Bytes} (h : node.IsWhole)
    (hcondition : condition? o node = some condition) : IsValid condition := by
  unfold condition? at hcondition
  split at hcondition
  · rename_i name prelude block heq
    split at hcondition
    · cases hcondition
      have hhead := h.head
      rw [heq] at hhead
      exact hhead.2
    · cases hcondition
  · cases hcondition

theorem isWhole_combinedBlock {condition : Bytes} (h : ∀ node ∈ nodes, node.IsWhole)
    (hcondition : condition ∈ conditions o nodes) : (combinedBlock o nodes condition).IsWhole := by
  refine .mk ⟨isValid_of_ascii (by decide +kernel), ?_⟩ ?_
  · rcases List.mem_filterMap.mp (siftAfter_subset _ _ _ hcondition) with ⟨node, hnode, hsome⟩
    exact isValid_condition (h node hnode) hsome
  · intro child hchild
    rcases List.mem_flatMap.mp (gather_subset o _ hchild) with ⟨node, hnode, hinside⟩
    exact (h node (List.mem_filter.mp hnode).1).children child hinside

theorem isWhole_mergedSheet (h : ∀ node ∈ nodes, node.IsWhole) :
    ∀ node ∈ mergedSheet o nodes, node.IsWhole := by
  intro node hnode
  simp only [mergedSheet, List.mem_append, Option.mem_toList] at hnode
  rcases hnode with ((hcharset | himport) | hbody) | hblock
  · exact h node (List.mem_of_find?_eq_some hcharset)
  · exact h node (List.mem_filter.mp himport).1
  · exact h node (siftAfter_subset _ _ _ hbody)
  · rcases List.mem_map.mp (List.mem_filter.mp hblock).1 with ⟨condition, hcondition, rfl⟩
    exact isWhole_combinedBlock h hcondition

theorem isWhole_acceptedNodes {input : Input} (h : IsValid input.text) :
    ∀ node ∈ acceptedNodes o input, node.IsWhole := by
  unfold acceptedNodes
  split
  · split
    · rename_i sheet hread
      exact Sheet.isWhole_of_parseWithFallback h hread
    · exact nofun
  · exact nofun

end Merge

/-!
## The jobs
-/

/-- What filtering a valid text gives is valid, and so is what merging valid texts gives. -/
theorem valid_out_of_valid_in :
    (∀ (o : Filter.Options) (facts : Facts) (css : Bytes) (output : Filter.Output),
      IsValid css -> (Filter.run o facts css).1 = .ok output -> IsValid output.css) ∧
    (∀ (o : Merge.Options) (inputs : List Merge.Input),
      (∀ input ∈ inputs, IsValid input.text) -> IsValid (Merge.run o inputs).1.css) := by
  constructor
  · intro o facts css output hvalid hrun
    rcases Filter.run_cases hrun with ⟨sheet, hread, rfl⟩
    have hwhole := Sheet.isWhole_of_parseWithFallback hvalid hread
    apply isValid_sanitize
    apply Sheet.isValid_write
    exact fun node hnode => hwhole node (List.mem_filter.mp hnode).1
  · intro o inputs hvalid
    rw [(Merge.run_assembles o inputs).1, Merge.assemble_sheet]
    apply isValid_sanitize
    apply Sheet.isValid_write
    apply Merge.isWhole_mergedSheet
    intro node hnode
    rcases List.mem_flatMap.mp hnode with ⟨input, hinput, hnode⟩
    exact Merge.isWhole_acceptedNodes (hvalid input hinput) node hnode

def characters (s : String) : Bytes :=
  s.toList.flatMap String.utf8EncodeChar

def escapedText : Bytes :=
  characters "@\\é\\1D11E ü\x7bcontent:\"ß"

def unescapedText : Bytes :=
  characters "@é𝄞ü\x7bcontent:\"ß\"\x7d"

theorem valid_out_of_valid_in_escaped :
    IsValid escapedText ∧
      (∃ output, (Filter.run {} ⟨[], [], [], []⟩ escapedText).1 = .ok output ∧
        output.css = unescapedText ∧ IsValid output.css) ∧
      (Merge.run {} [⟨[], escapedText⟩, ⟨[], escapedText⟩]).1.css =
        unescapedText ++ unescapedText ∧
      IsValid (Merge.run {} [⟨[], escapedText⟩, ⟨[], escapedText⟩]).1.css := by
  have hvalid : IsValid escapedText := ⟨_, rfl⟩
  have hcss : (Filter.run {} ⟨[], [], [], []⟩ escapedText).1.toOption.map Filter.Output.css =
      some unescapedText := by
    decide +kernel
  rcases Option.map_eq_some_iff.mp hcss with ⟨output, hrun, houtput⟩
  have hfilter := eq_ok_of_toOption hrun
  refine ⟨hvalid, ⟨output, hfilter, houtput, valid_out_of_valid_in.1 _ _ _ _ hvalid hfilter⟩,
    by decide +kernel, valid_out_of_valid_in.2 _ _ ?_⟩
  intro input hinput
  rcases List.mem_cons.mp hinput with rfl | hinput
  · exact hvalid
  · obtain rfl := List.mem_singleton.mp hinput
    exact hvalid

end StyleTrim
