import StyleTrim.Proofs.Merge.Declared

/-!
# The books of a merge

Every rule that comes in is written, or dropped and counted as such. While the sheet is assembled
this does not hold: a rule inside of a gathered media block has come in, but it waits in its bucket
and counts as written only at the end. So the books are kept with what waits.
-/

namespace StyleTrim
namespace Merge

open Assembly

/-!
## The account
-/

def Stats.settled (stats : Stats) : Nat :=
  stats.outputRules + stats.duplicates + stats.fontFaces + stats.keyframes + stats.empty

/-- The nodes that count as rules at the top of a sheet. -/
def isCounted (node : Node) : Bool :=
  node.head.isRule || hasKind .fontFace node || hasKind .keyframes node

def ruleCount (nodes : List Node) : Nat :=
  nodes.countP fun node => node.head.isRule

def waiting (buckets : List Bucket) : Nat :=
  ruleCount (buckets.flatMap Bucket.nodes)

structure Balanced (a : Assembly) : Prop where
  inputs : a.stats.inputRules = a.stats.settled + waiting a.buckets
  outputs : a.stats.outputRules = a.body.countP isCounted
  media : a.stats.media = 0

/-!
## Gathering

Rules that are put into a bucket come in and wait. Nothing is written.
-/

structure Parks (stats stats' : Stats) (before after : Nat) : Prop where
  output : stats'.outputRules = stats.outputRules
  media : stats'.media = stats.media
  balance : stats'.inputRules + stats.settled + before =
    stats.inputRules + stats'.settled + after

variable {stats stats' stats'' : Stats} {before between after : Nat}

theorem Parks.refl (stats : Stats) (n : Nat) : Parks stats stats n n :=
  ⟨rfl, rfl, rfl⟩

theorem Parks.trans (h : Parks stats stats' before between)
    (h' : Parks stats' stats'' between after) : Parks stats stats'' before after := by
  constructor
  · exact h'.output.trans h.output
  · exact h'.media.trans h.media
  · have hbalance := h.balance
    have hbalance' := h'.balance
    omega

theorem Parks.add_right (h : Parks stats stats' before after) (n : Nat) :
    Parks stats stats' (before + n) (after + n) := by
  constructor
  · exact h.output
  · exact h.media
  · have hbalance := h.balance
    omega

theorem Parks.add_left (h : Parks stats stats' before after) (n : Nat) :
    Parks stats stats' (n + before) (n + after) := by
  rw [Nat.add_comm n, Nat.add_comm n]
  exact h.add_right n

variable {o : Options} {a a' : Assembly} {node : Node}

theorem ruleCount_cons (node : Node) (nodes : List Node) :
    ruleCount (node :: nodes) = ruleCount nodes + (if node.head.isRule then 1 else 0) :=
  List.countP_cons

theorem ruleCount_append (nodes more : List Node) :
    ruleCount (nodes ++ more) = ruleCount nodes + ruleCount more :=
  List.countP_append

theorem ruleCount_reverse (nodes : List Node) : ruleCount nodes.reverse = ruleCount nodes :=
  List.countP_reverse

theorem waiting_cons (bucket : Bucket) (buckets : List Bucket) :
    waiting (bucket :: buckets) = ruleCount bucket.nodes + waiting buckets := by
  rw [waiting, List.flatMap_cons, ruleCount_append, ← waiting]

theorem addToBucket_parks (stats : Stats) (bucket : Bucket) (node : Node) :
    Parks stats (addToBucket o (stats, bucket) node).1 (ruleCount bucket.nodes)
      (ruleCount (addToBucket o (stats, bucket) node).2.nodes) := by
  unfold addToBucket
  simp only
  split
  · rename_i hrule
    split
    · constructor
      · rfl
      · rfl
      · simp only [Stats.settled]
        omega
    · split
      · constructor
        · rfl
        · rfl
        · simp only [Stats.settled]
          omega
      · constructor
        · rfl
        · rfl
        · simp only [Stats.settled, ruleCount_cons, hrule, if_true]
          omega
  · rename_i hrule
    split
    · exact Parks.refl _ _
    · rw [ruleCount_cons, if_neg hrule]
      exact Parks.refl _ _

theorem foldl_addToBucket_parks (stats : Stats) (bucket : Bucket) (nodes : List Node) :
    Parks stats (nodes.foldl (addToBucket o) (stats, bucket)).1 (ruleCount bucket.nodes)
      (ruleCount (nodes.foldl (addToBucket o) (stats, bucket)).2.nodes) := by
  induction nodes generalizing stats bucket with
  | nil => exact Parks.refl _ _
  | cons node nodes ih => exact (addToBucket_parks stats bucket node).trans (ih _ _)

theorem addToBuckets_parks (condition : Bytes) (nodes : List Node) (stats : Stats)
    (buckets : List Bucket) :
    Parks stats (addToBuckets o condition nodes stats buckets).1 (waiting buckets)
      (waiting (addToBuckets o condition nodes stats buckets).2) := by
  induction buckets with
  | nil =>
      have hparks := foldl_addToBucket_parks (o := o) stats ⟨condition, [], []⟩ nodes
      rw [addToBuckets, waiting_cons]
      exact hparks.add_right 0
  | cons bucket buckets ih =>
      rw [addToBuckets]
      split
      · have hparks := foldl_addToBucket_parks (o := o) stats bucket nodes
        rw [waiting_cons, waiting_cons]
        exact hparks.add_right _
      · rw [waiting_cons, waiting_cons]
        exact ih.add_left _

/-!
## Assembling
-/

theorem Adds.balanced (h : Adds o a node a') (hbalanced : Balanced a) : Balanced a' := by
  have hinputs := hbalanced.inputs
  have houtputs := hbalanced.outputs
  have hmedia := hbalanced.media
  have hcounted : isCounted node = true ->
      (node :: a.body).countP isCounted = a.stats.outputRules + 1 := by
    intro hcounts
    rw [List.countP_cons_of_pos hcounts, houtputs]
  cases h with
  | emptyRule hrule hempty =>
      refine ⟨?_, houtputs, hmedia⟩
      simp only [Stats.settled] at hinputs ⊢
      omega
  | repeatedRule hrule hfull hseen =>
      refine ⟨?_, houtputs, hmedia⟩
      simp only [Stats.settled] at hinputs ⊢
      omega
  | newRule hrule hfull hnew =>
      refine ⟨?_, (hcounted (by rw [isCounted, hrule]; rfl)).symm, hmedia⟩
      simp only [Stats.settled] at hinputs ⊢
      omega
  | charset hkind => exact ⟨hinputs, houtputs, hmedia⟩
  | importSheet hkind => exact ⟨hinputs, houtputs, hmedia⟩
  | repeatedFontFace hkind hoption hseen =>
      refine ⟨?_, houtputs, hmedia⟩
      simp only [Stats.settled] at hinputs ⊢
      omega
  | newFontFace hkind hnew =>
      refine ⟨?_, (hcounted (by rw [isCounted, hkind, Bool.or_true]; rfl)).symm, hmedia⟩
      simp only [Stats.settled] at hinputs ⊢
      omega
  | repeatedKeyframes hpair hoption hseen =>
      refine ⟨?_, houtputs, hmedia⟩
      simp only [Stats.settled] at hinputs ⊢
      omega
  | newKeyframes hpair hnew =>
      have hkind := hasKind_of_keyframesPair? hpair
      refine ⟨?_, (hcounted (by rw [isCounted, hkind, Bool.or_true])).symm, hmedia⟩
      simp only [Stats.settled] at hinputs ⊢
      omega
  | @gathered condition hcondition =>
      have hparks := addToBuckets_parks (o := o) condition node.children a.stats a.buckets
      have hbalance := hparks.balance
      refine ⟨?_, hparks.output.trans houtputs, hparks.media.trans hmedia⟩
      simp only
      omega
  | verbatim hplain =>
      have hcounts : ¬isCounted node = true := by
        rw [isCounted, hplain.rule, hplain.fontFace, hplain.keyframes]
        exact Bool.false_ne_true
      refine ⟨hinputs, ?_, hmedia⟩
      rw [List.countP_cons_of_neg hcounts]
      exact houtputs

theorem assemble_balanced (o : Options) (nodes : List Node) : Balanced (assemble o nodes) := by
  induction nodes using List.reverseRecOn with
  | nil => exact ⟨rfl, rfl, rfl⟩
  | append_singleton nodes node ih =>
      rw [assemble_concat]
      exact (add_adds o _ node).balanced ih

/-!
## The finished sheet
-/

theorem flatMap_filledBuckets (a : Assembly) :
    a.filledBuckets.flatMap Bucket.nodes = a.buckets.flatMap Bucket.nodes := by
  rw [filledBuckets]
  induction a.buckets with
  | nil => rfl
  | cons bucket buckets ih =>
      cases hnodes : bucket.nodes with
      | nil => simp [hnodes, ih]
      | cons node nodes => simp [hnodes, ih]

theorem ruleCount_blocks (a : Assembly) :
    ruleCount ((a.filledBuckets.map Bucket.node).flatMap Node.children) = waiting a.buckets := by
  rw [waiting, ← flatMap_filledBuckets]
  induction a.filledBuckets with
  | nil => rfl
  | cons bucket buckets ih =>
      have hchildren : (Bucket.node bucket).children = bucket.nodes.reverse := rfl
      rw [List.map_cons, List.flatMap_cons, List.flatMap_cons, hchildren, ruleCount_append,
        ruleCount_append, ruleCount_reverse, ih]

theorem isCounted_of_hasKind {kind : AtRuleKind} (h : hasKind kind node = true)
    (hfontFace : kind ≠ .fontFace) (hkeyframes : kind ≠ .keyframes) : isCounted node = false := by
  rw [isCounted, isRule_of_hasKind h, kind_of_hasKind h, kind_of_hasKind h,
    decide_eq_false hfontFace, decide_eq_false hkeyframes]
  rfl

theorem isCounted_bucketNode (bucket : Bucket) : isCounted (Bucket.node bucket) = false := by
  have hmedia : hasKind .media (Bucket.node bucket) = true := by
    rw [Bucket.node, hasKind_atRule rfl]
    exact decide_eq_true (by decide)
  exact isCounted_of_hasKind hmedia (by decide) (by decide)

theorem countP_sheet (o : Options) (nodes : List Node) :
    (assemble o nodes).sheet.countP isCounted = (assemble o nodes).body.countP isCounted := by
  have hcharset : (assemble o nodes).charset.toList.countP isCounted = 0 := by
    rw [List.countP_eq_zero, assemble_charset]
    intro node hnode
    have hkind := List.find?_some (Option.mem_toList.mp hnode)
    rw [isCounted_of_hasKind hkind (by decide) (by decide)]
    exact Bool.false_ne_true
  have himports : (assemble o nodes).imports.reverse.countP isCounted = 0 := by
    rw [List.countP_eq_zero, assemble_imports]
    intro node hnode
    rw [isCounted_of_hasKind (List.mem_filter.mp hnode).2 (by decide) (by decide)]
    exact Bool.false_ne_true
  have hblocks : ((assemble o nodes).filledBuckets.map Bucket.node).countP isCounted = 0 := by
    rw [List.countP_eq_zero]
    intro node hnode
    rcases List.mem_map.mp hnode with ⟨bucket, -, rfl⟩
    rw [isCounted_bucketNode]
    exact Bool.false_ne_true
  rw [Assembly.sheet, List.countP_append, List.countP_append, List.countP_append, hcharset,
    himports, hblocks, List.countP_reverse, Nat.zero_add, Nat.add_zero]

/-- The books of a finished merge are balanced, and what they say of the sheet is so. -/
theorem finish_balances (o : Options) (inputs : List Input) :
    let m := (addAll (Merger.start o) inputs).1
    let a := assemble o m.nodes
    let blocks := a.filledBuckets.map Bucket.node
    let stats := m.finish.1.stats
    m.finish.1.css = sanitize (Sheet.write a.sheet) ∧ blocks <:+ a.sheet ∧
      stats.inputRules = stats.outputRules + stats.duplicates + stats.fontFaces +
        stats.keyframes + stats.empty ∧
      stats.outputRules = a.sheet.countP isCounted + ruleCount (blocks.flatMap Node.children) ∧
      stats.media = blocks.length := by
  intro m a blocks stats
  have hoptions : m.options = o := (addAll_nodes (Merger.start o) inputs).1
  have hbalanced : Balanced a := assemble_balanced o m.nodes
  have hfinal : (assemble m.options m.nodes) = a := by rw [hoptions]
  have hstats : stats = a.finalStats := congrArg finalStats hfinal
  have hcss : m.finish.1.css = sanitize (Sheet.write a.sheet) :=
    congrArg (fun a => sanitize (Sheet.write (Assembly.sheet a))) hfinal
  have hinputs : stats.inputRules = a.stats.settled + waiting a.buckets := by
    rw [hstats]
    exact hbalanced.inputs
  have houtputs : stats.outputRules = a.stats.outputRules + waiting a.buckets := by
    rw [hstats, finalStats, waiting, ← flatMap_filledBuckets]
    rfl
  have hmedia : stats.media = a.stats.media + a.filledBuckets.length := by
    rw [hstats]
    rfl
  refine ⟨hcss, List.suffix_append _ _, ?_, ?_, ?_⟩
  · -- the other entries are those of the assembly
    rw [hinputs, houtputs, hstats, Stats.settled]
    simp only [finalStats]
    omega
  · rw [houtputs, hbalanced.outputs, countP_sheet, ruleCount_blocks]
  · rw [hmedia, hbalanced.media, List.length_map, Nat.zero_add]

end Merge
end StyleTrim
