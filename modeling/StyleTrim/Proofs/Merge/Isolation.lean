import StyleTrim.Proofs.Merge.Declared
import StyleTrim.Proofs.Sheet.Modes

/-!
# Inputs that are passed over

An input is accepted when it is empty, or when it is small enough and lenient reading takes it:
strict reading is tried first, but takes nothing that lenient reading does not take. One that is
not accepted leaves a warning behind and nothing else, so a merge is that of the accepted inputs.
-/

namespace StyleTrim

theorem Sheet.isSome_parseWithFallback (css : Bytes) :
    (parseWithFallback css).result.toOption.isSome =
      (parse { mode := .lenient } css).toOption.isSome := by
  unfold parseWithFallback
  split
  · rename_i sheet hstrict
    have hlenient : parse { mode := .lenient } css = .ok (mapHeads Head.unread sheet) :=
      parse_leniently rfl hstrict
    rw [hlenient]
    rfl
  · rfl

namespace Merge

/-- The input is empty, or is within the limit and can be read leniently. -/
def accepts (o : Options) (input : Input) : Bool :=
  input.text.isEmpty ||
    ((o.maxBytes == 0 || decide (input.text.length ≤ o.maxBytes)) &&
      (Sheet.parse { mode := .lenient } input.text).toOption.isSome)

theorem isSome_read (o : Options) (input : Input) :
    (read o input).1.toOption.isSome = accepts o input := by
  unfold read accepts
  cases input.text.isEmpty with
  | true => rfl
  | false =>
      rw [Bool.false_or, if_neg Bool.false_ne_true]
      by_cases hsize : 0 < o.maxBytes ∧ o.maxBytes < input.text.length
      · have hno : (o.maxBytes == 0 || decide (input.text.length ≤ o.maxBytes)) = false := by
          simp only [Bool.or_eq_false_iff, beq_eq_false_iff_ne, decide_eq_false_iff_not]
          omega
        rw [if_pos hsize, hno]
        rfl
      · have hyes : (o.maxBytes == 0 || decide (input.text.length ≤ o.maxBytes)) = true := by
          simp only [Bool.or_eq_true, beq_iff_eq, decide_eq_true_eq]
          omega
        rw [if_neg hsize, hyes, Bool.true_and, ← Sheet.isSome_parseWithFallback]
        dsimp only
        split
        · rename_i e herror
          rw [herror]
          rfl
        · rename_i sheet hok
          rw [hok]
          rfl

/-!
## One input
-/

def warning? (o : Options) (input : Input) : Option Fault :=
  match (read o input).1 with
  | .ok _ => none
  | .error refusal =>
      some { kind := .partialInput, message := refusal.message, path := input.label }

/-- What a warning says of its input. -/
def warningOf (input : Input) : FaultKind × Bytes :=
  (.partialInput, input.label)

/-- What is told of a fault: its kind, and the path that it names. -/
def noteOf (fault : Fault) : FaultKind × Bytes :=
  (fault.kind, fault.path)

variable {o : Options} {input : Input}

theorem warning?_of_accepts (h : accepts o input = true) : warning? o input = none := by
  rw [← isSome_read] at h
  unfold warning?
  cases hread : (read o input).1 with
  | ok sheet => rfl
  | error refusal =>
      rw [hread] at h
      cases h

theorem warning?_of_rejects (h : accepts o input = false) :
    (warning? o input).map noteOf = some (warningOf input) ∧ acceptedNodes o input = [] := by
  rw [← isSome_read] at h
  rw [← read_nodes]
  unfold warning?
  cases hread : (read o input).1 with
  | error refusal => exact ⟨rfl, rfl⟩
  | ok sheet =>
      rw [hread] at h
      cases h

theorem add_accounts (m : Merger) (input : Input) :
    (m.add input).2.1.merged = m.merged + (if accepts m.options input then 1 else 0) ∧
      (m.add input).2.1.warnings = m.warnings ++ (warning? m.options input).toList := by
  rw [← isSome_read]
  unfold Merger.add warning?
  split
  · rename_i hread
    rw [hread]
    exact ⟨rfl, (List.append_nil _).symm⟩
  · rename_i hread
    rw [hread]
    exact ⟨rfl, rfl⟩

/-!
## All inputs
-/

/-- The inputs that are passed over. -/
def rejected (o : Options) (inputs : List Input) : List Input :=
  inputs.filter fun input => !accepts o input

theorem addAll_accounts (m : Merger) (inputs : List Input) :
    (addAll m inputs).1.merged = m.merged + inputs.countP (accepts m.options) ∧
      (addAll m inputs).1.warnings = m.warnings ++ inputs.filterMap (warning? m.options) := by
  induction inputs generalizing m with
  | nil => exact ⟨rfl, (List.append_nil _).symm⟩
  | cons input inputs ih =>
      rcases add_accounts m input with ⟨hmerged, hwarnings⟩
      rcases ih (m.add input).2.1 with ⟨hmerged', hwarnings'⟩
      rw [addAll_cons, hmerged', hwarnings', hmerged, hwarnings, (add_nodes m input).1,
        List.countP_cons, List.append_assoc]
      refine ⟨by omega, congrArg (m.warnings ++ ·) ?_⟩
      cases hwarning : warning? m.options input with
      | none => rw [List.filterMap_cons_none hwarning, Option.toList_none, List.nil_append]
      | some fault =>
          rw [List.filterMap_cons_some hwarning, Option.toList_some, List.singleton_append]

theorem run_accounts (o : Options) (inputs : List Input) :
    (run o inputs).1.merged = inputs.countP (accepts o) ∧
      (run o inputs).1.warnings = inputs.filterMap (warning? o) := by
  rcases addAll_accounts (Merger.start o) inputs with ⟨hmerged, hwarnings⟩
  exact ⟨hmerged.trans (Nat.zero_add _), hwarnings⟩

theorem notes_of_warnings (o : Options) (inputs : List Input) :
    (inputs.filterMap (warning? o)).map noteOf = (rejected o inputs).map warningOf := by
  induction inputs with
  | nil => rfl
  | cons input inputs ih =>
      rw [rejected] at ih ⊢
      cases haccepts : accepts o input with
      | true =>
          rw [List.filterMap_cons_none (warning?_of_accepts haccepts), ih,
            List.filter_cons_of_neg (by simp [haccepts])]
      | false =>
          rcases Option.map_eq_some_iff.mp (warning?_of_rejects haccepts).1 with
            ⟨fault, hfault, hnote⟩
          rw [List.filterMap_cons_some hfault, List.map_cons, hnote, ih,
            List.filter_cons_of_pos (by simp [haccepts]), List.map_cons]

theorem flatMap_acceptedNodes_filter (o : Options) (inputs : List Input) :
    (inputs.filter (accepts o)).flatMap (acceptedNodes o) =
      inputs.flatMap (acceptedNodes o) := by
  induction inputs with
  | nil => rfl
  | cons input inputs ih =>
      cases haccepts : accepts o input with
      | true => rw [List.filter_cons_of_pos haccepts, List.flatMap_cons, List.flatMap_cons, ih]
      | false =>
          rw [List.filter_cons_of_neg (by simp [haccepts]), List.flatMap_cons,
            (warning?_of_rejects haccepts).2, List.nil_append, ih]

theorem run_eq_of_nodes {o : Options} {inputs inputs' : List Input}
    (h : inputs.flatMap (acceptedNodes o) = inputs'.flatMap (acceptedNodes o)) :
    (run o inputs).1.css = (run o inputs').1.css ∧
      (run o inputs).1.stats = (run o inputs').1.stats := by
  rcases run_assembles o inputs with ⟨hcss, hstats⟩
  rcases run_assembles o inputs' with ⟨hcss', hstats'⟩
  rw [hcss, hstats, hcss', hstats', h]
  exact ⟨rfl, rfl⟩

end Merge
end StyleTrim
