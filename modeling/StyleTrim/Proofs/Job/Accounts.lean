import StyleTrim.Job.Merge
import StyleTrim.Proofs.Merge.Isolation

/-!
# What becomes of the inputs of a merge

Every input that a job is asked for is merged or leaves one warning, and never both. The warnings of
those that could not be read come first, then those of the ones that the merger passed over. So the
inputs are accounted for, whatever the host answers, and the job can fail in two ways only: no input
is left, or the output cannot be written.
-/

namespace StyleTrim
namespace Job

open Merge

/-!
## Gathering
-/

def ReadInput.given? (input : ReadInput) : Option Input :=
  match input.answer with
  | .ok text => some ⟨input.path, text⟩
  | .error _ => none

/-- The inputs that could be read. -/
def given (inputs : List ReadInput) : List Input :=
  inputs.filterMap ReadInput.given?

def unread (inputs : List ReadInput) : List ReadInput :=
  inputs.filter fun input => input.given?.isNone

theorem takeAll_given (g : Gathered) (inputs : List ReadInput) :
    (g.takeAll inputs).merger = (addAll g.merger (given inputs)).1 ∧
      (g.takeAll inputs).readable = g.readable + (given inputs).length ∧
      (g.takeAll inputs).unread.map noteOf =
        g.unread.map noteOf ++ (unread inputs).map fun input => (.partialInput, input.path) := by
  induction inputs generalizing g with
  | nil => exact ⟨rfl, rfl, (List.append_nil _).symm⟩
  | cons input inputs ih =>
      rcases input with ⟨path, answer⟩
      rcases ih (g.take ⟨path, answer⟩) with ⟨hmerger, hreadable, hunread⟩
      rw [Gathered.takeAll, List.foldl_cons, ← Gathered.takeAll, hmerger, hreadable, hunread]
      cases answer with
      | ok text =>
          refine ⟨(addAll_cons _ _ _).symm, ?_, rfl⟩
          change g.readable + 1 + _ = g.readable + ((given inputs).length + 1)
          omega
      | error fault =>
          refine ⟨rfl, rfl, ?_⟩
          rw [Gathered.take]
          simp only [List.map_append, List.map_cons, List.map_nil, List.append_assoc]
          rfl

theorem given_perm (inputs : List ReadInput) :
    ((unread inputs).map ReadInput.path ++ (given inputs).map Input.label).Perm
      (inputs.map ReadInput.path) := by
  induction inputs with
  | nil => exact List.Perm.refl _
  | cons input inputs ih =>
      rcases input with ⟨path, answer⟩
      cases answer with
      | ok text => exact List.perm_middle.trans (ih.cons path)
      | error fault => exact ih.cons path

theorem paths_perm (o : Options) (inputs : List ReadInput) :
    ((unread inputs).map ReadInput.path ++ (rejected o (given inputs)).map Input.label ++
      ((given inputs).filter (accepts o)).map Input.label).Perm (inputs.map ReadInput.path) := by
  have hgiven := List.perm_append_comm.trans (List.filter_append_perm (accepts o) (given inputs))
  rw [List.append_assoc, ← List.map_append]
  exact ((hgiven.map Input.label).append_left _).trans (given_perm inputs)

theorem fault?_ne_none_iff (g : Gathered) (h : g.readable = 0 -> g.merger.merged = 0) :
    g.fault? ≠ none ↔ g.merger.merged = 0 := by
  unfold Gathered.fault?
  by_cases hreadable : g.readable = 0
  · rw [if_pos hreadable]
    exact iff_of_true (Option.some_ne_none _) (h hreadable)
  · rw [if_neg hreadable]
    by_cases hmerged : g.merger.merged = 0
    · rw [if_pos hmerged]
      exact iff_of_true (Option.some_ne_none _) hmerged
    · rw [if_neg hmerged]
      exact iff_of_false (fun hne => hne rfl) hmerged

/-!
## The job
-/

section

variable {σ : Type}

theorem run_bind_of_run {α β : Type} {x : StateM σ α} {f : α -> StateM σ β} {s s' : σ} {a : α}
    (h : x.run s = (a, s')) : (x >>= f).run s = (f a).run s' := by
  rw [StateT.run_bind, h]
  rfl

theorem paths_readInputs (host : Host (StateM σ)) (q : MergeRequest) (paths : List Bytes) (s : σ) :
    ((readInputs host q paths).run s).1.map ReadInput.path = paths := by
  induction paths generalizing s with
  | nil => rfl
  | cons path paths ih =>
      have hpath : ((readInput host q path).run s).1.path = path := by
        rcases hresolve : (host.resolve q.baseDirectory path).run s with ⟨place, s₁⟩
        rw [readInput, run_bind_of_run hresolve]
        cases place with
        | error fault => rfl
        | ok place =>
            rcases hanswer : (host.readText place q.options.maxBytes).run s₁ with ⟨answer, s₂⟩
            dsimp only
            rw [run_bind_of_run hanswer]
            rfl
      rcases hinput : (readInput host q path).run s with ⟨input, s₁⟩
      rcases hinputs : (readInputs host q paths).run s₁ with ⟨inputs, s₂⟩
      have htail := ih s₁
      rw [hinput] at hpath
      rw [hinputs] at htail
      rw [readInputs, run_bind_of_run hinput, run_bind_of_run hinputs]
      exact congrArg₂ List.cons hpath htail

theorem merge_of_resolve {host : Host (StateM σ)} {q : MergeRequest} {s s' : σ} {place : Bytes}
    (hresolve : (host.resolve q.baseDirectory q.outputPath).run (host.clock.run s).2 =
      (.ok place, s')) :
    let read := (readInputs host q q.inputPaths).run s'
    let g := (Gathered.start q.options).takeAll read.1
    let result := ((merge host q).run s).1.1
    result.warnings = g.unread ++ g.merger.warnings ∧
      (result.ok = false ↔ g.fault? ≠ none ∨
        ∃ fault, ((host.writeText place g.merger.finish.1.css).run read.2).1 = .error fault) := by
  intro read g result
  rcases hclock : host.clock.run s with ⟨start, s₁⟩
  rcases hread : (readInputs host q q.inputPaths).run s' with ⟨inputs, s₂⟩
  have hpair : read = (inputs, s₂) := hread
  have hg : g = (Gathered.start q.options).takeAll inputs :=
    congrArg (fun found => (Gathered.start q.options).takeAll (Prod.fst found)) hpair
  rw [hclock] at hresolve
  unfold result
  rw [merge, run_bind_of_run hclock, run_bind_of_run hresolve]
  dsimp only
  rw [run_bind_of_run hread, hpair, hg]
  clear hg hpair g read result
  dsimp only
  generalize (Gathered.start q.options).takeAll inputs = g
  cases hfault : g.fault? with
  | some fault => exact ⟨rfl, iff_of_true rfl (Or.inl (Option.some_ne_none fault))⟩
  | none =>
      rcases hwrite : (host.writeText place g.merger.finish.1.css).run s₂ with ⟨answer, s₃⟩
      dsimp only
      rw [run_bind_of_run hwrite]
      cases answer with
      | error fault => exact ⟨rfl, iff_of_true rfl (Or.inr ⟨fault, rfl⟩)⟩
      | ok done =>
          rcases hstop : host.clock.run s₃ with ⟨stop, s₄⟩
          dsimp only
          rw [run_bind_of_run hstop]
          refine ⟨rfl, iff_of_false Bool.false_ne_true.symm ?_⟩
          rintro (hne | ⟨fault, hfault⟩)
          · exact hne rfl
          · cases hfault

end

/-- An input that is not accepted leaves one warning and nothing else. A job whose output path
resolves has one warning for each input that was not merged, and fails only where none was merged
or where its output cannot be written. -/
theorem inputs_accounted :
    (∀ (o : Options) (inputs : List Input),
      (run o inputs).1.css = (run o (inputs.filter (accepts o))).1.css ∧
      (run o inputs).1.stats = (run o (inputs.filter (accepts o))).1.stats ∧
      (run o inputs).1.merged = (inputs.filter (accepts o)).length ∧
      (run o inputs).1.warnings.map noteOf = (rejected o inputs).map warningOf) ∧
    (∀ (σ : Type) (host : Host (StateM σ)) (q : MergeRequest) (s s' : σ) (place : Bytes),
      (host.resolve q.baseDirectory q.outputPath).run (host.clock.run s).2 = (.ok place, s') ->
      let read := (readInputs host q q.inputPaths).run s'
      let output := (run q.options (given read.1)).1
      let result := ((merge host q).run s).1.1
      let merged := (given read.1).filter (accepts q.options)
      result.warnings.length + output.merged = q.inputPaths.length ∧
      (∀ fault ∈ result.warnings, fault.kind = .partialInput) ∧
      (result.warnings.map Fault.path ++ merged.map Input.label).Perm q.inputPaths ∧
      (result.ok = false ↔ output.merged = 0 ∨
        ∃ fault, ((host.writeText place output.css).run read.2).1 = .error fault)) := by
  constructor
  · intro o inputs
    rcases run_eq_of_nodes (flatMap_acceptedNodes_filter o inputs) with ⟨hcss, hstats⟩
    rcases run_accounts o inputs with ⟨hmerged, hwarnings⟩
    refine ⟨hcss.symm, hstats.symm, hmerged.trans List.countP_eq_length_filter, ?_⟩
    rw [hwarnings, notes_of_warnings]
  · intro σ host q s s' place hresolve read output result merged
    rcases merge_of_resolve hresolve with ⟨hwarnings, hok⟩
    rcases takeAll_given (Gathered.start q.options) read.1 with ⟨hmerger, hreadable, hunread⟩
    rcases run_accounts q.options (given read.1) with ⟨hmerged, hrejected⟩
    have houtput : ((Gathered.start q.options).takeAll read.1).merger.finish.1 = output := by
      rw [hmerger]
      rfl
    have hnotes : result.warnings.map noteOf =
        ((unread read.1).map fun input => (.partialInput, input.path)) ++
          (rejected q.options (given read.1)).map warningOf := by
      rw [hwarnings, List.map_append, hunread, ← notes_of_warnings, ← hrejected]
      exact congrArg (_ ++ List.map noteOf ·) (congrArg Output.warnings houtput)
    have hpaths : (result.warnings.map Fault.path ++ merged.map Input.label).Perm q.inputPaths := by
      have hwarned := congrArg (List.map Prod.snd) hnotes
      rw [List.map_map, List.map_append, List.map_map, List.map_map] at hwarned
      change result.warnings.map Fault.path = _ at hwarned
      rw [hwarned]
      have hperm := paths_perm q.options read.1
      rw [paths_readInputs] at hperm
      exact hperm
    have hcount : output.merged = merged.length := hmerged.trans List.countP_eq_length_filter
    refine ⟨?_, ?_, hpaths, ?_⟩
    · have hlength := hpaths.length_eq
      rw [List.length_append, List.length_map, List.length_map] at hlength
      rw [hcount, hlength]
    · intro fault hfault
      have hmem : noteOf fault ∈ result.warnings.map noteOf := List.mem_map_of_mem hfault
      rw [hnotes, List.mem_append] at hmem
      rcases hmem with hmem | hmem
      · rcases List.mem_map.mp hmem with ⟨input, _, heq⟩
        exact congrArg Prod.fst heq.symm
      · rcases List.mem_map.mp hmem with ⟨input, _, heq⟩
        exact congrArg Prod.fst heq.symm
    · rw [hok, houtput, fault?_ne_none_iff]
      · exact or_congr (Eq.congr_left (congrArg Output.merged houtput)) Iff.rfl
      · intro hzero
        rw [hreadable] at hzero
        have hnone : given read.1 = [] :=
          List.length_eq_zero_iff.mp (Nat.eq_zero_of_add_eq_zero_left hzero)
        rw [hmerger, hnone]
        rfl

def shelf : Host (StateM (List (Bytes × Bytes))) where
  cwd := pure (ascii "/")
  locate path := do
    pure (if ((← get).lookup path).isSome then .ok path else .error .noEntry)
  size? path := do
    pure (((← get).lookup path).map List.length)
  load path := do
    match (← get).lookup path with
    | some text => pure (.ok text)
    | none => pure (.error .noEntry)
  store path text := do
    modify ((path, text) :: ·)
    pure (.ok ())
  clock := pure 0

def deepText : Bytes :=
  (List.replicate 257 (ascii "a\x7b")).flatten

def twoFiles : List (Bytes × Bytes) :=
  [(ascii "/a", ascii "a\x7bb:c\x7d"), (ascii "/deep", deepText)]

def threeInputs : MergeRequest :=
  { inputPaths := [ascii "/deep", ascii "/gone", ascii "/a"], outputPath := ascii "/out" }

theorem inputs_accounted_on_shelf :
    (shelf.resolve threeInputs.baseDirectory threeInputs.outputPath).run
        (shelf.clock.run twoFiles).2 = (.ok (ascii "/out"), twoFiles) ∧
      let result := ((merge shelf threeInputs).run twoFiles).1.1
      result.ok = true ∧ result.warnings.map Fault.path = [ascii "/gone", ascii "/deep"] ∧
        (result.warnings.map Fault.path ++ [ascii "/a"]).Perm threeInputs.inputPaths := by
  have hresolve : (shelf.resolve threeInputs.baseDirectory threeInputs.outputPath).run
      (shelf.clock.run twoFiles).2 = (.ok (ascii "/out"), twoFiles) :=
    Prod.ext (eq_ok_of_toOption (by decide +kernel)) (by decide +kernel)
  refine ⟨hresolve, by decide +kernel, by decide +kernel, ?_⟩
  have hmerged : ((given ((readInputs shelf threeInputs threeInputs.inputPaths).run
      twoFiles).1).filter (accepts threeInputs.options)).map Input.label = [ascii "/a"] := by
    decide +kernel
  rw [← hmerged]
  exact (inputs_accounted.2 _ shelf threeInputs _ _ _ hresolve).2.2.1

end Job
end StyleTrim
