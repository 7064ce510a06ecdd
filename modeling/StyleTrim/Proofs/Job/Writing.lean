import StyleTrim.Job.Filter
import StyleTrim.Proofs.Disk.Changes
import StyleTrim.Proofs.Job.Accounts

/-!
# What jobs write

All that a job does before it writes its output leaves the files as they were, and after that
nothing is left to do. So a job that fails has written nothing, unless its write failed, and a job
that succeeds has written its output and nothing else. What it wrote was computed from what its
inputs held before, whether or not the output takes the place of one of them.
-/

namespace StyleTrim
namespace Job

/-!
## Looking without touching
-/

section

variable {σ α β : Type}

def Keeps (x : StateM σ α) : Prop :=
  ∀ s, (x.run s).2 = s

theorem Keeps.run_eq {x : StateM σ α} (h : Keeps x) (s : σ) : x.run s = ((x.run s).1, s) :=
  Prod.ext rfl (h s)

theorem Keeps.pure (a : α) : Keeps (pure a : StateM σ α) :=
  fun _ => rfl

theorem Keeps.bind {x : StateM σ α} {f : α -> StateM σ β} (hx : Keeps x) (hf : ∀ a, Keeps (f a)) :
    Keeps (x >>= f) := by
  intro s
  rw [run_bind_of_run (hx.run_eq s)]
  exact hf _ s

structure Steady (host : Host (StateM σ)) : Prop where
  cwd : Keeps host.cwd
  locate : ∀ path, Keeps (host.locate path)
  size? : ∀ path, Keeps (host.size? path)
  load : ∀ path, Keeps (host.load path)
  clock : Keeps host.clock

namespace Steady

variable {host : Host (StateM σ)} (h : Steady host)
include h

theorem normalize (path : Bytes) : Keeps (host.normalize path) :=
  h.cwd.bind fun _ => .pure _

theorem followPrefix (known real : Bytes) (elements : List Bytes) :
    Keeps (host.followPrefix known real elements) := by
  induction elements generalizing known real with
  | nil => exact .pure _
  | cons element elements ih =>
      apply (h.locate _).bind
      intro answer
      cases answer with
      | ok next => exact ih _ _
      | error why => exact .pure _

theorem resolveLinks (path : Bytes) : Keeps (host.resolveLinks path) := by
  apply (h.locate path).bind
  intro answer
  cases answer with
  | ok real => exact .pure _
  | error why =>
      dsimp only
      split
      · exact (h.followPrefix _ _ _).bind fun _ => .pure _
      · exact .pure _

theorem validate (path base : Bytes) : Keeps (host.validate path base) := by
  apply (h.normalize base).bind
  intro normalBase
  apply (h.resolveLinks normalBase).bind
  intro realBase
  apply (h.normalize path).bind
  intro normal
  apply (h.resolveLinks normal).bind
  intro real
  split <;> exact .pure _

theorem resolve (base path : Bytes) : Keeps (host.resolve base path) := by
  unfold Host.resolve
  split
  · exact (h.normalize path).bind fun _ => .pure _
  · exact h.validate path base

theorem readText (path : Bytes) (limit : Nat) : Keeps (host.readText path limit) := by
  unfold Host.readText
  split
  case' isTrue => apply (Keeps.pure none).bind
  case' isFalse => apply (h.size? path).bind
  all_goals
    intro size
    dsimp only
    split
    · exact .pure _
    · apply (h.load path).bind
      intro answer
      cases answer <;> exact .pure _

theorem filterPlaces (q : FilterRequest) : Keeps (filterPlaces host q) := by
  apply (h.resolve _ _).bind
  intro html
  cases html with
  | error fault => exact .pure _
  | ok html =>
      apply (h.resolve _ _).bind
      intro css
      cases css with
      | error fault => exact .pure _
      | ok css =>
          apply (h.resolve _ _).bind
          intro output
          cases output <;> exact .pure _

theorem filterTexts (q : FilterRequest) (places : FilterPlaces) :
    Keeps (filterTexts host q places) := by
  apply (h.readText _ _).bind
  intro html
  cases html with
  | error fault => exact .pure _
  | ok html =>
      apply (h.readText _ _).bind
      intro css
      cases css <;> exact .pure _

theorem readInput (q : MergeRequest) (path : Bytes) : Keeps (readInput host q path) := by
  apply (h.resolve _ _).bind
  intro place
  cases place with
  | error fault => exact .pure _
  | ok place => exact (h.readText _ _).bind fun _ => .pure _

theorem readInputs_run (q : MergeRequest) (paths : List Bytes) (s : σ) :
    (Job.readInputs host q paths).run s =
      (paths.map fun path => ((Job.readInput host q path).run s).1, s) := by
  induction paths with
  | nil => rfl
  | cons path paths ih =>
      rw [Job.readInputs, run_bind_of_run ((h.readInput q path).run_eq s), run_bind_of_run ih]
      rfl

/-!
## Jobs
-/

theorem filterPlaces_run {q : FilterRequest} {s : σ} {places : FilterPlaces}
    (hrun : ((Job.filterPlaces host q).run s).1 = .ok places) :
    ((host.resolve q.baseDirectory q.htmlPath).run s).1 = .ok places.html ∧
      ((host.resolve q.baseDirectory q.cssPath).run s).1 = .ok places.css ∧
      ((host.resolve q.baseDirectory q.outputPath).run s).1 = .ok places.output := by
  rw [Job.filterPlaces, run_bind_of_run ((h.resolve _ _).run_eq s)] at hrun
  cases hhtml : ((host.resolve q.baseDirectory q.htmlPath).run s).1 with
  | error fault =>
      rw [hhtml] at hrun
      cases hrun
  | ok html =>
      rw [hhtml] at hrun
      dsimp only at hrun
      rw [run_bind_of_run ((h.resolve _ _).run_eq s)] at hrun
      cases hcss : ((host.resolve q.baseDirectory q.cssPath).run s).1 with
      | error fault =>
          rw [hcss] at hrun
          cases hrun
      | ok css =>
          rw [hcss] at hrun
          dsimp only at hrun
          rw [run_bind_of_run ((h.resolve _ _).run_eq s)] at hrun
          cases houtput : ((host.resolve q.baseDirectory q.outputPath).run s).1 with
          | error fault =>
              rw [houtput] at hrun
              cases hrun
          | ok output =>
              rw [houtput] at hrun
              cases hrun
              exact ⟨rfl, rfl, rfl⟩

theorem filterTexts_run {q : FilterRequest} {s : σ} {places : FilterPlaces} {texts : FilterTexts}
    (hrun : ((Job.filterTexts host q places).run s).1 = .ok texts) :
    ((host.readText places.html 0).run s).1 = .ok texts.html ∧
      ((host.readText places.css q.options.maxBytes).run s).1 = .ok texts.css := by
  rw [Job.filterTexts, run_bind_of_run ((h.readText _ _).run_eq s)] at hrun
  cases hhtml : ((host.readText places.html 0).run s).1 with
  | error fault =>
      rw [hhtml] at hrun
      cases hrun
  | ok html =>
      rw [hhtml] at hrun
      dsimp only at hrun
      rw [run_bind_of_run ((h.readText _ _).run_eq s)] at hrun
      cases hcss : ((host.readText places.css q.options.maxBytes).run s).1 with
      | error fault =>
          rw [hcss] at hrun
          cases hrun
      | ok css =>
          rw [hcss] at hrun
          cases hrun
          exact ⟨rfl, rfl⟩

theorem filter_ends (q : FilterRequest) (s : σ) :
    let result := ((filter host q).run s).1.1
    let s' := ((filter host q).run s).2
    (result.ok = false ∧
      (s' = s ∨ ∃ path text fault, (host.writeText path text).run s = (.error fault, s'))) ∨
    (result.ok = true ∧ ∃ places texts output,
      ((Job.filterPlaces host q).run s).1 = .ok places ∧
      ((Job.filterTexts host q places).run s).1 = .ok texts ∧
      (Filter.run q.options (Facts.ofMarkup texts.html) texts.css).1 = .ok output ∧
      (host.writeText places.output output.css).run s = (.ok (), s') ∧
      places = ⟨result.htmlPath, result.cssPath, result.outputPath⟩ ∧
      result.outputBytes = output.css.length) := by
  rw [filter, run_bind_of_run (h.clock.run_eq s),
    run_bind_of_run ((h.filterPlaces q).run_eq s)]
  cases hplaces : ((Job.filterPlaces host q).run s).1 with
  | error fault => exact Or.inl ⟨rfl, Or.inl rfl⟩
  | ok places =>
      dsimp only
      rw [run_bind_of_run ((h.filterTexts q places).run_eq s)]
      cases htexts : ((Job.filterTexts host q places).run s).1 with
      | error fault => exact Or.inl ⟨rfl, Or.inl rfl⟩
      | ok texts =>
          dsimp only
          cases houtput : (Filter.run q.options (Facts.ofMarkup texts.html) texts.css).1 with
          | error fault => exact Or.inl ⟨rfl, Or.inl rfl⟩
          | ok output =>
              dsimp only
              rcases hwrite : (host.writeText places.output output.css).run s with ⟨answer, s'⟩
              rw [run_bind_of_run hwrite]
              cases answer with
              | error fault => exact Or.inl ⟨rfl, Or.inr ⟨_, _, fault, hwrite⟩⟩
              | ok done =>
                  dsimp only
                  rw [run_bind_of_run (h.clock.run_eq s')]
                  exact Or.inr ⟨rfl, places, texts, output, rfl, htexts, houtput, hwrite, rfl, rfl⟩

theorem merge_ends (q : MergeRequest) (s : σ) :
    let result := ((merge host q).run s).1.1
    let s' := ((merge host q).run s).2
    let inputs := q.inputPaths.map fun path => ((Job.readInput host q path).run s).1
    let output := (Merge.run q.options (given inputs)).1
    (result.ok = false ∧
      (s' = s ∨ ∃ path text fault, (host.writeText path text).run s = (.error fault, s'))) ∨
    (result.ok = true ∧
      ((host.resolve q.baseDirectory q.outputPath).run s).1 = .ok result.outputPath ∧
      (host.writeText result.outputPath output.css).run s = (.ok (), s') ∧
      result.outputBytes = output.css.length) := by
  intro result s' inputs output
  have hmerger := (takeAll_given (Gathered.start q.options) inputs).1
  have houtput : ((Gathered.start q.options).takeAll inputs).merger.finish.1 = output := by
    rw [hmerger]
    rfl
  unfold result s'
  rw [merge, run_bind_of_run (h.clock.run_eq s), run_bind_of_run ((h.resolve _ _).run_eq s)]
  cases hplace : ((host.resolve q.baseDirectory q.outputPath).run s).1 with
  | error fault => exact Or.inl ⟨rfl, Or.inl rfl⟩
  | ok place =>
      have hread : (Job.readInputs host q q.inputPaths).run s = (inputs, s) :=
        h.readInputs_run q q.inputPaths s
      dsimp only
      rw [run_bind_of_run hread, houtput]
      cases ((Gathered.start q.options).takeAll inputs).fault? with
      | some fault => exact Or.inl ⟨rfl, Or.inl rfl⟩
      | none =>
          rcases hwrite : (host.writeText place output.css).run s with ⟨answer, s₁⟩
          dsimp only
          rw [run_bind_of_run hwrite]
          cases answer with
          | error fault => exact Or.inl ⟨rfl, Or.inr ⟨_, _, fault, hwrite⟩⟩
          | ok done =>
              dsimp only
              rw [run_bind_of_run (h.clock.run_eq s₁)]
              exact Or.inr ⟨rfl, rfl, hwrite, rfl⟩

end Steady

theorem store_of_writeText {host : Host (StateM σ)} {path text : Bytes} {s s' : σ}
    {answer : Except Fault Unit} (h : (host.writeText path text).run s = (answer, s')) :
    ∃ told, (host.store path text).run s = (told, s') ∧ (answer.isOk = told.isOk) := by
  rcases hstore : (host.store path text).run s with ⟨told, s₁⟩
  rw [Host.writeText, run_bind_of_run hstore] at h
  cases told <;> cases h <;> exact ⟨_, rfl, rfl⟩

end

end Job

/-!
## Disks
-/

namespace Disk

open Job

/-- The place that a job uses for a path. -/
def resolve (d : Disk) (base path : Bytes) : Except Fault Bytes :=
  ((host.resolve base path).run d).1

/-- The content of a file, when it can be read and is not larger than the limit. -/
def text? (d : Disk) (path : Bytes) (limit : Nat) : Option Bytes :=
  if limit ≠ 0 ∧ limit < (d.size? path).getD 0 then none else (d.load path).toOption

/-- What a merge job is given for a path. -/
def input? (d : Disk) (q : MergeRequest) (path : Bytes) : Option Merge.Input :=
  match d.resolve q.baseDirectory path with
  | .error _ => none
  | .ok place => (d.text? place q.options.maxBytes).map fun text => ⟨path, text⟩

theorem steady_host : Steady host where
  cwd := fun _ => rfl
  locate := fun _ _ => rfl
  size? := fun _ _ => rfl
  load := fun _ _ => rfl
  clock := fun _ => rfl

theorem text?_of_readText (d : Disk) (path : Bytes) (limit : Nat) :
    ((host.readText path limit).run d).1.toOption = d.text? path limit := by
  have hnone : (pure none : StateM Disk (Option Nat)).run d = (none, d) := rfl
  have hsize : (host.size? path).run d = (d.size? path, d) := rfl
  have hload : (host.load path).run d = (d.load path, d) := rfl
  unfold Host.readText text?
  split
  · rename_i hzero
    rw [run_bind_of_run hnone]
    dsimp only [Option.getD_none]
    rw [if_neg (Nat.not_lt_zero _), run_bind_of_run hload, if_neg fun h => h.1 hzero]
    cases d.load path <;> rfl
  · rename_i hlimit
    rw [run_bind_of_run hsize]
    dsimp only
    split
    · rename_i hlarge
      rw [if_pos ⟨hlimit, hlarge⟩]
      rfl
    · rename_i hfits
      rw [run_bind_of_run hload, if_neg fun h => hfits h.2]
      cases d.load path <;> rfl

theorem text?_of_ok {d : Disk} {path text : Bytes} {limit : Nat}
    (h : ((host.readText path limit).run d).1 = .ok text) : d.text? path limit = some text := by
  rw [← text?_of_readText, h]
  rfl

theorem given_readInput (d : Disk) (q : MergeRequest) (path : Bytes) :
    ((readInput host q path).run d).1.given? = d.input? q path := by
  have hresolve := (steady_host.resolve q.baseDirectory path).run_eq d
  rw [readInput, run_bind_of_run hresolve, input?, resolve]
  cases ((host.resolve q.baseDirectory path).run d).1 with
  | error fault => rfl
  | ok place =>
      dsimp only
      rw [run_bind_of_run ((steady_host.readText _ _).run_eq d), ← text?_of_readText]
      cases ((host.readText place q.options.maxBytes).run d).1 <;> rfl

theorem unchanged_of_writeText {d d' : Disk} {path text : Bytes} {fault : Fault}
    (h : (host.writeText path text).run d = (.error fault, d')) : d' = d := by
  rcases store_of_writeText h with ⟨told, hstore, hok⟩
  cases told with
  | error why => exact store_refused hstore
  | ok done => cases hok

theorem wrote_of_writeText {d d' : Disk} {path text : Bytes}
    (h : (host.writeText path text).run d = (.ok (), d')) : d.Wrote d' path text := by
  rcases store_of_writeText h with ⟨told, hstore, hok⟩
  cases told with
  | error why => cases hok
  | ok done => exact store_done hstore

theorem filter_writes (d : Disk) (q : FilterRequest) :
    let result := ((filter host q).run d).1.1
    let d' := ((filter host q).run d).2
    (result.ok = false ∧ d' = d) ∨
    (result.ok = true ∧ ∃ html css output,
      d.resolve q.baseDirectory q.htmlPath = .ok result.htmlPath ∧
      d.resolve q.baseDirectory q.cssPath = .ok result.cssPath ∧
      d.resolve q.baseDirectory q.outputPath = .ok result.outputPath ∧
      d.text? result.htmlPath 0 = some html ∧
      d.text? result.cssPath q.options.maxBytes = some css ∧
      (Filter.run q.options (Facts.ofMarkup html) css).1 = .ok output ∧
      d.Wrote d' result.outputPath output.css ∧
      result.outputBytes = output.css.length) := by
  intro result d'
  rcases steady_host.filter_ends q d with ⟨hfailed, hd | ⟨path, text, fault, hwrite⟩⟩ |
    ⟨hok, places, texts, output, hplaces, htexts, houtput, hwrite, hresult, hlength⟩
  · exact Or.inl ⟨hfailed, hd⟩
  · exact Or.inl ⟨hfailed, unchanged_of_writeText hwrite⟩
  · rcases steady_host.filterPlaces_run hplaces with ⟨hhtml, hcss, hout⟩
    rcases steady_host.filterTexts_run htexts with ⟨hhtmlText, hcssText⟩
    rw [hresult] at hhtml hcss hout hhtmlText hcssText hwrite
    exact Or.inr ⟨hok, texts.html, texts.css, output, hhtml, hcss, hout, text?_of_ok hhtmlText,
      text?_of_ok hcssText, houtput, wrote_of_writeText hwrite, hlength⟩

theorem merge_writes (d : Disk) (q : MergeRequest) :
    let result := ((merge host q).run d).1.1
    let d' := ((merge host q).run d).2
    let output := (Merge.run q.options (q.inputPaths.filterMap (d.input? q))).1
    (result.ok = false ∧ d' = d) ∨
    (result.ok = true ∧
      d.resolve q.baseDirectory q.outputPath = .ok result.outputPath ∧
      d.Wrote d' result.outputPath output.css ∧
      result.outputBytes = output.css.length) := by
  intro result d' output
  have hinputs : given (q.inputPaths.map fun path => ((readInput host q path).run d).1) =
      q.inputPaths.filterMap (d.input? q) := by
    rw [given, List.filterMap_map]
    exact congrArg (List.filterMap · q.inputPaths) (funext (given_readInput d q))
  rcases steady_host.merge_ends q d with ⟨hfailed, hd | ⟨path, text, fault, hwrite⟩⟩ |
    ⟨hok, hout, hwrite, hlength⟩
  · exact Or.inl ⟨hfailed, hd⟩
  · exact Or.inl ⟨hfailed, unchanged_of_writeText hwrite⟩
  · rw [hinputs] at hwrite hlength
    exact Or.inr ⟨hok, hout, wrote_of_writeText hwrite, hlength⟩

/-- A job that fails leaves the disk as it was. One that succeeds has written the sheet that it
computed from what the disk held before, to where its output path leads, and has changed nothing
else; and it tells how long that sheet is. -/
theorem jobs_write_results (d : Disk) :
    (∀ q : FilterRequest,
      let result := ((filter host q).run d).1.1
      let d' := ((filter host q).run d).2
      (result.ok = false ∧ d' = d) ∨
      (result.ok = true ∧ ∃ html css output,
        d.resolve q.baseDirectory q.htmlPath = .ok result.htmlPath ∧
        d.resolve q.baseDirectory q.cssPath = .ok result.cssPath ∧
        d.resolve q.baseDirectory q.outputPath = .ok result.outputPath ∧
        d.text? result.htmlPath 0 = some html ∧
        d.text? result.cssPath q.options.maxBytes = some css ∧
        (Filter.run q.options (Facts.ofMarkup html) css).1 = .ok output ∧
        d.Wrote d' result.outputPath output.css ∧
        result.outputBytes = output.css.length)) ∧
    (∀ q : MergeRequest,
      let result := ((merge host q).run d).1.1
      let d' := ((merge host q).run d).2
      let output := (Merge.run q.options (q.inputPaths.filterMap (d.input? q))).1
      (result.ok = false ∧ d' = d) ∨
      (result.ok = true ∧
        d.resolve q.baseDirectory q.outputPath = .ok result.outputPath ∧
        d.Wrote d' result.outputPath output.css ∧
        result.outputBytes = output.css.length)) :=
  ⟨d.filter_writes, d.merge_writes⟩

end Disk
end StyleTrim
