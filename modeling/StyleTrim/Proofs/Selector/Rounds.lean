import StyleTrim.Proofs.Selector.Grammar

/-!
# Rounds of reading selectors

Reading takes rounds of loops, one loop inside the other. Here every loop is told round by round,
with what stands in front of the cursor and what the round comes to, and a reading is a finite
derivation. That a loop ends is not built into the relations: every list of tokens has a reading
because each round that goes on has taken tokens, and for the same reason there are at most so many
rounds for each token.
-/

namespace StyleTrim

/-!
## Rounds
-/

/-- The loops of the readers: over simple selectors, combinators, selectors between commas, what is
passed over in front of a node, the nodes of a list, and declarations outside of all blocks. -/
inductive Loop where
  | compound
  | parts
  | selectors
  | gap
  | nodes
  | bare

/-- What a round comes to. A loop that fails stops because there is a message: an empty one would
not be noticed. -/
inductive Ending where
  | leaves
  | fails (message : Bytes)
  | goesOn (rest : List Token)

/-- One passage through the body of a loop. -/
structure Round where
  loop : Loop
  tokens : List Token
  ending : Ending

variable {loop : Loop} {ts rest left : List Token}

/-- The cursor moves from the front of `ts` to the front of `rest`, over at least one token. -/
def Advances (ts rest : List Token) : Prop :=
  ∃ taken, taken ≠ [] ∧ ts = taken ++ rest

theorem advances_of_suffix (h : rest <:+ ts) (hlt : rest.length < ts.length) :
    Advances ts rest := by
  rcases h with ⟨taken, rfl⟩
  refine ⟨taken, ?_, rfl⟩
  rintro rfl
  exact Nat.lt_irrefl _ hlt

theorem advances_cons (t : Token) (ts : List Token) : Advances (t :: ts) ts :=
  ⟨[t], List.cons_ne_nil t [], rfl⟩

theorem Advances.suffix (h : Advances ts rest) : rest <:+ ts := by
  rcases h with ⟨taken, _, hts⟩
  exact ⟨taken, hts.symm⟩

theorem Advances.length_lt (h : Advances ts rest) : rest.length < ts.length := by
  rcases h with ⟨taken, hne, rfl⟩
  have hpos := List.length_pos_iff.mpr hne
  rw [List.length_append]
  omega

theorem Advances.before (h : Advances ts rest) (hleft : left <:+ rest) : Advances ts left :=
  advances_of_suffix (hleft.trans h.suffix) (Nat.lt_of_le_of_lt hleft.length_le h.length_lt)

theorem Advances.behind (h : Advances rest left) (hrest : rest <:+ ts) : Advances ts left :=
  advances_of_suffix (h.suffix.trans hrest) (Nat.lt_of_lt_of_le h.length_lt hrest.length_le)

def Round.Progresses (round : Round) : Prop :=
  match round.ending with
  | .leaves => True
  | .fails message => message ≠ []
  | .goesOn rest => Advances round.tokens rest

theorem progresses_leaves : Round.Progresses ⟨loop, ts, .leaves⟩ :=
  trivial

theorem SelectorError.message_ne_nil (e : SelectorError) : e.message ≠ [] := by
  cases e <;> simp [SelectorError.message, ascii]

theorem progresses_selectorError (e : SelectorError) :
    Round.Progresses ⟨loop, ts, .fails e.message⟩ :=
  e.message_ne_nil

theorem progresses_goesOn (h : Advances ts rest) :
    Round.Progresses ⟨loop, ts, .goesOn rest⟩ :=
  h

def leftBehind {ε α : Type} : Except ε (α × List Token) -> List Token
  | .ok found => found.2
  | .error _ => []

@[simp] theorem leftBehind_ok {ε α : Type} (found : α) (rest : List Token) :
    leftBehind (.ok (found, rest) : Except ε (α × List Token)) = rest :=
  rfl

@[simp] theorem leftBehind_error {ε α : Type} (e : ε) :
    leftBehind (.error e : Except ε (α × List Token)) = [] :=
  rfl

@[simp] theorem leftBehind_map {ε α β : Type} (f : α -> β) (r : Except ε (α × List Token)) :
    leftBehind (r.map fun found => (f found.1, found.2)) = leftBehind r := by
  cases r <;> rfl

def AtEnd (rest : List Token) : Prop :=
  ∀ t ∈ rest.head?, t.kind = .endOfText

def Token.beyond (ts : List Token) : List Token :=
  ts.dropWhile fun t => t.kind != .endOfText

theorem Token.body_length_le (ts : List Token) : (body ts).length ≤ ts.length :=
  (List.takeWhile_sublist _).length_le

theorem Token.atEnd_beyond (ts : List Token) : AtEnd (beyond ts) := by
  intro t ht
  have hstop := List.head?_dropWhile_not (fun t : Token => t.kind != .endOfText) ts
  rw [← Token.beyond, Option.mem_def.mp ht] at hstop
  simpa using hstop

/-- What readers find in front of the end of the text, with the cursor among all tokens. -/
def among {ε α : Type} (ts : List Token) (r : Except ε (α × List Token)) :
    Except ε (α × List Token) :=
  r.map fun found => (found.1, found.2 ++ Token.beyond ts)

theorem fst_among {ε α : Type} (ts : List Token) (r : Except ε (α × List Token)) :
    (among ts r).map Prod.fst = r.map Prod.fst := by
  cases r <;> rfl

theorem examined_among {ε α : Type} {ts : List Token} {r : Except ε (α × List Token)}
    (h : leftBehind r = []) :
    ∀ found, among ts r = .ok found -> found.2 <:+ ts ∧ AtEnd found.2 := by
  intro found hfound
  cases r with
  | error e => cases hfound
  | ok inner =>
      cases hfound
      have hnone : inner.2 = [] := h
      dsimp only
      rw [hnone, List.nil_append]
      exact ⟨List.dropWhile_suffix _, Token.atEnd_beyond ts⟩

/-- Every round ends its loop, fails or takes tokens; there are only so many rounds for each token;
and what is read successfully is read to its end. -/
structure Finishes {ε α : Type} (ts : List Token) (r : Except ε (α × List Token))
    (log : List Round) : Prop where
  progresses : ∀ round ∈ log, round.Progresses
  bounded : log.length ≤ 4 * ts.length + 2
  examined : ∀ found, r = .ok found -> found.2 <:+ ts ∧ AtEnd found.2

/-- The readings of the tokens end, and each of them finds the result and finishes. -/
def Concludes {ε α : Type} (ts : List Token) (result : Except ε α)
    (reads : Except ε (α × List Token) -> List Round -> Prop) : Prop :=
  (∃ r log, reads r log) ∧
    ∀ r log, reads r log -> r.map Prod.fst = result ∧ Finishes ts r log

namespace Selector

open Simple

/-!
## Compound selectors
-/

/-- The rounds of reading simple selectors behind those already taken. -/
inductive CompoundRounds :
    Compound -> List Token -> Except SelectorError (Compound × List Token) -> List Round -> Prop
    where
  | atEnd {taken : Compound} : CompoundRounds taken [] (.ok (taken.reverse, [])) []
  | leaves {taken : Compound} {t : Token} {ts : List Token}
      (hread : read? taken.head? t ts = none) :
      CompoundRounds taken (t :: ts) (.ok (taken.reverse, t :: ts))
        [⟨.compound, t :: ts, .leaves⟩]
  | fails {taken : Compound} {t : Token} {ts : List Token} {e : SelectorError}
      (hread : read? taken.head? t ts = some (.error e)) :
      CompoundRounds taken (t :: ts) (.error e) [⟨.compound, t :: ts, .fails e.message⟩]
  | goesOn {taken : Compound} {t : Token} {ts rest : List Token} {s : Simple}
      {r : Except SelectorError (Compound × List Token)} {log : List Round}
      (hread : read? taken.head? t ts = some (.ok (s, rest)))
      (hmore : CompoundRounds (s :: taken) rest r log) :
      CompoundRounds taken (t :: ts) r (⟨.compound, t :: ts, .goesOn rest⟩ :: log)

variable {ts rest left : List Token} {log : List Round}

theorem exists_compoundRounds (taken : Compound) (ts : List Token) :
    ∃ r log, CompoundRounds taken ts r log := by
  induction hn : ts.length using Nat.strongRecOn generalizing taken ts with
  | ind n ih =>
    cases ts with
    | nil => exact ⟨_, _, .atEnd⟩
    | cons t ts =>
        cases hread : read? taken.head? t ts with
        | none => exact ⟨_, _, .leaves hread⟩
        | some found =>
            rcases found with e | ⟨s, rest⟩
            · exact ⟨_, _, .fails hread⟩
            · rcases ih rest.length (hn ▸ read?_length hread) (s :: taken) rest rfl with
                ⟨r, log, hmore⟩
              exact ⟨_, _, .goesOn hread hmore⟩

section Compound

variable {taken : Compound} {r : Except SelectorError (Compound × List Token)}

theorem CompoundRounds.result (h : CompoundRounds taken ts r log) :
    r = collectCompound taken ts := by
  induction h with
  | atEnd => rw [collectCompound]
  | leaves hread => rw [collectCompound_none hread]
  | fails hread => rw [collectCompound_error hread]
  | goesOn hread hmore ih => rw [collectCompound_some hread, ih]

theorem CompoundRounds.progresses (h : CompoundRounds taken ts r log) :
    ∀ round ∈ log, round.Progresses := by
  induction h with
  | atEnd => exact List.forall_mem_nil _
  | leaves _ => exact List.forall_mem_singleton.mpr progresses_leaves
  | fails _ => exact List.forall_mem_singleton.mpr (progresses_selectorError _)
  | goesOn hread hmore ih =>
      rcases Grammar.read?_spells hread with ⟨run, hrun, _⟩
      have hadvances := advances_of_suffix ⟨run, hrun.symm⟩ (read?_length hread)
      exact List.forall_mem_cons.mpr ⟨progresses_goesOn hadvances, ih⟩

theorem CompoundRounds.length_le (h : CompoundRounds taken ts r log) :
    log.length + (leftBehind r).length ≤ ts.length + 1 := by
  induction h with
  | atEnd => exact Nat.zero_le _
  | leaves _ => exact (Nat.add_comm _ _).le
  | fails _ => simp
  | goesOn hread hmore ih =>
      have hlt := read?_length hread
      rw [List.length_cons]
      omega

theorem CompoundRounds.rounds_le (h : CompoundRounds taken ts r log) :
    log.length ≤ ts.length + 1 :=
  Nat.le_of_add_right_le h.length_le

end Compound

theorem CompoundRounds.advances {s : Simple} {compound : Compound}
    (h : CompoundRounds [] ts (.ok (s :: compound, left)) log) : Advances ts left := by
  have hread : readCompound ts = .ok (s :: compound, left) := h.result.symm
  have hlength := readCompound_length hread
  rcases Grammar.readCompound_runs hread with ⟨runs, hts, _⟩
  rw [List.length_cons] at hlength
  exact advances_of_suffix ⟨_, hts.symm⟩ (by omega)

/-!
## Complex selectors
-/

/-- The rounds of reading combinators, each with the compound selector behind it. -/
inductive PartsRounds :
    Parts -> List Token -> Except SelectorError (Parts × List Token) -> List Round -> Prop where
  | atEnd {taken : Parts} : PartsRounds taken [] (.ok (taken.reverse, [])) []
  | leaves {taken : Parts} {ts : List Token} (hne : ts ≠ []) (hread : readCombinator? ts = none) :
      PartsRounds taken ts (.ok (taken.reverse, ts)) [⟨.parts, ts, .leaves⟩]
  | fails {taken : Parts} {ts rest : List Token} {c : Combinator} {e : SelectorError}
      {log : List Round} (hread : readCombinator? ts = some (c, rest))
      (hcompound : CompoundRounds [] rest (.error e) log) :
      PartsRounds taken ts (.error e) (⟨.parts, ts, .fails e.message⟩ :: log)
  | dangling {taken : Parts} {ts rest left : List Token} {c : Combinator} {log : List Round}
      (hread : readCombinator? ts = some (c, rest))
      (hcompound : CompoundRounds [] rest (.ok ([], left)) log) :
      PartsRounds taken ts (.error .danglingCombinator)
        (⟨.parts, ts, .fails SelectorError.danglingCombinator.message⟩ :: log)
  | goesOn {taken : Parts} {ts rest left : List Token} {c : Combinator} {s : Simple}
      {compound : Compound} {r : Except SelectorError (Parts × List Token)}
      {log more : List Round} (hread : readCombinator? ts = some (c, rest))
      (hcompound : CompoundRounds [] rest (.ok (s :: compound, left)) log)
      (hmore : PartsRounds ((c, s :: compound) :: taken) left r more) :
      PartsRounds taken ts r (⟨.parts, ts, .goesOn left⟩ :: (log ++ more))

/-- The rounds of reading one complex selector. -/
inductive ComplexRounds :
    List Token -> Except SelectorError (Complex × List Token) -> List Round -> Prop where
  | fails {ts : List Token} {e : SelectorError} {log : List Round}
      (hcompound : CompoundRounds [] ts (.error e) log) : ComplexRounds ts (.error e) log
  | missing {ts : List Token} {log : List Round}
      (hcompound : CompoundRounds [] ts (.ok ([], [])) log) :
      ComplexRounds ts (.error .missingSelector) log
  | unexpected {ts rest : List Token} {t : Token} {log : List Round}
      (hcompound : CompoundRounds [] ts (.ok ([], t :: rest)) log) :
      ComplexRounds ts (.error (.unexpected t.raw)) log
  | parts {ts rest : List Token} {s : Simple} {compound : Compound}
      {r : Except SelectorError (Parts × List Token)} {log more : List Round}
      (hcompound : CompoundRounds [] ts (.ok (s :: compound, rest)) log)
      (hmore : PartsRounds [] rest r more) :
      ComplexRounds ts (r.map fun found => (⟨s :: compound, found.1⟩, found.2)) (log ++ more)

theorem exists_partsRounds (taken : Parts) (ts : List Token) :
    ∃ r log, PartsRounds taken ts r log := by
  induction hn : ts.length using Nat.strongRecOn generalizing taken ts with
  | ind n ih =>
    cases hread : readCombinator? ts with
    | none =>
        by_cases hne : ts = []
        · exact hne ▸ ⟨_, _, .atEnd⟩
        · exact ⟨_, _, .leaves hne hread⟩
    | some found =>
        rcases found with ⟨c, rest⟩
        have hle := readCombinator?_length hread
        rcases exists_compoundRounds [] rest with ⟨e | ⟨_ | ⟨s, compound⟩, left⟩, log, hcompound⟩
        · exact ⟨_, _, .fails hread hcompound⟩
        · exact ⟨_, _, .dangling hread hcompound⟩
        · have hlt := hcompound.advances.length_lt
          rcases ih left.length (by omega) ((c, s :: compound) :: taken) left rfl with
            ⟨r, more, hmore⟩
          exact ⟨_, _, .goesOn hread hcompound hmore⟩

theorem exists_complexRounds (ts : List Token) : ∃ r log, ComplexRounds ts r log := by
  rcases exists_compoundRounds [] ts with ⟨e | ⟨_ | ⟨s, compound⟩, left⟩, log, hcompound⟩
  · exact ⟨_, _, .fails hcompound⟩
  · cases left with
    | nil => exact ⟨_, _, .missing hcompound⟩
    | cons t left => exact ⟨_, _, .unexpected hcompound⟩
  · rcases exists_partsRounds [] left with ⟨r, more, hmore⟩
    exact ⟨_, _, .parts hcompound hmore⟩

section Parts

variable {taken : Parts} {r : Except SelectorError (Parts × List Token)}

theorem PartsRounds.result (h : PartsRounds taken ts r log) : r = collectParts taken ts := by
  induction h with
  | atEnd => rw [collectParts_none rfl]
  | leaves _ hread => rw [collectParts_none hread]
  | fails hread hcompound | dangling hread hcompound =>
      rw [collectParts_some hread, readCompound, ← hcompound.result]
  | goesOn hread hcompound _ ih =>
      rw [collectParts_some hread, readCompound, ← hcompound.result]
      exact ih

theorem PartsRounds.progresses (h : PartsRounds taken ts r log) :
    ∀ round ∈ log, round.Progresses := by
  induction h with
  | atEnd => exact List.forall_mem_nil _
  | leaves _ _ => exact List.forall_mem_singleton.mpr progresses_leaves
  | fails _ hcompound | dangling _ hcompound =>
      exact List.forall_mem_cons.mpr ⟨progresses_selectorError _, hcompound.progresses⟩
  | goesOn hread hcompound _ ih =>
      rcases Grammar.readCombinator?_joins hread with ⟨join, hts, _⟩
      have hadvances := hcompound.advances.behind ⟨join, hts.symm⟩
      exact List.forall_mem_cons.mpr ⟨progresses_goesOn hadvances,
        List.forall_mem_append.mpr ⟨hcompound.progresses, ih⟩⟩

theorem readCombinator?_pos {c : Combinator} (h : readCombinator? ts = some (c, rest)) :
    0 < ts.length := by
  cases ts with
  | nil => cases h
  | cons t ts => exact Nat.succ_pos _

theorem PartsRounds.length_le (h : PartsRounds taken ts r log) :
    log.length + 3 * (leftBehind r).length ≤ 3 * ts.length + 1 := by
  induction h with
  | atEnd => exact Nat.zero_le _
  | leaves _ _ => exact (Nat.add_comm _ _).le
  | fails hread hcompound | dangling hread hcompound =>
      have hpos := readCombinator?_pos hread
      have hle := readCombinator?_length hread
      have hlog := hcompound.rounds_le
      rw [leftBehind_error, List.length_nil, List.length_cons]
      omega
  | goesOn hread hcompound _ ih =>
      have hle := readCombinator?_length hread
      have hlt := hcompound.advances.length_lt
      have hlog := hcompound.length_le
      rw [leftBehind_ok] at hlog
      rw [List.length_cons, List.length_append]
      omega

end Parts

section Complex

variable {r : Except SelectorError (Complex × List Token)}

theorem ComplexRounds.result (h : ComplexRounds ts r log) : r = readComplex ts := by
  cases h with
  | fails hcompound | missing hcompound | unexpected hcompound =>
      rw [readComplex, readCompound, ← hcompound.result]
  | parts hcompound hmore =>
      rw [readComplex, readCompound, ← hcompound.result]
      dsimp only
      rw [← hmore.result]
      rename_i r' _ _
      cases r' <;> rfl

theorem ComplexRounds.progresses (h : ComplexRounds ts r log) :
    ∀ round ∈ log, round.Progresses := by
  cases h with
  | fails hcompound | missing hcompound | unexpected hcompound => exact hcompound.progresses
  | parts hcompound hmore =>
      exact List.forall_mem_append.mpr ⟨hcompound.progresses, hmore.progresses⟩

theorem ComplexRounds.length_le (h : ComplexRounds ts r log) :
    log.length + 3 * (leftBehind r).length ≤ 3 * ts.length + 1 := by
  cases h with
  | fails hcompound | missing hcompound | unexpected hcompound =>
      have hlog := hcompound.rounds_le
      rw [leftBehind_error, List.length_nil]
      omega
  | parts hcompound hmore =>
      have hlt := hcompound.advances.length_lt
      have hlog := hcompound.length_le
      have hmorelog := hmore.length_le
      rw [leftBehind_ok] at hlog
      rw [leftBehind_map (fun parts => _), List.length_append]
      omega

theorem ComplexRounds.rounds_le (h : ComplexRounds ts r log) :
    log.length ≤ 3 * ts.length + 1 :=
  Nat.le_of_add_right_le h.length_le

theorem ComplexRounds.advances {c : Complex} (h : ComplexRounds ts (.ok (c, left)) log) :
    Advances ts left := by
  have hread := h.result.symm
  rcases Grammar.readComplex_spells hread with ⟨us, hts, _⟩
  exact advances_of_suffix ⟨us, hts.symm⟩ (readComplex_length hread)

end Complex

/-!
## Lists
-/

/-- The rounds of reading complex selectors behind those already taken. -/
inductive ListRounds :
    SelectorList -> List Token -> Except SelectorError (SelectorList × List Token) ->
      List Round -> Prop where
  | fails {taken : SelectorList} {ts : List Token} {e : SelectorError} {log : List Round}
      (hcomplex : ComplexRounds ts (.error e) log) :
      ListRounds taken ts (.error e) (⟨.selectors, ts, .fails e.message⟩ :: log)
  | leaves {taken : SelectorList} {ts rest : List Token} {c : Complex} {log : List Round}
      (hcomplex : ComplexRounds ts (.ok (c, rest)) log) (hend : skipSpace rest = []) :
      ListRounds taken ts (.ok ((c :: taken).reverse, [])) (⟨.selectors, ts, .leaves⟩ :: log)
  | unexpected {taken : SelectorList} {ts rest after : List Token} {c : Complex} {t : Token}
      {log : List Round} (hcomplex : ComplexRounds ts (.ok (c, rest)) log)
      (hnext : skipSpace rest = t :: after) (hcomma : t.kind ≠ .comma) :
      ListRounds taken ts (.error (.unexpected t.raw))
        (⟨.selectors, ts, .fails (SelectorError.unexpected t.raw).message⟩ :: log)
  | trailing {taken : SelectorList} {ts rest after : List Token} {c : Complex} {t : Token}
      {log : List Round} (hcomplex : ComplexRounds ts (.ok (c, rest)) log)
      (hnext : skipSpace rest = t :: after) (hcomma : t.kind = .comma)
      (hend : skipSpace after = []) :
      ListRounds taken ts (.error .trailingComma)
        (⟨.selectors, ts, .fails SelectorError.trailingComma.message⟩ :: log)
  | goesOn {taken : SelectorList} {ts rest after left : List Token} {c : Complex} {t u : Token}
      {r : Except SelectorError (SelectorList × List Token)} {log more : List Round}
      (hcomplex : ComplexRounds ts (.ok (c, rest)) log)
      (hnext : skipSpace rest = t :: after) (hcomma : t.kind = .comma)
      (hleft : skipSpace after = u :: left) (hmore : ListRounds (c :: taken) (u :: left) r more) :
      ListRounds taken ts r (⟨.selectors, ts, .goesOn (u :: left)⟩ :: (log ++ more))

theorem skipSpace_suffix (ts : List Token) : skipSpace ts <:+ ts :=
  List.dropWhile_suffix _

theorem advances_of_comma {t : Token} {after : List Token} (hnext : skipSpace rest = t :: after) :
    Advances rest (skipSpace after) := by
  have hrest := skipSpace_suffix rest
  rw [hnext] at hrest
  exact ((advances_cons t after).behind hrest).before (skipSpace_suffix after)

theorem exists_listRounds (taken : SelectorList) (ts : List Token) :
    ∃ r log, ListRounds taken ts r log := by
  induction hn : ts.length using Nat.strongRecOn generalizing taken ts with
  | ind n ih =>
    rcases exists_complexRounds ts with ⟨e | ⟨c, rest⟩, log, hcomplex⟩
    · exact ⟨_, _, .fails hcomplex⟩
    · cases hnext : skipSpace rest with
      | nil => exact ⟨_, _, .leaves hcomplex hnext⟩
      | cons t after =>
          by_cases hcomma : t.kind = .comma
          · cases hleft : skipSpace after with
            | nil => exact ⟨_, _, .trailing hcomplex hnext hcomma hleft⟩
            | cons u left =>
                have hlt := hcomplex.advances.length_lt
                have hlt' := (advances_of_comma hnext).length_lt
                rw [hleft] at hlt'
                rcases ih (u :: left).length (by omega) (c :: taken) (u :: left) rfl with
                  ⟨r, more, hmore⟩
                exact ⟨_, _, .goesOn hcomplex hnext hcomma hleft hmore⟩
          · exact ⟨_, _, .unexpected hcomplex hnext hcomma⟩

section Lists

variable {taken : SelectorList} {r : Except SelectorError (SelectorList × List Token)}

theorem ListRounds.result (h : ListRounds taken ts r log) :
    r.map Prod.fst = collectList taken ts := by
  induction h with
  | fails hcomplex =>
      rw [collectList_eq, ← hcomplex.result]
      rfl
  | leaves hcomplex hend =>
      rw [collectList_eq, ← hcomplex.result]
      dsimp only
      rw [hend]
      rfl
  | unexpected hcomplex hnext hcomma =>
      rw [collectList_eq, ← hcomplex.result]
      dsimp only
      rw [hnext]
      exact (if_neg hcomma).symm
  | trailing hcomplex hnext hcomma hend =>
      rw [collectList_eq, ← hcomplex.result]
      dsimp only
      rw [hnext]
      dsimp only
      rw [if_pos hcomma, hend]
      rfl
  | goesOn hcomplex hnext hcomma hleft hmore ih =>
      rw [collectList_eq, ← hcomplex.result]
      dsimp only
      rw [hnext]
      dsimp only
      rw [if_pos hcomma, hleft]
      exact ih

theorem ListRounds.progresses (h : ListRounds taken ts r log) :
    ∀ round ∈ log, round.Progresses := by
  induction h with
  | leaves hcomplex _ => exact List.forall_mem_cons.mpr ⟨progresses_leaves, hcomplex.progresses⟩
  | fails hcomplex | unexpected hcomplex _ _ | trailing hcomplex _ _ _ =>
      exact List.forall_mem_cons.mpr ⟨progresses_selectorError _, hcomplex.progresses⟩
  | goesOn hcomplex hnext _ hleft _ ih =>
      have hadvances := hcomplex.advances.before (advances_of_comma hnext).suffix
      rw [hleft] at hadvances
      exact List.forall_mem_cons.mpr ⟨progresses_goesOn hadvances,
        List.forall_mem_append.mpr ⟨hcomplex.progresses, ih⟩⟩

theorem ListRounds.length_le (h : ListRounds taken ts r log) :
    log.length + 4 * (leftBehind r).length ≤ 4 * ts.length + 2 := by
  induction h with
  | goesOn hcomplex hnext _ hleft _ ih =>
      have hlog := hcomplex.length_le
      have hlt := hcomplex.advances.length_lt
      have hlt' := (advances_of_comma hnext).length_lt
      rw [leftBehind_ok] at hlog
      rw [hleft] at hlt'
      rw [List.length_cons, List.length_append]
      omega
  | fails hcomplex | leaves hcomplex _ | unexpected hcomplex _ _ | trailing hcomplex _ _ _ =>
      have hlog := hcomplex.rounds_le
      simp only [leftBehind_ok, leftBehind_error, List.length_nil, List.length_cons]
      omega

theorem ListRounds.leftBehind_eq_nil (h : ListRounds taken ts r log) : leftBehind r = [] := by
  induction h with
  | goesOn _ _ _ _ _ ih => exact ih
  | _ => rfl

end Lists

/-- The rounds of reading tokens as a selector list. -/
inductive SelectorRounds (ts : List Token) :
    Except SelectorError (SelectorList × List Token) -> List Round -> Prop where
  | empty (hend : skipSpace (Token.body ts) = []) : SelectorRounds ts (.error .empty) []
  | list {t : Token} {rest : List Token} {r : Except SelectorError (SelectorList × List Token)}
      {log : List Round} (hnext : skipSpace (Token.body ts) = t :: rest)
      (hlist : ListRounds [] (t :: rest) r log) : SelectorRounds ts (among ts r) log

theorem exists_selectorRounds (ts : List Token) : ∃ r log, SelectorRounds ts r log := by
  cases hnext : skipSpace (Token.body ts) with
  | nil => exact ⟨_, _, .empty hnext⟩
  | cons t rest =>
      rcases exists_listRounds [] (t :: rest) with ⟨r, log, hlist⟩
      exact ⟨_, _, .list hnext hlist⟩

section Selectors

variable {r : Except SelectorError (SelectorList × List Token)}

theorem SelectorRounds.result (h : SelectorRounds ts r log) :
    r.map Prod.fst = SelectorList.ofTokens ts := by
  cases h with
  | empty hend =>
      rw [SelectorList.ofTokens, hend]
      rfl
  | list hnext hlist =>
      rw [SelectorList.ofTokens, hnext, fst_among]
      exact hlist.result

theorem SelectorRounds.progresses (h : SelectorRounds ts r log) :
    ∀ round ∈ log, round.Progresses := by
  cases h with
  | empty _ => exact List.forall_mem_nil _
  | list _ hlist => exact hlist.progresses

theorem SelectorRounds.length_le (h : SelectorRounds ts r log) :
    log.length ≤ 4 * ts.length + 2 := by
  cases h with
  | empty _ => exact Nat.zero_le _
  | list hnext hlist =>
      have hlog := hlist.length_le
      have hskip := skipSpace_length_le (Token.body ts)
      have hbody := Token.body_length_le ts
      rw [hnext] at hskip
      omega

end Selectors

theorem concludes_selectors (ts : List Token) :
    Concludes ts (SelectorList.ofTokens ts) (SelectorRounds ts) := by
  refine ⟨exists_selectorRounds ts, fun r log h => ⟨h.result, ?_⟩⟩
  refine ⟨h.progresses, h.length_le, ?_⟩
  cases h with
  | empty _ => rintro found ⟨⟩
  | list _ hlist => exact examined_among hlist.leftBehind_eq_nil

end Selector
end StyleTrim
