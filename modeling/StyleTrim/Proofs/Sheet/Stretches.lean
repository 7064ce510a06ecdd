import StyleTrim.Proofs.Sheet.Growth
import StyleTrim.Proofs.Token.Rewritten

/-!
# The stretches of a sheet

The preludes and values of a tree are the texts of stretches of tokens, which the machine cuts off
while it builds the tree. This module lists them, moment by moment, and says what makes a stretch
sound: it can be written without two of its tokens clashing, the braces of a value are closed by the
writer just where the reader counts them, and the name of an at-rule needs no escape.
-/

namespace StyleTrim
namespace Sheet

open Token

/-!
## Stretches
-/

/-- The tokens behind a head of the tree. -/
inductive Stretch where
  | atRule (name : Bytes) (prelude : List Token)
  | rule (prelude : List Token)
  | declaration (value : List Token)

def ruleStretch? (ts : List Token) : Option Stretch :=
  match (splitPrelude false 0 ts).2 with
  | [] => none
  | u :: _ => if u.kind = .leftBrace then some (.rule (splitPrelude false 0 ts).1) else none

def declarationStretch? (opening : Opening) : Option Stretch :=
  let value := (splitValue 0 0 opening.rest).1
  if value.any Token.isBad then none
  else some (.declaration ((dropImportant? value).getD value))

/-- The stretch that is cut off at this moment. -/
def Moment.stretch? (moment : Moment) : Option Stretch :=
  match moment.left with
  | [] => none
  | t :: ts =>
      if t.kind = .atKeyword then some (.atRule t.value (splitPrelude true 0 ts).1)
      else if moment.body.skips t.kind || t.kind == .rightBrace then none
      else
        match moment.body with
        | .rules _ => ruleStretch? (t :: ts)
        | .declarations =>
            match declarationAhead? (t :: ts) with
            | some opening => declarationStretch? opening
            | none => if ruleAhead 0 (t :: ts) then ruleStretch? (t :: ts) else none

/-- The stretches of a text, in the order in which they are read. -/
def stretches (o : Options) (s : Bytes) : List Stretch :=
  (buildMoments o (.rules o.isStrict) (tokenize s)).filterMap Moment.stretch?

/-!
## Sound stretches
-/

/-- The writer owes as many braces as the reader counts. -/
def bracesAgree (value : List Token) : Bool :=
  (owed value).count 0x7D == value.foldl bracesAfter 0

/-- What is written for the value, which has no lone backslash, is important only if the value
is. -/
def marksAgree (value : List Token) : Bool :=
  (dropImportant? value).isSome || (dropImportant? (unslashed value)).isNone

/-- What is written for the stretch is read as the same tokens. A lone backslash is not written,
and so it must not stand in the prelude of a rule. -/
def Stretch.isSound : Stretch -> Bool
  | .atRule name prelude =>
      Lexeme.startsName name && name.all Byte.isName && separable .prelude none false prelude
  | .rule prelude =>
      prelude.all (fun t => !t.isDelim 0x5C) && separable .selector none false prelude
  | .declaration value =>
      separable .value none false value && bracesAgree value && marksAgree value

theorem sound_rule {prelude : List Token} (h : (Stretch.rule prelude).isSound = true) :
    NoSlash prelude ∧ separable .selector none false prelude = true := by
  rw [Stretch.isSound, Bool.and_eq_true, List.all_eq_true] at h
  exact ⟨fun t ht => by simpa using h.1 t ht, h.2⟩

/-!
## What is left is the end of what there was
-/

theorem splitPrelude_suffix (statement : Bool) (depth : Nat) (ts : List Token) :
    (splitPrelude statement depth ts).2 <:+ ts :=
  ⟨_, splitPrelude_append statement depth ts⟩

theorem splitValue_suffix (depth braces : Nat) (ts : List Token) :
    (splitValue depth braces ts).2 <:+ ts :=
  ⟨_, splitValue_append depth braces ts⟩

theorem dropSemicolon_suffix (ts : List Token) : dropSemicolon ts <:+ ts := by
  cases ts with
  | nil => exact List.suffix_refl _
  | cons t ts =>
      rw [dropSemicolon]
      split
      · exact List.suffix_cons t ts
      · exact List.suffix_refl _

theorem openingAfter?_suffix {before : Bytes} {ts : List Token} {opening : Opening}
    (h : openingAfter? before ts = some opening) : opening.rest <:+ ts := by
  unfold openingAfter? at h
  split at h
  · cases h
  · rename_i t ts
    split at h
    · split at h
      · cases h
      · rename_i colon rest hskip
        split at h
        · cases h
          have hsuffix : Simple.skipSpace ts <:+ ts := List.dropWhile_suffix _
          rw [hskip] at hsuffix
          exact ((List.suffix_cons colon rest).trans hsuffix).trans (List.suffix_cons t ts)
        · cases h
    · cases h

theorem declarationAhead?_suffix {ts : List Token} {opening : Opening}
    (h : declarationAhead? ts = some opening) : opening.rest <:+ ts := by
  unfold declarationAhead? at h
  split at h
  · cases h
  · rename_i found hfound
    split at h
    · rename_i hkeep
      cases h
      unfold opening? at hfound
      split at hfound
      · cases hfound
      · rename_i t ts
        split at hfound
        · exact (openingAfter?_suffix hfound).trans (List.suffix_cons t ts)
        · exact openingAfter?_suffix hfound
    · cases h

theorem Takes.suffix {o : Options} {st st' : State} {t : Token} {ts rest : List Token}
    (h : Takes o st t ts st' rest) : rest <:+ t :: ts := by
  have htail : ts <:+ t :: ts := List.suffix_cons t ts
  cases h with
  | pass _ => exact htail
  | close _ _ => exact htail
  | statement _ hend =>
      have hsplit := (splitPrelude_suffix true 0 ts).trans htail
      generalize (splitPrelude true 0 ts).2 = left at hend hsplit
      cases hend with
      | atEnd => exact hsplit
      | semicolon _ => exact (List.suffix_cons _ _).trans hsplit
      | brace _ => exact hsplit
  | enterAtRule _ hsplit _ _ =>
      have hrest := (splitPrelude_suffix true 0 ts).trans htail
      rw [hsplit] at hrest
      exact (List.suffix_cons _ _).trans hrest
  | enterRule _ _ hsplit _ _ =>
      have hrest := splitPrelude_suffix false 0 (t :: ts)
      rw [hsplit] at hrest
      exact (List.suffix_cons _ _).trans hrest
  | dropRule _ _ _ _ => exact splitPrelude_suffix false 0 (t :: ts)
  | declare hbody hkind hahead =>
      rename_i opening
      have hrest : (stepDeclaration st opening).2 =
          dropSemicolon (splitValue 0 0 opening.rest).2 := by
        unfold stepDeclaration
        dsimp only
        split <;> rfl
      rw [hrest]
      exact ((dropSemicolon_suffix _).trans (splitValue_suffix 0 0 _)).trans
        (declarationAhead?_suffix hahead)
  | malformed _ _ _ _ =>
      exact (dropSemicolon_suffix _).trans (splitValue_suffix 0 0 (t :: ts))

theorem moments_suffix {o : Options} {st : State} {ts : List Token} {moment : Moment}
    (h : moment ∈ moments o st ts) : moment.left <:+ ts := by
  induction hn : ts.length using Nat.strongRecOn generalizing st ts with
  | ind n ih =>
    cases ts with
    | nil =>
        rw [moments] at h
        cases h
    | cons t rest =>
        cases hstep : step o st t rest with
        | error e =>
            rw [moments] at h
            rcases List.mem_cons.mp h with rfl | hmem
            · exact List.suffix_refl _
            · split at hmem
              · cases hmem
              · rename_i hok
                rw [hstep] at hok
                cases hok
        | ok next =>
            rcases next with ⟨st', rest'⟩
            rw [moments_cons_of_ok hstep] at h
            rcases List.mem_cons.mp h with rfl | hmem
            · exact List.suffix_refl _
            · have hlt := step_length hstep
              exact (ih rest'.length (hn ▸ hlt) hmem rfl).trans (step_takes hstep).suffix

/-!
## Sound moments
-/

/-- The tokens at this moment come from a text, and the stretch that is cut off is sound. -/
structure Moment.Sound (moment : Moment) : Prop where
  lexed : Lexed moment.left
  stretch : ∀ stretch, moment.stretch? = some stretch -> stretch.isSound = true

theorem sound_of_stretches {o : Options} {s : Bytes}
    (h : ∀ stretch ∈ stretches o s, stretch.isSound = true) :
    ∀ moment ∈ buildMoments o (.rules o.isStrict) (tokenize s), moment.Sound := by
  intro moment hmem
  constructor
  · rcases moments_suffix hmem with ⟨front, hfront⟩
    have hlexed := lexed_tokenize s
    rw [← hfront] at hlexed
    exact hlexed.suffix
  · intro stretch hstretch
    exact h stretch (List.mem_filterMap.mpr ⟨moment, hmem, hstretch⟩)

theorem stretch_of_atKeyword {body : Body} {t : Token} {ts : List Token}
    (hat : t.kind = .atKeyword) :
    Moment.stretch? ⟨body, t :: ts⟩ = some (.atRule t.value (splitPrelude true 0 ts).1) := by
  simp [Moment.stretch?, hat]

theorem stretch_of_rule {body : Body} {t u : Token} {ts rest : List Token}
    (hkind : body.opensOn t.kind) (hseek : body.seeksRule (t :: ts))
    (hsplit : (splitPrelude false 0 (t :: ts)).2 = u :: rest) (hopen : u.kind = .leftBrace) :
    Moment.stretch? ⟨body, t :: ts⟩ = some (.rule (splitPrelude false 0 (t :: ts)).1) := by
  rcases hkind with ⟨hskip, hbrace, hat⟩
  have hrule : ruleStretch? (t :: ts) = some (.rule (splitPrelude false 0 (t :: ts)).1) := by
    simp [ruleStretch?, hsplit, hopen]
  cases body with
  | rules selectors => simp [Moment.stretch?, hat, hskip, hbrace, hrule]
  | declarations =>
      rcases hseek rfl with ⟨hahead, hruleAhead⟩
      simp [Moment.stretch?, hat, hskip, hbrace, hahead, hruleAhead, hrule]

theorem stretch_of_declaration {t : Token} {ts : List Token} {opening : Opening}
    (hkind : Body.declarations.opensOn t.kind)
    (hahead : declarationAhead? (t :: ts) = some opening) :
    Moment.stretch? ⟨.declarations, t :: ts⟩ = declarationStretch? opening := by
  rcases hkind with ⟨hskip, hbrace, hat⟩
  simp [Moment.stretch?, hat, hskip, hbrace, hahead]

end Sheet
end StyleTrim
