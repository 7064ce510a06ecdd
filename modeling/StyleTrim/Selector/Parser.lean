import StyleTrim.Selector.Simple

/-!
# Reading a selector list

Compound selectors, complex selectors and lists are read one inside the other. Each loop takes at
least one token a round, which is why it ends; the lemmas beside the loops count the tokens.
-/

namespace StyleTrim
namespace Selector

open Simple

/-!
## Compound selectors
-/

def collectCompound (taken : Compound) (ts : List Token) :
    Except SelectorError (Compound × List Token) :=
  match ts with
  | [] => .ok (taken.reverse, [])
  | t :: rest =>
      match _h : read? taken.head? t rest with
      | none => .ok (taken.reverse, t :: rest)
      | some (.error e) => .error e
      | some (.ok (s, rest')) => collectCompound (s :: taken) rest'
termination_by ts.length
decreasing_by exact read?_length (by assumption)

def readCompound (ts : List Token) : Except SelectorError (Compound × List Token) :=
  collectCompound [] ts

theorem collectCompound_length {taken c : Compound} {ts rest : List Token}
    (h : collectCompound taken ts = .ok (c, rest)) :
    rest.length + c.length ≤ ts.length + taken.length := by
  induction hn : ts.length using Nat.strongRecOn generalizing taken ts with
  | ind n ih =>
    rw [collectCompound.eq_def] at h
    split at h
    · cases h
      simp
    · split at h
      · cases h
        simp [← hn]
      · cases h
      · rename_i t tail _ s rest' hread
        have hlt := read?_length hread
        have hrec := ih rest'.length (hn ▸ hlt) h rfl
        simp only [List.length_cons] at hlt hrec hn
        omega

theorem readCompound_length {c : Compound} {ts rest : List Token}
    (h : readCompound ts = .ok (c, rest)) : rest.length + c.length ≤ ts.length := by
  have := collectCompound_length h
  simpa using this

/-!
## Combinators
-/

def combinatorOf? (t : Token) : Option Combinator :=
  if t.isDelim 0x3E then some .child
  else if t.isDelim 0x2B then some .nextSibling
  else if t.isDelim 0x7E then some .subsequentSibling
  else none

def startsCompound (t : Token) : Bool :=
  t.kind == .ident || t.kind == .hash || t.kind == .leftBracket || t.kind == .colon ||
    t.isDelim 0x2E || t.isDelim 0x2A || t.isDelim 0x26 || t.isDelim 0x7C

def startsWithSpace : List Token -> Bool
  | [] => false
  | t :: _ => t.kind == .whitespace

/-- The combinator at the front of the tokens, with the white space around it. White space alone
is one when a compound selector comes next. -/
def readCombinator? (ts : List Token) : Option (Combinator × List Token) :=
  match skipSpace ts with
  | [] => none
  | t :: rest =>
      match combinatorOf? t with
      | some c => some (c, skipSpace rest)
      | none =>
          if startsWithSpace ts && startsCompound t then some (.descendant, t :: rest) else none

theorem readCombinator?_length {ts rest : List Token} {c : Combinator}
    (h : readCombinator? ts = some (c, rest)) : rest.length ≤ ts.length := by
  have hskip := skipSpace_length_le ts
  unfold readCombinator? at h
  split at h
  · cases h
  · rename_i t tail htail
    rw [htail, List.length_cons] at hskip
    split at h
    · cases h
      have := skipSpace_length_le tail
      omega
    · split at h
      · cases h
        rw [List.length_cons]
        exact hskip
      · cases h

/-!
## Complex selectors
-/

def collectParts (taken : List (Combinator × Compound)) (ts : List Token) :
    Except SelectorError (List (Combinator × Compound) × List Token) :=
  match _h : readCombinator? ts with
  | none => .ok (taken.reverse, ts)
  | some (c, rest) =>
      match _h' : readCompound rest with
      | .error e => .error e
      | .ok ([], _) => .error .danglingCombinator
      | .ok (s :: compound, rest') => collectParts ((c, s :: compound) :: taken) rest'
termination_by ts.length
decreasing_by
  have h1 := readCombinator?_length (by assumption)
  have h2 := readCompound_length (by assumption)
  simp only [List.length_cons] at h2
  omega

def readComplex (ts : List Token) : Except SelectorError (Complex × List Token) :=
  match readCompound ts with
  | .error e => .error e
  | .ok ([], []) => .error .missingSelector
  | .ok ([], t :: _) => .error (.unexpected t.raw)
  | .ok (s :: compound, rest) =>
      match collectParts [] rest with
      | .error e => .error e
      | .ok (parts, rest') => .ok (⟨s :: compound, parts⟩, rest')

theorem collectParts_length {taken parts : List (Combinator × Compound)} {ts rest : List Token}
    (h : collectParts taken ts = .ok (parts, rest)) : rest.length ≤ ts.length := by
  induction hn : ts.length using Nat.strongRecOn generalizing taken ts with
  | ind n ih =>
    rw [collectParts] at h
    split at h
    · cases h
      omega
    · rename_i c after hcomb
      have h1 := readCombinator?_length hcomb
      split at h
      · cases h
      · cases h
      · rename_i s compound rest' hcompound
        have h2 := readCompound_length hcompound
        simp only [List.length_cons] at h2
        have := ih rest'.length (by omega) h rfl
        omega

theorem readComplex_ok {ts rest : List Token} {c : Complex}
    (h : readComplex ts = .ok (c, rest)) :
    ∃ s compound after parts, readCompound ts = .ok (s :: compound, after) ∧
      collectParts [] after = .ok (parts, rest) ∧ c = ⟨s :: compound, parts⟩ := by
  unfold readComplex at h
  split at h
  · cases h
  · cases h
  · cases h
  · rename_i s compound after hcompound
    split at h
    · cases h
    · rename_i parts rest' hparts
      cases h
      exact ⟨s, compound, after, parts, hcompound, hparts, rfl⟩

theorem readComplex_length {ts rest : List Token} {c : Complex}
    (h : readComplex ts = .ok (c, rest)) : rest.length < ts.length := by
  rcases readComplex_ok h with ⟨s, compound, after, parts, hcompound, hparts, _⟩
  have h1 := readCompound_length hcompound
  have h2 := collectParts_length hparts
  simp only [List.length_cons] at h1
  omega

/-!
## Lists
-/

def collectList (taken : SelectorList) (ts : List Token) : Except SelectorError SelectorList :=
  match _h : readComplex ts with
  | .error e => .error e
  | .ok (c, rest) =>
      match _h' : skipSpace rest with
      | [] => .ok (c :: taken).reverse
      | t :: after =>
          if t.kind = .comma then
            match _h'' : skipSpace after with
            | [] => .error .trailingComma
            | next :: more => collectList (c :: taken) (next :: more)
          else .error (.unexpected t.raw)
termination_by ts.length
decreasing_by
  have h1 := readComplex_length (by assumption)
  have h2 := skipSpace_length_le rest
  have h3 := skipSpace_length_le after
  simp only [_h', List.length_cons] at h2
  rw [_h''] at h3
  omega

end Selector

namespace SelectorList

/-- Reads tokens as a selector list. Any token that cannot belong to one makes the reading
fail, and the first such token is what is reported. -/
def ofTokens (ts : List Token) : Except SelectorError SelectorList :=
  match Simple.skipSpace (Token.body ts) with
  | [] => .error .empty
  | t :: rest => Selector.collectList [] (t :: rest)

/-- Reads a text as a selector list. A string or an address that breaks off spoils the list
wherever it stands. -/
def ofText (s : Bytes) : Except SelectorError SelectorList :=
  let ts := Token.tokenize s
  if ts.any Token.isBad then .error .malformedToken else ofTokens ts

def ofTextOrEmpty (s : Bytes) : SelectorList :=
  match ofText s with
  | .ok list => list
  | .error _ => []

end SelectorList
end StyleTrim
