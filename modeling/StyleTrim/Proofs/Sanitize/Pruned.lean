import Mathlib.Data.List.Chain
import StyleTrim.Proofs.Sanitize.Spans
import StyleTrim.Proofs.Token.Parting

/-!
# What makes tokens dangerous

A token is dangerous by itself or behind the last one that is no white space. So what is found in a
text is told by its tokens, and by those that are neighbours when white space is left out. Where the
tokens of one text come again in another one, up to addresses that went wrong, only tokens that were
no neighbours before can be dangerous together.
-/

namespace StyleTrim
namespace Decoded

open Token

/-!
## Dangerous tokens
-/

def isActive (l : Lexeme) : Bool :=
  (l.kind == .url && isDangerousAddress l.value) ||
    (l.kind == .function && sameWord l.value (ascii "expression"))

/-- An address in quotes begins. -/
def opensQuoted (l : Lexeme) : Bool :=
  l.kind == .function && sameWord l.value (ascii "url")

/-- The string is dangerous as an address. -/
def isDangerousLink (l : Lexeme) : Bool :=
  l.kind == .string && isDangerousAddress l.value

/-- The tokens are a property and its colon, or an import and its script. -/
def joins (l m : Lexeme) : Bool :=
  (l.kind == .ident && isDangerousProperty l.value && m.kind == .colon) ||
    (l.kind == .atKeyword && sameWord l.value (ascii "import") &&
      (m.kind == .string && startsWithWord Pattern.scriptScheme m.value))

/-- The tokens that are no white space. -/
def visible (ls : List Lexeme) : List Lexeme :=
  ls.filter fun l => l.kind != .whitespace

/-- The second token is not dangerous behind the first one. -/
def Harmless (l m : Lexeme) : Prop :=
  joins l m = false ∧ (opensQuoted l = true -> isDangerousLink m = false)

theorem visible_space {l : Lexeme} (ls : List Lexeme) (h : l.kind = .whitespace) :
    visible (l :: ls) = visible ls := by
  simp [visible, h]

theorem visible_cons {l : Lexeme} (ls : List Lexeme) (h : l.kind ≠ .whitespace) :
    visible (l :: ls) = l :: visible ls := by
  simp [visible, h]

theorem head?_visible (ts : List Token) :
    (visible (ts.map lexeme)).head? = (firstVisible ts).map lexeme := by
  rw [visible, List.filter_map, List.head?_map, List.head?_filter]
  rfl

theorem colonStop?_of_space {ws ts : List Token} {c : Token}
    (hspace : ∀ w ∈ ws, w.kind = .whitespace) (hcolon : c.kind = .colon) :
    colonStop? (ws ++ c :: ts) = some c.stop := by
  induction ws with
  | nil => simp [colonStop?, hcolon]
  | cons w ws ih =>
      rw [List.cons_append, colonStop?, if_pos (hspace w List.mem_cons_self)]
      exact ih fun v hv => hspace v (List.mem_cons_of_mem w hv)

theorem colonStop?_eq_some {ts : List Token} {stop : Nat} (h : colonStop? ts = some stop) :
    ∃ ws c rest, ts = ws ++ c :: rest ∧ (∀ w ∈ ws, w.kind = .whitespace) ∧ c.kind = .colon ∧
      c.stop = stop := by
  induction ts with
  | nil => cases h
  | cons t ts ih =>
      rw [colonStop?] at h
      split at h
      · rename_i hspace
        rcases ih h with ⟨ws, c, rest, rfl, hws, hcolon, hstop⟩
        exact ⟨t :: ws, c, rest, rfl, List.forall_mem_cons.mpr ⟨hspace, hws⟩, hcolon, hstop⟩
      · split at h
        · rename_i hcolon
          cases h
          exact ⟨[], t, ts, rfl, by simp, hcolon, rfl⟩
        · cases h

theorem head?_of_colonStop? {ts : List Token} {stop : Nat} (h : colonStop? ts = some stop) :
    ∃ m, (visible (ts.map lexeme)).head? = some m ∧ m.kind = .colon := by
  rcases colonStop?_eq_some h with ⟨ws, c, rest, rfl, hws, hcolon, _⟩
  refine ⟨c.lexeme, ?_, hcolon⟩
  rw [head?_visible, firstVisible_of_space hws (by rw [hcolon]; decide)]
  rfl

theorem stopAt?_eq_none {before after : List Token} {t : Token}
    (hactive : isActive t.lexeme = false)
    (hbefore : ∀ p, lastSignificant before = some p -> Harmless p.lexeme t.lexeme)
    (hafter : ∀ m, (visible (after.map lexeme)).head? = some m -> joins t.lexeme m = false) :
    stopAt? before t after = none := by
  unfold stopAt?
  split
  · rename_i hkind
    have hvalue : isDangerousAddress t.value = false := by
      simpa [isActive, lexeme, hkind] using hactive
    simp [hvalue]
  · rename_i hkind
    have hstring : isDangerousString (lastSignificant before) t.value = false := by
      cases hlast : lastSignificant before with
      | none => rfl
      | some p =>
          rcases hbefore p hlast with ⟨hjoins, hlink⟩
          simp only [isDangerousString]
          split
          · rename_i hurl
            simpa [isDangerousLink, lexeme, hkind] using hlink (by simp [opensQuoted, lexeme, hurl])
          · split
            · rename_i himport
              simpa [joins, lexeme, hkind, himport] using hjoins
            · rfl
    simp [hstring]
  · rename_i hkind
    have hvalue : sameWord t.value (ascii "expression") = false := by
      simpa [isActive, lexeme, hkind] using hactive
    simp [hvalue]
  · rename_i hkind
    split
    · rename_i hproperty
      rw [Option.eq_none_iff_forall_ne_some]
      intro stop hstop
      rcases head?_of_colonStop? hstop with ⟨m, hm, hcolon⟩
      have hjoins := hafter m hm
      simp [joins, lexeme, hkind, hproperty, hcolon] at hjoins
    · rfl
  · rfl

theorem collect_eq_nil {before ts : List Token}
    (hactive : ∀ t ∈ ts, isActive t.lexeme = false)
    (hchain : (((lastSignificant before).map lexeme).toList ++
      visible (ts.map lexeme)).IsChain Harmless) : collect before ts [] = [] := by
  induction ts generalizing before with
  | nil => rfl
  | cons t ts ih =>
      have hnext := hchain
      rw [List.map_cons] at hchain hnext
      by_cases hspace : t.kind = .whitespace
      · have hnone : stopAt? before t ts = none := by simp [stopAt?, hspace]
        rw [visible_space _ hspace] at hnext
        rw [collect, hnone]
        apply ih (fun u hu => hactive u (List.mem_cons_of_mem t hu))
        rw [lastSignificant, if_pos hspace]
        exact hnext
      · rw [visible_cons _ hspace] at hnext
        have hbehind := hnext.right_of_append
        have hnone : stopAt? before t ts = none := by
          apply stopAt?_eq_none (hactive t List.mem_cons_self)
          · intro p hp
            rw [hp] at hnext
            exact (List.isChain_cons_cons.mp hnext).1
          · intro m hm
            exact ((List.isChain_cons.mp hbehind).1 m hm).1
        rw [collect, hnone]
        apply ih (fun u hu => hactive u (List.mem_cons_of_mem t hu))
        rw [lastSignificant, if_neg hspace]
        exact hbehind

theorem isActive_of_stopAt? {before ts : List Token} {t : Token}
    (h : stopAt? before t ts = none) : isActive t.lexeme = false := by
  unfold stopAt? at h
  split at h
  · rename_i hkind
    have hvalue : isDangerousAddress t.value = false := by simpa using h
    simp [isActive, lexeme, hkind, hvalue]
  · rename_i hkind
    simp [isActive, lexeme, hkind]
  · rename_i hkind
    have hvalue : sameWord t.value (ascii "expression") = false := by simpa using h
    simp [isActive, lexeme, hkind, hvalue]
  · rename_i hkind
    simp [isActive, lexeme, hkind]
  · rename_i hurl hstring hfunction hident
    have hkind : t.kind ≠ .url ∧ t.kind ≠ .function := ⟨hurl, hfunction⟩
    simp [isActive, lexeme, hkind]

theorem lastSignificant_space {ws : List Token} (h : ∀ w ∈ ws, w.kind = .whitespace)
    (before : List Token) : lastSignificant (ws ++ before) = lastSignificant before := by
  induction ws with
  | nil => rfl
  | cons w ws ih =>
      rw [List.cons_append, lastSignificant, if_pos (h w List.mem_cons_self)]
      exact ih fun v hv => h v (List.mem_cons_of_mem w hv)

theorem harmless_of_collect {before ts : List Token} {t : Token}
    (hspace : t.kind ≠ .whitespace) (hstop : stopAt? before t ts = none)
    (hcollect : collect (t :: before) ts [] = []) :
    ∀ m ∈ (visible (ts.map lexeme)).head?, Harmless t.lexeme m := by
  intro m hm
  rw [head?_visible] at hm
  rcases Option.map_eq_some_iff.mp hm with ⟨u, hu, rfl⟩
  rcases List.find?_eq_some_iff_append.mp hu with ⟨_, ws, us, rfl, hws⟩
  have hws : ∀ w ∈ ws, w.kind = .whitespace := by simpa using hws
  have hlast : lastSignificant (ws.reverse ++ t :: before) = some t := by
    rw [lastSignificant_space fun w hw => hws w (List.mem_reverse.mp hw), lastSignificant,
      if_neg hspace]
  rw [Sanitize.collect_passes fun w hw => Or.inl (hws w hw)] at hcollect
  have hnone : stopAt? (ws.reverse ++ t :: before) u us = none := by
    cases hcut : stopAt? (ws.reverse ++ t :: before) u us with
    | none => rfl
    | some stop =>
        rw [Sanitize.collect_cut hcut] at hcollect
        cases hcollect
  constructor
  · rw [Bool.eq_false_iff]
    intro hjoins
    rcases Bool.or_eq_true_iff.mp hjoins with hproperty | hscript
    · simp only [Bool.and_eq_true, beq_iff_eq, lexeme] at hproperty
      rcases hproperty with ⟨⟨hkind, hname⟩, hcolon⟩
      simp [stopAt?, hkind, hname, colonStop?_of_space hws hcolon] at hstop
    · simp only [Bool.and_eq_true, beq_iff_eq, lexeme] at hscript
      rcases hscript with ⟨⟨hkind, hword⟩, hstring, hvalue⟩
      simp [stopAt?, hstring, hlast, isDangerousString, hkind, hword, hvalue] at hnone
  · intro hopens
    rw [Bool.eq_false_iff]
    intro hlink
    simp only [opensQuoted, isDangerousLink, Bool.and_eq_true, beq_iff_eq, lexeme] at hopens hlink
    simp [stopAt?, hlink, hlast, isDangerousString, hopens] at hnone

theorem found_of_collect {before ts : List Token} (h : collect before ts [] = []) :
    (∀ t ∈ ts, isActive t.lexeme = false) ∧ (visible (ts.map lexeme)).IsChain Harmless := by
  induction ts generalizing before with
  | nil => exact ⟨by simp, .nil⟩
  | cons t ts ih =>
      cases hstop : stopAt? before t ts with
      | some stop =>
          rw [Sanitize.collect_cut hstop] at h
          cases h
      | none =>
          rw [Sanitize.collect_keep hstop] at h
          rcases ih h with ⟨hactive, hchain⟩
          refine ⟨List.forall_mem_cons.mpr ⟨isActive_of_stopAt? hstop, hactive⟩, ?_⟩
          rw [List.map_cons]
          by_cases hspace : t.kind = .whitespace
          · rw [visible_space _ hspace]
            exact hchain
          · rw [visible_cons _ hspace]
            exact List.isChain_cons.mpr ⟨harmless_of_collect hspace hstop h, hchain⟩

theorem spans_eq_nil_iff {s : Bytes} :
    spans s = [] ↔ (∀ l ∈ lexemes s, isActive l = false) ∧
      (visible (lexemes s)).IsChain Harmless := by
  constructor
  · intro h
    rcases found_of_collect h with ⟨hactive, hchain⟩
    exact ⟨List.forall_mem_map.mpr hactive, hchain⟩
  · intro h
    apply collect_eq_nil
    · exact fun t ht => h.1 t.lexeme (List.mem_map_of_mem ht)
    · exact h.2

/-!
## Tokens that come again

What is read from the text behind the cuts is told by what was not cut out. An address that went
wrong stands for the opening of one and for all that it swallowed.
-/

def IsInert (l : Lexeme) : Prop :=
  l.kind = .badUrl ∨ l.kind = .endOfText

/-- The tokens `ls` are the tokens `ks`, inert ones apart, and `ks` shows nothing dangerous but
tokens that join. -/
inductive Pruned : List Lexeme -> List Lexeme -> Prop where
  | rest {ks ls : List Lexeme} (hks : ∀ k ∈ ks, IsInert k) (hls : ∀ l ∈ ls, IsInert l) :
      Pruned ks ls
  | keep {l : Lexeme} {ks ls : List Lexeme} (hactive : isActive l = false)
      (hlink : opensQuoted l = true -> ∀ m ∈ (visible ks).head?, isDangerousLink m = false)
      (htail : Pruned ks ls) : Pruned (l :: ks) (l :: ls)
  | lost {k l : Lexeme} {ks ls : List Lexeme} (hk : IsInert k) (hl : IsInert l)
      (htail : Pruned ks ls) : Pruned (k :: ks) (l :: ls)

theorem IsInert.isActive {l : Lexeme} (h : IsInert l) : isActive l = false := by
  rcases h with hkind | hkind <;> simp [Decoded.isActive, hkind]

theorem IsInert.harmless {l : Lexeme} (h : IsInert l) (m : Lexeme) : Harmless l m := by
  rcases h with hkind | hkind <;> simp [Harmless, joins, opensQuoted, hkind]

theorem IsInert.harmless_behind {m : Lexeme} (h : IsInert m) (l : Lexeme) : Harmless l m := by
  rcases h with hkind | hkind <;> simp [Harmless, joins, isDangerousLink, hkind]

theorem IsInert.visible {l : Lexeme} (h : IsInert l) : l.kind ≠ .whitespace := by
  rcases h with hkind | hkind <;> simp [hkind]

theorem isInert_of_visible {ls : List Lexeme} (h : ∀ l ∈ ls, IsInert l) :
    ∀ l ∈ visible ls, IsInert l :=
  fun l hl => h l (List.mem_of_mem_filter hl)

theorem Pruned.head? {ks ls : List Lexeme} (h : Pruned ks ls) :
    (visible ks).head? = (visible ls).head? ∨
      (∀ k ∈ (visible ks).head?, IsInert k) ∧ ∀ l ∈ (visible ls).head?, IsInert l := by
  induction h with
  | rest hks hls =>
      right
      exact ⟨fun k hk => isInert_of_visible hks k (List.mem_of_mem_head? hk),
        fun l hl => isInert_of_visible hls l (List.mem_of_mem_head? hl)⟩
  | keep hactive hlink htail ih =>
      rename_i l ks ls
      by_cases hspace : l.kind = .whitespace
      · rw [visible_space _ hspace, visible_space _ hspace]
        exact ih
      · rw [visible_cons _ hspace, visible_cons _ hspace]
        exact Or.inl rfl
  | lost hk hl htail ih =>
      right
      rw [visible_cons _ hk.visible, visible_cons _ hl.visible]
      constructor
      · intro m hm
        cases hm
        exact hk
      · intro m hm
        cases hm
        exact hl

theorem Pruned.isActive {ks ls : List Lexeme} (h : Pruned ks ls) :
    ∀ l ∈ ls, Decoded.isActive l = false := by
  induction h with
  | rest hks hls => exact fun l hl => (hls l hl).isActive
  | keep hactive hlink htail ih => exact List.forall_mem_cons.mpr ⟨hactive, ih⟩
  | lost hk hl htail ih => exact List.forall_mem_cons.mpr ⟨hl.isActive, ih⟩

theorem isChain_of_inert {r : Lexeme -> Lexeme -> Prop} {ls : List Lexeme}
    (hr : ∀ {l}, IsInert l -> ∀ m, r l m) (h : ∀ l ∈ ls, IsInert l) : ls.IsChain r := by
  induction ls with
  | nil => exact .nil
  | cons l ls ih =>
      refine List.isChain_cons.mpr ⟨fun m _ => hr (h l List.mem_cons_self) m, ih ?_⟩
      exact fun m hm => h m (List.mem_cons_of_mem l hm)

theorem Pruned.isChain_iff {ks ls : List Lexeme} (h : Pruned ks ls) :
    (visible ls).IsChain Harmless ↔ (visible ks).IsChain fun l m => joins l m = false := by
  induction h with
  | rest hks hls =>
      apply iff_of_true
      · exact isChain_of_inert IsInert.harmless (isInert_of_visible hls)
      · exact isChain_of_inert (fun hl m => (hl.harmless m).1) (isInert_of_visible hks)
  | keep hactive hlink htail ih =>
      rename_i l ks ls
      by_cases hspace : l.kind = .whitespace
      · rw [visible_space _ hspace, visible_space _ hspace]
        exact ih
      · rw [visible_cons _ hspace, visible_cons _ hspace, List.isChain_cons, List.isChain_cons, ih]
        apply and_congr_left'
        rcases htail.head? with hsame | ⟨hks, hls⟩
        · rw [← hsame]
          constructor
          · exact fun hharmless m hm => (hharmless m hm).1
          · exact fun hjoins m hm => ⟨hjoins m hm, fun hopens => hlink hopens m hm⟩
        · apply iff_of_true
          · exact fun m hm => (hls m hm).harmless_behind l
          · exact fun m hm => ((hks m hm).harmless_behind l).1
  | lost hk hl htail ih =>
      rw [visible_cons _ hk.visible, visible_cons _ hl.visible, List.isChain_cons,
        List.isChain_cons, ih]
      apply and_congr_left'
      apply iff_of_true
      · exact fun m _ => hl.harmless m
      · exact fun m _ => (hk.harmless m).1

end Decoded
end StyleTrim
