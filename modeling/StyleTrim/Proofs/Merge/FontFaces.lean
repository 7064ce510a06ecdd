import StyleTrim.Proofs.Merge.Declared
import StyleTrim.Proofs.Sheet.Compare

/-!
# Font faces that are the same

Two font faces are the same when they have the same family and the same sources. The merger compares
both in one text, with a bar between them. Where no family holds a bar, that comes to the same. A
family that holds one can be taken for a shorter family, if the sources begin with what is missing.
-/

namespace StyleTrim
namespace Merge

/-!
## Family and sources
-/

def declared? (property : Bytes) (node : Node) : Option Bytes :=
  match node.head with
  | .declaration name value _ => if lower name = property then some value else none
  | _ => none

/-- What is declared last, or nothing. -/
def lastDeclared (property : Bytes) (nodes : List Node) : Bytes :=
  (nodes.filterMap (declared? property)).getLast?.getD []

/-- The family of a font face, without quotes and outer white space, and its sources. -/
def fontPair (node : Node) : Bytes × Bytes :=
  (trim Byte.isSpace
      ((lastDeclared (ascii "font-family") node.children).filter fun b => !Byte.isQuote b),
    lastDeclared (ascii "src") node.children)

theorem valueOf_concat (property : Bytes) (nodes : List Node) (node : Node) :
    valueOf property (nodes ++ [node]) =
      (declared? property node).getD (valueOf property nodes) := by
  rw [valueOf, List.foldl_append]
  change (match node.head with
    | .declaration name value _ =>
        if lower name = property then value else valueOf property nodes
    | _ => valueOf property nodes) = _
  unfold declared?
  cases node.head with
  | declaration name value important =>
      dsimp only
      split <;> rfl
  | rule prelude selectors => rfl
  | atRule name prelude block => rfl

theorem valueOf_eq_lastDeclared (property : Bytes) (nodes : List Node) :
    valueOf property nodes = lastDeclared property nodes := by
  induction nodes using List.reverseRecOn with
  | nil => rfl
  | append_singleton nodes node ih =>
      rw [valueOf_concat, ih, lastDeclared, lastDeclared, List.filterMap_append]
      cases hdeclared : declared? property node with
      | none => rw [List.filterMap_cons_none hdeclared, List.filterMap_nil, List.append_nil]; rfl
      | some value =>
          rw [List.filterMap_cons_some hdeclared, List.filterMap_nil, List.getLast?_concat]
          rfl

theorem fontFaceKey_eq (node : Node) :
    fontFaceKey node = (fontPair node).1 ++ 0x7C :: (fontPair node).2 := by
  rw [fontFaceKey, valueOf_eq_lastDeclared, valueOf_eq_lastDeclared, fontPair]

/-!
## Pairs with the same key
-/

/-- The second family goes on behind a bar where the first one ends, with what the sources of the
first begin with. -/
def Blurs (p q : Bytes × Bytes) : Prop :=
  ∃ part, q.1 = p.1 ++ 0x7C :: part ∧ p.2 = part ++ 0x7C :: q.2

theorem bar_mem_of_blurs {p q : Bytes × Bytes} (h : Blurs p q) : (0x7C : UInt8) ∈ q.1 := by
  rcases h with ⟨part, hfamily, _⟩
  rw [hfamily]
  exact List.mem_append_right _ List.mem_cons_self

theorem blurs_of_append {x p q rest : Bytes} (h : 0x7C :: p = rest ++ 0x7C :: q) :
    (x, p) = (x ++ rest, q) ∨ Blurs (x, p) (x ++ rest, q) := by
  cases rest with
  | nil =>
      left
      rw [List.append_nil, (List.cons.inj h).2]
  | cons b part =>
      rcases List.cons.inj h with ⟨rfl, htail⟩
      exact Or.inr ⟨part, rfl, htail⟩

theorem append_bar_eq_iff (p q : Bytes × Bytes) :
    p.1 ++ 0x7C :: p.2 = q.1 ++ 0x7C :: q.2 ↔ p = q ∨ Blurs p q ∨ Blurs q p := by
  rcases p with ⟨x, s⟩
  rcases q with ⟨y, s'⟩
  constructor
  · intro h
    rcases List.append_eq_append_iff.mp h with ⟨rest, rfl, hrest⟩ | ⟨rest, rfl, hrest⟩
    · exact (blurs_of_append hrest).imp_right Or.inl
    · exact (blurs_of_append hrest).imp Eq.symm Or.inr
  · rintro (heq | ⟨part, hfamily, hsources⟩ | ⟨part, hfamily, hsources⟩)
    · cases heq
      rfl
    · dsimp only at hfamily hsources
      rw [hfamily, hsources]
      simp
    · dsimp only at hfamily hsources
      rw [hfamily, hsources]
      simp

theorem fontFaceKey_eq_iff (e node : Node) :
    fontFaceKey e = fontFaceKey node ↔
      fontPair e = fontPair node ∨ Blurs (fontPair e) (fontPair node) ∨
        Blurs (fontPair node) (fontPair e) := by
  rw [fontFaceKey_eq, fontFaceKey_eq]
  exact append_bar_eq_iff _ _

/-!
## Dropping
-/

/-- The node, coming behind the others, leaves the merged sheet as it is. -/
def Drops (o : Options) (earlier : List Node) (node : Node) : Prop :=
  (assemble o (earlier ++ [node])).body = (assemble o earlier).body

variable {o : Options} {earlier : List Node} {node : Node}

theorem drops_iff_staysBehind : Drops o earlier node ↔ staysBehind o earlier node = false := by
  rw [Drops, assemble_concat, body_of_adds (add_adds o _ node)]
  cases staysBehind o earlier node <;> simp

theorem staysBehind_fontFace (hoption : o.dedupFontFaces = true)
    (hkind : hasKind .fontFace node = true) :
    staysBehind o earlier node = false ↔
      ∃ e ∈ earlier, hasKind .fontFace e = true ∧ fontFaceKey e = fontFaceKey node := by
  simp [staysBehind_of_fontFace hkind, hoption]

theorem body_around (o : Options) (earlier : List Node) (node : Node) (later : List Node) :
    ∃ kept behind,
      (assemble o (earlier ++ node :: later)).body.reverse =
          (assemble o earlier).body.reverse ++ (kept ++ behind) ∧
        ((Drops o earlier node ∧ kept = []) ∨ (¬Drops o earlier node ∧ kept = [node])) := by
  refine ⟨if staysBehind o earlier node then [node] else [],
    siftAfter (staysBehind o) (earlier ++ [node]) later, ?_, ?_⟩
  · rw [assemble_body, assemble_body, sift, siftAfter_append, List.nil_append, siftAfter, ← sift]
  · rw [drops_iff_staysBehind]
    cases staysBehind o earlier node with
    | false => exact Or.inl ⟨rfl, rfl⟩
    | true => exact Or.inr ⟨Bool.noConfusion, rfl⟩

/-- A font face is dropped just if an earlier one has the same family and the same sources, or if
the family of one goes on behind a bar as the sources of the other begin. Where no family holds a
bar, two font faces that differ in family or in sources are never taken for the same. A font face
that is not dropped keeps its place in the merged sheet, whatever comes later. -/
theorem fontFace_dropped_iff (hoption : o.dedupFontFaces = true)
    (hkind : hasKind .fontFace node = true) :
    (Drops o earlier node ↔
      ∃ e ∈ earlier, hasKind .fontFace e = true ∧
        (fontPair e = fontPair node ∨ Blurs (fontPair e) (fontPair node) ∨
          Blurs (fontPair node) (fontPair e))) ∧
    ((∀ face ∈ node :: earlier, hasKind .fontFace face = true ->
        (0x7C : UInt8) ∉ (fontPair face).1) ->
      (Drops o earlier node ↔
        ∃ e ∈ earlier, hasKind .fontFace e = true ∧ fontPair e = fontPair node)) ∧
    ∀ later, ∃ kept behind,
      (assemble o (earlier ++ node :: later)).body.reverse =
          (assemble o earlier).body.reverse ++ (kept ++ behind) ∧
        ((Drops o earlier node ∧ kept = []) ∨ (¬Drops o earlier node ∧ kept = [node])) := by
  have hdrops : Drops o earlier node ↔
      ∃ e ∈ earlier, hasKind .fontFace e = true ∧
        (fontPair e = fontPair node ∨ Blurs (fontPair e) (fontPair node) ∨
          Blurs (fontPair node) (fontPair e)) := by
    rw [drops_iff_staysBehind, staysBehind_fontFace hoption hkind]
    simp only [fontFaceKey_eq_iff]
  refine ⟨hdrops, ?_, body_around o earlier node⟩
  intro hbars
  rw [hdrops]
  constructor
  · rintro ⟨e, he, hface, hsame | hblurs | hblurs⟩
    · exact ⟨e, he, hface, hsame⟩
    · exact absurd (bar_mem_of_blurs hblurs) (hbars node List.mem_cons_self hkind)
    · exact absurd (bar_mem_of_blurs hblurs) (hbars e (List.mem_cons_of_mem _ he) hface)
  · rintro ⟨e, he, hface, hsame⟩
    exact ⟨e, he, hface, Or.inl hsame⟩

def fontFace (family sources : Bytes) : Node :=
  ⟨.atRule (ascii "font-face") [] true,
    [⟨.declaration (ascii "font-family") family false, []⟩,
      ⟨.declaration (ascii "src") sources false, []⟩]⟩

theorem fontFace_dropped_iff_in_quotes :
    hasKind .fontFace (fontFace (ascii "Inter") (ascii "url(a)")) = true ∧
      Drops {} [fontFace (ascii "\"Inter\"") (ascii "url(a)")]
        (fontFace (ascii "Inter") (ascii "url(a)")) ∧
      ¬Drops {} [fontFace (ascii "\"Inter\"") (ascii "url(b)")]
        (fontFace (ascii "Inter") (ascii "url(a)")) ∧
      Drops {} [fontFace (ascii "\"Inter|a\"") (ascii "b")]
        (fontFace (ascii "Inter") (ascii "a|b")) := by
  refine ⟨rfl, ?_, ?_, ?_⟩
  · exact (fontFace_dropped_iff rfl rfl).1.mpr ⟨_, List.mem_cons_self, rfl, Or.inl (by decide)⟩
  · rw [(fontFace_dropped_iff rfl rfl).2.1 (by decide)]
    decide
  · exact (fontFace_dropped_iff rfl rfl).1.mpr
      ⟨_, List.mem_cons_self, rfl, Or.inr (Or.inr ⟨ascii "a", by decide, by decide⟩)⟩

end Merge
end StyleTrim
