import StyleTrim.Sheet.Error
import StyleTrim.Sheet.Node

/-!
# Comparing trees

Whether two trees are equal can be computed, so what reading gives can be tested against the tree
that is expected.
-/

namespace StyleTrim

mutual

def Node.decideEq (a b : Node) : Decidable (a = b) :=
  match a, b with
  | ⟨head, children⟩, ⟨head', children'⟩ =>
      match decEq head head', Sheet.decideEq children children' with
      | isTrue hhead, isTrue hchildren => isTrue (by rw [hhead, hchildren])
      | isFalse hhead, _ => isFalse fun h => hhead (Node.mk.inj h).1
      | _, isFalse hchildren => isFalse fun h => hchildren (Node.mk.inj h).2

def Sheet.decideEq (as bs : List Node) : Decidable (as = bs) :=
  match as, bs with
  | [], [] => isTrue rfl
  | [], _ :: _ => isFalse nofun
  | _ :: _, [] => isFalse nofun
  | a :: as, b :: bs =>
      match Node.decideEq a b, Sheet.decideEq as bs with
      | isTrue hhead, isTrue htail => isTrue (by rw [hhead, htail])
      | isFalse hhead, _ => isFalse fun h => hhead (List.cons.inj h).1
      | _, isFalse htail => isFalse fun h => htail (List.cons.inj h).2

end

instance : DecidableEq Node := Node.decideEq

theorem eq_ok_of_toOption {ε α : Type} {result : Except ε α} {a : α}
    (h : result.toOption = some a) : result = .ok a := by
  cases result with
  | error e => cases h
  | ok b =>
      cases h
      rfl

end StyleTrim
