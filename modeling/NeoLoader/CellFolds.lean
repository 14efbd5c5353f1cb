import Mathlib.Data.List.Count
import Mathlib.Logic.Function.Basic
import Mathlib.Logic.Function.Iterate

/-!
# Loops over cells

A loop changes one cell after the other, and a cell may have several turns. At the end a cell has gone
through its own turns only.
-/

namespace NeoLoader.CellFolds

variable {κ β γ : Type*} [DecidableEq κ]

/-- The cells with one of them changed. -/
def modifyCell (m : κ → β) (k : κ) (f : β → β) : κ → β := Function.update m k (f (m k))

@[simp] theorem modifyCell_self (m : κ → β) (k : κ) (f : β → β) : modifyCell m k f k = f (m k) := by
  simp [modifyCell]

theorem modifyCell_of_ne (m : κ → β) {k k' : κ} (f : β → β) (h : k' ≠ k) : modifyCell m k f k' = m k' := by
  simp [modifyCell, h]

/-- A cell after a loop has gone through its own turns. -/
theorem foldl_modifyCell (key : γ → κ) (f : γ → β → β) (l : List γ) (m : κ → β) (k : κ) :
    (l.foldl (fun m x => modifyCell m (key x) (f x)) m) k =
      (l.filter fun x => key x = k).foldl (fun v x => f x v) (m k) := by
  induction l generalizing m with
  | nil => rfl
  | cons x l ih =>
    rw [List.foldl_cons, ih]
    by_cases hx : key x = k
    · subst hx
      rw [List.filter_cons_of_pos (by simp), List.foldl_cons, modifyCell_self]
    · rw [List.filter_cons_of_neg (by simpa using hx), modifyCell_of_ne _ _ (Ne.symm hx)]

theorem foldl_modifyCell_iterate (f : β → β) (l : List κ) (m : κ → β) (k : κ) :
    (l.foldl (fun m x => modifyCell m x f) m) k = f^[l.count k] (m k) := by
  induction l generalizing m with
  | nil => rfl
  | cons x l ih =>
    rw [List.foldl_cons, ih]
    by_cases hx : x = k
    · subst hx
      rw [List.count_cons_self, modifyCell_self, Function.iterate_succ_apply]
    · rw [List.count_cons_of_ne hx, modifyCell_of_ne _ _ (Ne.symm hx)]

end NeoLoader.CellFolds
