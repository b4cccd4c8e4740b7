import Tac.Operator
import Tac.Word

/-!
# Relations between words

The meaning of the six relations on machine words, which compare as signed numbers.
-/

namespace Tac

/-- Whether a relation holds between two words. -/
def Rel.holds (rel : Rel) (x y : Word) : Bool :=
  match rel with
  | .lt => x < y
  | .gt => y < x
  | .le => x ≤ y
  | .ge => y ≤ x
  | .eq => x == y
  | .ne => x != y

/-- The inverted relation holds exactly when the relation does not: words are totally ordered. -/
@[simp]
theorem Rel.holds_invert (rel : Rel) (x y : Word) : rel.invert.holds x y = !rel.holds x y := by
  cases rel <;> simp [Rel.invert, Rel.holds, ← Int32.not_lt, bne]

end Tac
