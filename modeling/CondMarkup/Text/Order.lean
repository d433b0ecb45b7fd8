/-!
The order of texts by their characters: the first place where two texts differ decides, and a text
comes after those that it goes on from.
-/

namespace CondMarkup

/-- Whether a text comes before another or is the same. -/
def textLe (a b : String) : Bool := a ≤ b

@[simp] theorem textLe_refl (a : String) : textLe a a = true := by
  simp [textLe]

theorem textLe_total (a b : String) : textLe a b = true ∨ textLe b a = true := by
  simpa [textLe] using String.le_total a b

theorem textLe_trans {a b c : String} (hab : textLe a b = true) (hbc : textLe b c = true) :
    textLe a c = true := by
  simp only [textLe, decide_eq_true_eq] at *
  exact String.le_trans hab hbc

end CondMarkup
