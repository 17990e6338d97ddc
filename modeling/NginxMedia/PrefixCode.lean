import Mathlib.Data.List.Infix
import Mathlib.Tactic.Common

/-! Codes in which no word begins another one, so that words written one after the other can be
told apart without a separator. -/
namespace PrefixCode

variable {α β γ : Type*} {code : α → List γ} {next : β → List γ}

/-- No word begins the word of another value. -/
def PrefixFree (code : α → List γ) : Prop := ∀ a b, code a <+: code b → a = b

theorem PrefixFree.head (h : PrefixFree code) {a b : α} {x y : List γ}
    (hpre : code a ++ x <+: code b ++ y) : a = b := by
  have ha : code a <+: code b ++ y := (List.prefix_append (code a) x).trans hpre
  rcases List.prefix_or_prefix_of_prefix ha (List.prefix_append (code b) y) with hab | hba
  · exact h a b hab
  · exact (h b a hba).symm

/-- A word of one code and then a word of another. -/
theorem PrefixFree.pair (h : PrefixFree code) (hnext : PrefixFree next) :
    PrefixFree fun p : α × β => code p.1 ++ next p.2 := by
  rintro ⟨a, c⟩ ⟨b, d⟩ hpre
  obtain rfl := h.head hpre
  obtain rfl := hnext c d ((List.prefix_append_right_inj _).mp hpre)
  rfl

end PrefixCode
