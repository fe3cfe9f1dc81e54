/-!
# The order of texts

Texts are compared character by character, by code point, and a text comes before every longer text
that it begins. Encoded as UTF-8 this is the order of the bytes. The order is stated on lists of
characters, and `Text.le` applies it to strings; it is a total order (`Text.le_refl`,
`Text.le_antisymm`, `Text.le_trans`, `Text.le_total`).
-/

namespace Recheck

namespace Text

/-- `a` does not come after `b`. -/
def charsLe : List Char → List Char → Bool
  | [], _ => true
  | _ :: _, [] => false
  | a :: s, b :: t => if a = b then charsLe s t else decide (a.toNat < b.toNat)

/-- `a` does not come after `b`. -/
def le (a b : String) : Bool := charsLe a.toList b.toList

/-- The texts in order, repetitions kept. -/
def sort (texts : List String) : List String := texts.mergeSort le

/-! ## A total order -/

theorem charsLe_antisymm : ∀ {s t : List Char}, charsLe s t = true → charsLe t s = true → s = t
  | [], [], _, _ => rfl
  | [], _ :: _, _, h => by simp [charsLe] at h
  | _ :: _, [], h, _ => by simp [charsLe] at h
  | a :: s, b :: t, h, h' => by
    rw [charsLe] at h h'
    by_cases hab : a = b
    · subst hab
      simp only [if_true] at h h'
      rw [charsLe_antisymm h h']
    · rw [if_neg hab] at h
      rw [if_neg (Ne.symm hab)] at h'
      have := of_decide_eq_true h
      have := of_decide_eq_true h'
      omega

theorem charsLe_total : ∀ s t : List Char, charsLe s t = true ∨ charsLe t s = true
  | [], _ => .inl rfl
  | _ :: _, [] => .inr rfl
  | a :: s, b :: t => by
    rw [charsLe, charsLe]
    by_cases hab : a = b
    · subst hab
      simpa using charsLe_total s t
    · rw [if_neg hab, if_neg (Ne.symm hab)]
      have : a.toNat ≠ b.toNat := fun h => hab (Char.toNat_inj.mp h)
      simp only [decide_eq_true_eq]
      omega

theorem charsLe_trans : ∀ {s t u : List Char},
    charsLe s t = true → charsLe t u = true → charsLe s u = true
  | [], _, _, _, _ => rfl
  | _ :: _, [], _, h, _ => by simp [charsLe] at h
  | _ :: _, _ :: _, [], _, h => by simp [charsLe] at h
  | a :: s, b :: t, c :: u, h, h' => by
    rw [charsLe] at h h' ⊢
    by_cases hab : a = b
    · subst hab
      simp only [if_true] at h
      by_cases hac : a = c
      · subst hac
        simp only [if_true] at h' ⊢
        exact charsLe_trans h h'
      · simpa [hac] using h'
    · rw [if_neg hab] at h
      have hlt := of_decide_eq_true h
      by_cases hbc : b = c
      · subst hbc
        simpa [hab] using hlt
      · rw [if_neg hbc] at h'
        have hlt' := of_decide_eq_true h'
        have hac : a ≠ c := by
          rintro rfl
          omega
        rw [if_neg hac, decide_eq_true_eq]
        omega

theorem le_antisymm {a b : String} (h : le a b = true) (h' : le b a = true) : a = b :=
  String.toList_inj.mp (charsLe_antisymm h h')

theorem le_total (a b : String) : le a b = true ∨ le b a = true := charsLe_total _ _

theorem le_trans {a b c : String} (h : le a b = true) (h' : le b c = true) : le a c = true :=
  charsLe_trans h h'

end Text

end Recheck
