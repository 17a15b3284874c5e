import Mathlib
import Flowline.Line

/-! Addresses. The address of a line spells its source line in decimal and, after a dot, its ordinal
    among the lines from there. Digits hold no dot, so an address tells both numbers. -/

namespace Flowline
namespace Address

theorem dot_notMem_digits (n : Nat) : '.' ∉ (toString n).toList := by
  intro h
  have hdigit := Nat.isDigit_of_mem_toDigits (by decide) (by decide) (Nat.toList_repr (n := n) ▸ h)
  exact absurd hdigit (by decide)

/-- Two texts that agree up to their first dot agree before it and after it. -/
theorem append_dot_inj {a b c d : List Char} (ha : '.' ∉ a) (hc : '.' ∉ c) (h : a ++ '.' :: b = c ++ '.' :: d) :
    a = c ∧ b = d := by
  induction a generalizing c with
  | nil =>
    cases c with
    | nil => exact ⟨rfl, (List.cons.inj h).2⟩
    | cons y c => exact absurd (List.mem_cons.mpr (Or.inl (List.cons.inj h).1)) hc
  | cons x a ih =>
    cases c with
    | nil => exact absurd (List.mem_cons.mpr (Or.inl (List.cons.inj h).1.symm)) ha
    | cons y c =>
      obtain ⟨hxy, htail⟩ := List.cons.inj h
      obtain ⟨hac, hbd⟩ := ih (List.not_mem_of_not_mem_cons ha) (List.not_mem_of_not_mem_cons hc) htail
      exact ⟨by rw [hxy, hac], hbd⟩

theorem toNat_inj_of_digits {m n : UInt32} (h : toString m.toNat = toString n.toNat) : m = n :=
  UInt32.toNat_inj.mp (Nat.repr_injective h)

/-- A bare source line is no source line followed by a dot and an ordinal. -/
theorem digits_ne_dotted (m n k : Nat) : toString m ≠ toString n ++ "." ++ toString k := by
  intro h
  apply dot_notMem_digits m
  rw [h]
  simp [String.toList_append]

/-- An address tells the source line and the ordinal that it was made from. -/
theorem ofSource_inj {m n : UInt32} {j k : Nat} (h : ofSource m j = ofSource n k) : m = n ∧ j = k := by
  unfold ofSource at h
  split at h <;> split at h <;> simp only [Address.mk.injEq] at h
  · exact ⟨toNat_inj_of_digits h, by omega⟩
  · exact absurd h (digits_ne_dotted _ _ _)
  · exact absurd h.symm (digits_ne_dotted _ _ _)
  · have hlist := congrArg String.toList h
    simp only [String.toList_append, List.append_assoc] at hlist
    obtain ⟨hm, hj⟩ := append_dot_inj (dot_notMem_digits _) (dot_notMem_digits _) hlist
    exact ⟨toNat_inj_of_digits (String.toList_inj.mp hm), Nat.repr_injective (String.toList_inj.mp hj)⟩

end Address
end Flowline
