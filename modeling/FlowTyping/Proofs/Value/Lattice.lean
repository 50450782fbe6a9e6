import FlowTyping.Proofs.Value.Rank

/-!
# The lattice of values

Joining two values and combining them are rules of their own: a hierarchy that one side does not
know is lost in the join and kept in the combination, and types that do not compare meet at a
supertype in the one and at a fallback in the other. On normalized values both describe one order,
the one that refinement tests before it records a value.
-/

namespace FlowTyping

theorem Ty.lowerTy_fallback (s t : Ty) : Value.lowerTy s t t = if s.Below t then s else t := by
  unfold Below
  grind [Value.lowerTy]

namespace Value

variable {v w : Value}

/-- Combining two values leaves the first exactly when it is below the second. -/
theorem mostSpecific_eq_left_iff (hv : v.Normalized) (hw : w.Normalized) :
    v.mostSpecific w w = v ↔ v.Below w := by
  have hty : (v.mostSpecific w w).ty = if v.ty.Below w.ty then v.ty else w.ty :=
    Ty.lowerTy_fallback v.ty w.ty
  constructor
  · intro h
    refine below_iff.2 ⟨hw, ?_, fun hier => ?_⟩
    · rw [h] at hty
      split at hty
      · assumption
      · rw [hty]
        exact Ty.lub_self _
    · have hrank := congrArg (rank · hier) h
      simp only [rank_mostSpecific] at hrank
      omega
  · intro h
    obtain ⟨-, htypes, hranks⟩ := below_iff.1 h
    apply ext_rank (normalized_mostSpecific v w w) hv
    · rw [hty, if_pos htypes]
    · intro hier
      rw [rank_mostSpecific, Nat.min_eq_left (hranks hier)]

/-- What refinement tests is the strict part of the order that the join induces. -/
theorem isStrictlyMorePrecise_iff (hv : v.Normalized) (hw : w.Normalized) :
    v.isStrictlyMorePrecise (some w) = true ↔ v ≠ w ∧ v.Below w := by
  rw [isStrictlyMorePrecise, Bool.and_eq_true, decide_eq_true_iff, decide_eq_true_iff,
    mostSpecific_eq_left_iff hv hw]

theorem lub_mostSpecific_self (hv : v.Normalized) (w : Value) : v.lub (v.mostSpecific w v) = v := by
  have hbelow : (w.refine v).Below v := refine_below hv
  rw [lub_comm]
  exact hbelow

theorem mostSpecific_lub_self (hv : v.Normalized) (w : Value) : v.mostSpecific (v.lub w) v = v := by
  have hty : (v.mostSpecific (v.lub w) v).ty =
      if (v.lub w).ty.Below v.ty then (v.lub w).ty else v.ty := Ty.lowerTy_self v.ty (v.lub w).ty
  apply ext_rank (normalized_mostSpecific v _ v) hv
  · rw [hty]
    split
    · next hbelow =>
      -- The join lies above the value, so it can only be below it by being equal.
      have habove : v.ty.Below (v.lub w).ty := Ty.below_lub_left v.ty w.ty
      rw [Ty.Below, Ty.lub_comm] at hbelow
      exact habove.symm.trans hbelow
    · rfl
  · intro hier
    rw [rank_mostSpecific, rank_lub]
    omega

/-- The join is commutative, associative and idempotent, its strict order is the one that
refinement tests, and joining and combining absorb each other. -/
theorem lattice_coherent {a b : Value} (c : Value) (ha : a.Normalized) (hb : b.Normalized) :
    a.lub b = b.lub a ∧ (a.lub b).lub c = a.lub (b.lub c) ∧ a.lub a = a ∧
    (a.isStrictlyMorePrecise (some b) = true ↔ a ≠ b ∧ a.lub b = b) ∧
    a.lub (a.mostSpecific b a) = a ∧ a.mostSpecific (a.lub b) a = a :=
  ⟨lub_comm a b, lub_assoc a b c, ha.lub_self, isStrictlyMorePrecise_iff ha hb,
    lub_mostSpecific_self ha b, mostSpecific_lub_self ha b⟩

end Value

namespace MixedValues

private def small : Value := .of (.primitive .byte) [.nonNull]

private def letter : Value := .of (.primitive .char) [.nullable, .interned]

private def missing : Value := .of .null [.nullable]

/-- The types join at `int`, and only nullness is known of both. -/
theorem small_letter_coherent :
    small.Normalized ∧ letter.Normalized ∧
    small.lub letter = .of (.primitive .int) [.nullable] ∧
    (small.lub letter).lub missing = small.lub (letter.lub missing) ∧
    small.isStrictlyMorePrecise (some letter) = false ∧
    small.lub (small.mostSpecific letter small) = small := by
  have hsmall : small.Normalized := by decide
  have hletter : letter.Normalized := by decide
  obtain ⟨-, hassoc, -, hstrict, habsorb, -⟩ := Value.lattice_coherent missing hsmall hletter
  have hnot : ¬(small ≠ letter ∧ small.lub letter = letter) := by decide
  exact ⟨hsmall, hletter, by decide, hassoc,
    Bool.eq_false_iff.2 fun h => hnot (hstrict.1 h), habsorb⟩

end MixedValues

end FlowTyping
