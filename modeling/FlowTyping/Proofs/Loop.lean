/-!
# Loops

A loop is given by what one turn does: it goes on with another state, or it stops with a result.
-/

namespace FlowTyping

variable {σ β : Type} {turn : σ → σ ⊕ β} {s : σ}

/-- The loop that starts in a state stops after finitely many turns, with the given result. -/
inductive Ends (turn : σ → σ ⊕ β) : σ → β → Prop where
  | stop {s : σ} {b : β} (h : turn s = .inr b) : Ends turn s b
  | more {s s' : σ} {b : β} (h : turn s = .inl s') (rest : Ends turn s' b) : Ends turn s b

/-- A loop stops if each turn that goes on lowers a measure, and what these turns preserve holds of
the state in which it stops. -/
theorem exists_ends (P : σ → Prop) (measure : σ → Nat)
    (hturn : ∀ s s', P s → turn s = .inl s' → P s' ∧ measure s' < measure s) (hs : P s) :
    ∃ last b, P last ∧ turn last = .inr b ∧ Ends turn s b := by
  induction hn : measure s using Nat.strongRecOn generalizing s with
  | ind n ih =>
    cases hnext : turn s with
    | inr b => exact ⟨s, b, hs, hnext, .stop hnext⟩
    | inl s' =>
      obtain ⟨hs', hless⟩ := hturn s s' hs hnext
      obtain ⟨last, b, hlast, hstop, hrest⟩ := ih (measure s') (hn ▸ hless) hs' rfl
      exact ⟨last, b, hlast, hstop, .more hnext hrest⟩

end FlowTyping
