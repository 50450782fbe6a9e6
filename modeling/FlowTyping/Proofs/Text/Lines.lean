import FlowTyping.Literal
import FlowTyping.Proofs.Text.Digits
import Mathlib.Tactic.SplitIfs

/-!
# Lines of a text

A text falls into lines at its line breaks. Parts that are written one below the other are its
lines exactly if each of them is on one line (`linesOf_intercalate_iff`). Quoted text always is,
and so is every literal but the character that is a line break (`oneLine_literal`).
-/

namespace FlowTyping

namespace Text

/-- The lines of a text, which its line breaks separate. -/
def linesOf (s : String) : List String := (s.toList.splitOn '\n').map String.ofList

def OneLine (s : String) : Prop := '\n' ∉ s.toList

instance (s : String) : Decidable (OneLine s) := inferInstanceAs (Decidable (¬_))

theorem oneLine_append {s t : String} : OneLine (s ++ t) ↔ OneLine s ∧ OneLine t := by
  rw [OneLine, String.toList_append, List.mem_append, not_or, OneLine, OneLine]

theorem oneLine_intercalate {separator : String} (h : OneLine separator) {parts : List String} :
    OneLine (separator.intercalate parts) ↔ ∀ s ∈ parts, OneLine s := by
  induction parts with
  | nil => simp [OneLine]
  | cons s parts ih =>
    cases parts with
    | nil => simp
    | cons t parts =>
      rw [String.intercalate_cons_cons, oneLine_append, oneLine_append, ih, and_iff_left h,
        List.forall_mem_cons (l := t :: parts)]

theorem oneLine_join {parts : List String} :
    OneLine (String.join parts) ↔ ∀ s ∈ parts, OneLine s := by
  simp [OneLine, String.toList_join]

section Lines

theorem join_append (parts : List String) (last : String) :
    String.join (parts.map (· ++ "\n")) ++ last = "\n".intercalate (parts ++ [last]) := by
  induction parts with
  | nil => simp
  | cons s parts ih =>
    rw [List.map_cons, String.join_cons, String.append_assoc, ih, List.cons_append,
      String.intercalate_cons_of_ne_nil (by simp)]

private theorem notMem_of_mem_splitOn {cs piece : List Char} (h : piece ∈ cs.splitOn '\n') :
    '\n' ∉ piece := by
  induction cs generalizing piece with
  | nil =>
    rw [List.splitOn_nil, List.mem_singleton] at h
    exact h ▸ List.not_mem_nil
  | cons c cs ih =>
    rw [List.splitOn_cons_eq_if_modifyHead] at h
    split_ifs at h with hbreak
    · rcases List.mem_cons.1 h with rfl | h
      · exact List.not_mem_nil
      · exact ih h
    · cases hrest : cs.splitOn '\n' with
      | nil => exact absurd hrest (List.splitOn_ne_nil _ _)
      | cons first rest =>
        rw [hrest, List.modifyHead_cons] at h
        rcases List.mem_cons.1 h with rfl | h
        · rw [List.mem_cons, not_or]
          exact ⟨fun heq => hbreak (by simp [← heq]), ih (hrest ▸ List.mem_cons_self)⟩
        · exact ih (hrest ▸ List.mem_cons_of_mem _ h)

theorem oneLine_of_mem_linesOf {s l : String} (h : l ∈ linesOf s) : OneLine l := by
  obtain ⟨piece, hpiece, rfl⟩ := List.mem_map.1 h
  rw [OneLine, String.toList_ofList]
  exact notMem_of_mem_splitOn hpiece

/-- Parts one below the other are the lines of the text exactly if each of them is on one line. -/
theorem linesOf_intercalate_iff {parts : List String} (hne : parts ≠ []) :
    linesOf ("\n".intercalate parts) = parts ↔ ∀ s ∈ parts, OneLine s := by
  constructor
  · intro h s hs
    exact oneLine_of_mem_linesOf (h ▸ hs)
  · intro h
    have hpieces : ∀ piece ∈ parts.map String.toList, '\n' ∉ piece := by
      intro piece hpiece
      obtain ⟨s, hs, rfl⟩ := List.mem_map.1 hpiece
      exact h s hs
    have htext : ("\n".intercalate parts).toList =
        ['\n'].intercalate (parts.map String.toList) := String.toList_intercalate
    rw [linesOf, htext, List.splitOn_intercalate '\n' hpieces (by simpa using hne), List.map_map]
    simp [Function.comp_def]

end Lines

section Literals

private theorem notMem_toDigits (base : Nat) (hbase : 1 < base ∧ base ≤ 16) (n : Nat) :
    '\n' ∉ Nat.toDigits base n := by
  intro h
  obtain ⟨d, hd, heq⟩ := exists_of_mem_toDigits hbase.1 h
  have hdigits : ∀ d < 16, Nat.digitChar d ≠ '\n' := by decide
  exact hdigits d (by omega) heq.symm

private theorem notMem_quoteChar (c : Char) : '\n' ∉ quoteChar c := by
  fun_cases quoteChar c with
  | case7 => simp [numbered, notMem_toDigits 16 (by decide)]
  | case8 _ _ hbreak => simpa [eq_comm] using hbreak
  | _ => decide

theorem oneLine_quote (s : String) : OneLine (quote s) := by
  simp [OneLine, quote, notMem_quoteChar]

/-- Quoting keeps a text on its line; a character literal is written as it is. -/
theorem oneLine_literal {value : Literal} : OneLine value.text ↔ value ≠ .char '\n' := by
  cases value with
  | boolean b => exact iff_of_true (by cases b <;> decide) (by simp)
  | null => exact iff_of_true (by decide) (by simp)
  | integer n =>
    refine iff_of_true ?_ (by simp)
    rw [Literal.text, OneLine, Int.toString_eq_repr, Int.repr_eq_if]
    split_ifs <;> simp [Nat.repr_eq_ofList_toDigits, notMem_toDigits 10 (by decide)]
  | char c => simp [Literal.text, OneLine, Char.toString, eq_comm]
  | string s => exact iff_of_true (oneLine_quote s) (by simp)

end Literals

end Text

end FlowTyping
