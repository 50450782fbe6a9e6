import FlowTyping.Json.Parser
import FlowTyping.Proofs.Text.Digits

/-!
# Reading back strings and numbers

What is written for a string or for a whole number is read as that string or number, whatever
follows it in the text, as long as what follows does not go on with the number.
-/

namespace FlowTyping.Json

open Text

/-! ### Strings -/

/-- The piece as which a character of a string is read back: a control character without a letter
of its own is written as a 16-bit number. -/
def pieceOf (c : Char) : Piece :=
  if c.toNat < 32 ∧ c ≠ '\n' ∧ c ≠ '\r' ∧ c ≠ '\t' ∧ c.toNat ≠ 8 ∧ c.toNat ≠ 12 then .unit c.toNat
  else .char c

theorem fourHexDigits?_twoHexDigits {n : Nat} (h : n < 32) :
    fourHexDigits? '0' '0' (Nat.digitChar (n / 16)) (Nat.digitChar (n % 16)) = some n := by
  revert n
  decide

theorem stringPieces_unescape {e c : Char} (h : unescape? e = some c) (cs : List Char) :
    stringPieces ('\\' :: e :: cs) = (stringPieces cs).map fun r => (.char c :: r.1, r.2) := by
  have hletter : e ≠ 'u' := by
    rintro rfl
    cases h
  rw [stringPieces, h]
  · cases stringPieces cs <;> rfl
  · rintro a b c d rest he -
    exact hletter he

theorem stringPieces_plain {c : Char} (hquote : c ≠ '"') (hslash : c ≠ '\\')
    (hcontrol : ¬c.toNat < 32) (cs : List Char) :
    stringPieces (c :: cs) = (stringPieces cs).map fun r => (.char c :: r.1, r.2) := by
  rw [stringPieces.eq_def]
  split
  · simp_all
  · simp_all
  · simp_all
  · simp_all
  · next h =>
    cases h
    rw [if_neg hcontrol]
    cases stringPieces cs <;> rfl

theorem stringPieces_escape (c : Char) (cs : List Char) :
    stringPieces (escape c ++ cs) = (stringPieces cs).map fun r => (pieceOf c :: r.1, r.2) := by
  rw [escape]
  split
  · next h =>
    subst h
    exact stringPieces_unescape rfl cs
  split
  · next h =>
    subst h
    exact stringPieces_unescape rfl cs
  split
  · next h =>
    subst h
    exact stringPieces_unescape rfl cs
  split
  · next h =>
    subst h
    exact stringPieces_unescape rfl cs
  split
  · next h =>
    subst h
    exact stringPieces_unescape rfl cs
  split
  · next h =>
    have hc : c = Char.ofNat 8 := by rw [← h, Char.ofNat_toNat]
    exact hc ▸ stringPieces_unescape rfl cs
  split
  · next h =>
    have hc : c = Char.ofNat 12 := by rw [← h, Char.ofNat_toNat]
    exact hc ▸ stringPieces_unescape rfl cs
  split
  · next hn hr ht hb hf hcontrol =>
    have hpiece : pieceOf c = .unit c.toNat := if_pos ⟨hcontrol, hn, hr, ht, hb, hf⟩
    have hdigits := fourHexDigits?_twoHexDigits hcontrol
    rw [hpiece, twoHexDigits]
    simp only [List.cons_append, List.nil_append, stringPieces, hdigits]
    cases stringPieces cs <;> rfl
  · next hquote hslash hn hr ht hb hf hcontrol =>
    have hpiece : pieceOf c = .char c := if_neg fun h => hcontrol h.1
    rw [hpiece]
    exact stringPieces_plain hquote hslash hcontrol cs

theorem stringPieces_escaped (text rest : List Char) :
    stringPieces (text.flatMap escape ++ '"' :: rest) = some (text.map pieceOf, rest) := by
  induction text with
  | nil => rfl
  | cons c text ih =>
    rw [List.flatMap_cons, List.append_assoc, stringPieces_escape, ih]
    rfl

theorem spell?_pieces (text : List Char) : spell? (text.map pieceOf) = some text := by
  induction text with
  | nil => rfl
  | cons c text ih =>
    rw [List.map_cons, pieceOf]
    split
    · next h =>
      have hlow : ¬(0xd800 ≤ c.toNat ∧ c.toNat < 0xdc00) := by omega
      have hhigh : ¬(0xdc00 ≤ c.toNat ∧ c.toNat < 0xe000) := by omega
      rw [spell?.eq_def]
      simp only [if_neg hlow, if_neg hhigh, ih, Char.ofNat_toNat, Option.map_some]
    · rw [spell?, ih]
      rfl

/-! ### Numbers -/

/-- A text does not go on with a number. -/
def EndsNumber (cs : List Char) : Prop :=
  ∀ c ∈ cs.head?, c.isDigit = false ∧ c ≠ '.' ∧ c ≠ 'e' ∧ c ≠ 'E'

theorem endsNumber_nil : EndsNumber [] := fun c hc => by cases hc

theorem endsNumber_cons {c : Char} (h : c.isDigit = false ∧ c ≠ '.' ∧ c ≠ 'e' ∧ c ≠ 'E')
    (cs : List Char) : EndsNumber (c :: cs) := by
  intro d hd
  cases hd
  exact h

variable {digits rest : List Char}

theorem takeWhile_digits (hdigits : ∀ c ∈ digits, c.isDigit = true) (hrest : EndsNumber rest) :
    (digits ++ rest).takeWhile (·.isDigit) = digits ∧
      (digits ++ rest).dropWhile (·.isDigit) = rest := by
  have hstop : rest.takeWhile (·.isDigit) = [] ∧ rest.dropWhile (·.isDigit) = rest := by
    cases rest with
    | nil => exact ⟨rfl, rfl⟩
    | cons c cs =>
      have hc := (hrest c rfl).1
      simp [hc]
  rw [List.takeWhile_append_of_pos hdigits, List.dropWhile_append_of_pos hdigits, hstop.1, hstop.2,
    List.append_nil]
  exact ⟨rfl, rfl⟩

theorem wholePart?_toDigits (n : Nat) (hrest : EndsNumber rest) :
    wholePart? (Nat.toDigits 10 n ++ rest) = some (Nat.toDigits 10 n, rest) := by
  cases hn : Nat.toDigits 10 n with
  | nil => exact absurd hn Nat.toDigits_ne_nil
  | cons c cs =>
    have hdigit : ∀ d ∈ c :: cs, d.isDigit = true := fun d hd => isDigit_of_mem_toDigits (hn ▸ hd)
    obtain ⟨htake, hdrop⟩ := takeWhile_digits
      (fun d hd => hdigit d (List.mem_cons_of_mem _ hd)) hrest
    rw [List.cons_append, wholePart?.eq_def]
    simp only
    split
    · next hzero =>
      -- Only zero is written with a zero in front.
      have hzero' : n = 0 := by
        rcases Nat.eq_zero_or_pos n with h | h
        · exact h
        · have hhead := head?_toDigits_ne_zero h
          rw [hn, hzero] at hhead
          exact absurd rfl hhead
      subst hzero'
      cases hn
      cases rest with
      | nil => rfl
      | cons d ds => simp [(hrest d rfl).1]
    · rw [if_pos (hdigit c List.mem_cons_self), htake, hdrop]

theorem fraction?_of_endsNumber (hrest : EndsNumber rest) : fraction? rest = some ([], rest) := by
  rw [fraction?.eq_def]
  split
  · exact absurd rfl (hrest '.' rfl).2.1
  · rfl

theorem exponent?_of_endsNumber (hrest : EndsNumber rest) : exponent? rest = some ([], rest) := by
  cases rest with
  | nil => rfl
  | cons c cs =>
    have hc := hrest c rfl
    rw [exponent?, if_neg fun h => h.elim hc.2.2.1 hc.2.2.2]

theorem unsignedNumber?_toDigits (n : Nat) (hrest : EndsNumber rest) {negative : Bool}
    (hzero : negative = true → n ≠ 0) :
    unsignedNumber? negative (Nat.toDigits 10 n ++ rest) =
      some (integer (if negative then -(n : Int) else n), rest) := by
  have hsigned : (negative && decide (n = 0)) = false := by
    cases negative with
    | false => rfl
    | true => simp [hzero rfl]
  simp only [unsignedNumber?, wholePart?_toDigits n hrest, fraction?_of_endsNumber hrest,
    exponent?_of_endsNumber hrest, digitsValue_toDigits, hsigned, List.isEmpty_nil, Bool.and_self,
    Bool.not_false, if_true]

theorem number?_toDigits (n : Nat) (hrest : EndsNumber rest) :
    number? (Nat.toDigits 10 n ++ rest) = some (integer n, rest) := by
  have hunsigned : unsignedNumber? false (Nat.toDigits 10 n ++ rest) = some (integer n, rest) :=
    unsignedNumber?_toDigits n hrest (by simp)
  rw [← hunsigned]
  cases hn : Nat.toDigits 10 n with
  | nil => exact absurd hn Nat.toDigits_ne_nil
  | cons c cs =>
    have hc : c ≠ '-' := by
      rintro rfl
      have hdigit : '-'.isDigit = true := isDigit_of_mem_toDigits (hn ▸ List.mem_cons_self)
      cases hdigit
    rw [List.cons_append, number?.eq_def]
    split
    · next h =>
      cases h
      exact absurd rfl hc
    · rfl

/-- A whole number is read back, whatever follows it that does not go on with it. -/
theorem number?_integerText (n : Int) (hrest : EndsNumber rest) :
    number? (integerText n ++ rest) = some (integer n, rest) := by
  rw [integerText]
  split
  · next hneg =>
    have habs : -(n.natAbs : Int) = n := by omega
    have hdigits := unsignedNumber?_toDigits n.natAbs hrest (fun _ : true = true => by omega)
    rwa [if_pos rfl, habs] at hdigits
  · next hnonneg =>
    have habs : (n.natAbs : Int) = n := by omega
    have hdigits := number?_toDigits n.natAbs hrest
    rwa [habs] at hdigits

end FlowTyping.Json
