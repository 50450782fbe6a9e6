import FlowTyping.PathExpression
import FlowTyping.Proofs.Text.Digits

/-!
# Writing and reading paths

`Path.text` writes a path: its start and its selectors with dots between them. Reading what has
been written gives the path back, as long as the path is one of the grammar. A position is written
in decimal digits, and reading its digits gives the position back.
-/

namespace FlowTyping

def PathHead.text : PathHead → String
  | this => "this"
  | parameter digits => "#" ++ String.ofList digits
  | name text => text

/-- The starts of the path grammar; the word `this` always means the receiver. -/
def PathHead.WellFormed : PathHead → Prop
  | this => True
  | parameter digits => Path.isPosition digits = true
  | name text => Path.isName text.toList = true ∧ text ≠ "this"

namespace Path

def text (path : Path) : String := ".".intercalate (path.head.text :: path.selectors)

structure WellFormed (path : Path) : Prop where
  head : path.head.WellFormed
  selectors : ∀ name ∈ path.selectors, isName name.toList = true

/-! ### The characters of a path -/

theorem isNamePart_of_isName {cs : List Char} (h : isName cs = true) :
    ∀ c ∈ cs, isNamePart c = true := by
  cases cs with
  | nil => cases h
  | cons c cs =>
    rw [isName, Bool.and_eq_true, List.all_eq_true] at h
    intro d hd
    rcases List.mem_cons.1 hd with rfl | hd
    · simp only [isNameStart, isNamePart, Char.isAlphanum, Bool.or_eq_true] at h ⊢
      rcases h.1 with (hc | hc) | hc <;> simp [hc]
    · exact h.2 d hd

theorem isNamePart_of_isPosition {cs : List Char} (h : isPosition cs = true) :
    ∀ c ∈ cs, isNamePart c = true := by
  cases cs with
  | nil => cases h
  | cons c cs =>
    simp only [isPosition, Bool.and_eq_true, List.all_eq_true] at h
    intro d hd
    have hdigit : d.isDigit = true := by
      rcases List.mem_cons.1 hd with rfl | hd
      · exact h.1.1
      · exact h.2 d hd
    simp [isNamePart, Char.isAlphanum, hdigit]

theorem toNat_of_isNamePart {c : Char} (h : isNamePart c = true) :
    36 ≤ c.toNat ∧ c.toNat ≤ 122 ∧ c.toNat ≠ '.'.toNat := by
  delta isNamePart Char.isAlphanum Char.isAlpha Char.isUpper Char.isLower Char.isDigit at h
  simp only [Bool.or_eq_true, Bool.and_eq_true, decide_eq_true_eq, ge_iff_le,
    UInt32.le_iff_toNat_le] at h
  change ((((65 ≤ c.toNat ∧ c.toNat ≤ 90) ∨ (97 ≤ c.toNat ∧ c.toNat ≤ 122)) ∨
    (48 ≤ c.toNat ∧ c.toNat ≤ 57)) ∨ c = '_') ∨ c = '$' at h
  have hdot : '.'.toNat = 46 := rfl
  rcases h with (hrange | rfl) | rfl
  · omega
  · decide
  · decide

theorem isBlank_eq_false {c : Char} (h : 33 ≤ c.toNat ∧ c.toNat ≤ 126) :
    Text.isBlank c = false := by
  simp only [Text.isBlank, Bool.or_eq_false_iff, Bool.and_eq_false_iff, decide_eq_false_iff_not]
  omega

theorem trim_eq_self {cs : List Char} (h : ∀ c ∈ cs, Text.isBlank c = false) :
    Text.trim cs = cs := by
  have hstart : ∀ ds : List Char, (∀ c ∈ ds, Text.isBlank c = false) → Text.trimStart ds = ds := by
    intro ds hds
    cases ds with
    | nil => rfl
    | cons d ds =>
      rw [Text.trimStart, List.dropWhile_cons_of_neg]
      simp [hds d List.mem_cons_self]
  have hreverse : ∀ c ∈ cs.reverse, Text.isBlank c = false :=
    fun c hc => h c (List.mem_reverse.1 hc)
  rw [Text.trim, hstart cs h, hstart _ hreverse, List.reverse_reverse]

/-! ### The pieces between dots -/

theorem segments_eq_splitOn (cs : List Char) : segments cs = cs.splitOn '.' := by
  induction cs with
  | nil => rfl
  | cons c cs ih =>
    rw [segments, List.splitOn_cons_eq_if_modifyHead, ih]
    by_cases hdot : c = '.'
    · simp [hdot]
    · rw [if_neg hdot, if_neg (by simpa using hdot)]
      cases hrest : cs.splitOn '.' with
      | nil => exact absurd hrest (List.splitOn_ne_nil _ _)
      | cons s ss => rfl

theorem segments_intercalate {pieces : List (List Char)} (hdots : ∀ s ∈ pieces, '.' ∉ s)
    (hne : pieces ≠ []) : segments (['.'].intercalate pieces) = pieces := by
  rw [segments_eq_splitOn]
  exact List.splitOn_intercalate '.' hdots hne

theorem mem_intercalate {pieces : List (List Char)} {c : Char}
    (h : c ∈ ['.'].intercalate pieces) : c = '.' ∨ ∃ s ∈ pieces, c ∈ s := by
  induction pieces with
  | nil => cases h
  | cons s pieces ih =>
    by_cases hlast : pieces = []
    · subst hlast
      rw [List.intercalate_singleton] at h
      exact Or.inr ⟨s, List.mem_cons_self, h⟩
    · rw [List.intercalate_cons_of_ne_nil hlast] at h
      simp only [List.mem_append, List.mem_singleton] at h
      rcases h with (h | h) | h
      · exact Or.inr ⟨s, List.mem_cons_self, h⟩
      · exact Or.inl h
      · obtain hdot | ⟨s', hs', hc⟩ := ih h
        · exact Or.inl hdot
        · exact Or.inr ⟨s', List.mem_cons_of_mem _ hs', hc⟩

/-! ### Reading a written path -/

private def pieces (path : Path) : List (List Char) :=
  path.head.text.toList :: path.selectors.map String.toList

private theorem toList_text (path : Path) : path.text.toList = ['.'].intercalate (pieces path) :=
  String.toList_intercalate

private theorem char_of_head {head : PathHead} (h : head.WellFormed) :
    ∀ c ∈ head.text.toList, isNamePart c = true ∨ c = '#' := by
  cases head with
  | this =>
    have hname : isName "this".toList = true := by decide
    exact fun c hc => Or.inl (isNamePart_of_isName hname c hc)
  | parameter digits =>
    intro c hc
    rw [PathHead.text, String.toList_append, String.toList_ofList (l := digits)] at hc
    rcases List.mem_append.1 hc with hc | hc
    · exact Or.inr (List.mem_singleton.1 hc)
    · exact Or.inl (isNamePart_of_isPosition h c hc)
  | name text => exact fun c hc => Or.inl (isNamePart_of_isName h.1 c hc)

private theorem char_of_piece {path : Path} (h : path.WellFormed) :
    ∀ s ∈ pieces path, ∀ c ∈ s, isNamePart c = true ∨ c = '#' := by
  intro s hs c hc
  rcases List.mem_cons.1 hs with rfl | hs
  · exact char_of_head h.head c hc
  · obtain ⟨name, hname, rfl⟩ := List.mem_map.1 hs
    exact Or.inl (isNamePart_of_isName (h.selectors name hname) c hc)

private theorem dot_notMem_piece {path : Path} (h : path.WellFormed) :
    ∀ s ∈ pieces path, '.' ∉ s := by
  intro s hs hdot
  rcases char_of_piece h s hs '.' hdot with hpart | hhash
  · exact (toNat_of_isNamePart hpart).2.2 rfl
  · exact absurd hhash (by decide)

theorem trim_text {path : Path} (h : path.WellFormed) :
    Text.trim path.text.toList = path.text.toList := by
  apply trim_eq_self
  intro c hc
  apply isBlank_eq_false
  rw [toList_text] at hc
  obtain rfl | ⟨s, hs, hc⟩ := mem_intercalate hc
  · decide
  · rcases char_of_piece h s hs c hc with hpart | rfl
    · have hrange := toNat_of_isNamePart hpart
      omega
    · decide

private theorem headOf?_text {head : PathHead} (h : head.WellFormed) :
    headOf? head.text.toList = some head := by
  cases head with
  | this => rfl
  | parameter digits =>
    have hchars : (PathHead.parameter digits).text.toList = '#' :: digits := by
      rw [PathHead.text, String.toList_append, String.toList_ofList (l := digits)]
      rfl
    have hposition : isPosition digits = true := h
    rw [hchars, headOf?, if_pos hposition]
  | name text =>
    have hthis : text.toList ≠ "this".toList := fun he => h.2 (String.toList_inj.1 he)
    have hhash : ∀ digits, text.toList ≠ '#' :: digits := by
      intro digits he
      have hname := h.1
      have hstart : isNameStart '#' = false := by decide
      rw [he, isName, hstart, Bool.false_and] at hname
      cases hname
    rw [PathHead.text, headOf?]
    · rw [if_neg hthis, if_pos h.1, String.ofList_toList]
    · exact hhash

theorem ofText?_text {path : Path} (h : path.WellFormed) : ofText? path.text.toList = some path := by
  have hselectors : (path.selectors.map String.toList).all isName = true := by
    rw [List.all_map]
    exact List.all_eq_true.2 h.selectors
  have hback : (path.selectors.map String.toList).map String.ofList = path.selectors := by
    rw [List.map_map]
    exact List.map_id'' (fun name => String.ofList_toList) _
  rw [toList_text, ofText?, segments_intercalate (dot_notMem_piece h) (List.cons_ne_nil _ _), pieces]
  simp only [if_pos hselectors, headOf?_text h.head, hback, Option.map_some]

end Path

/-- A written path has the receiver that it is resolved to. -/
theorem pathReader_text (head : PathHead) (selectors : List String)
    (h : Path.WellFormed ⟨head, selectors⟩) {fields : List Field} {context : ExpressionContext}
    {r : Receiver} (hr : Path.resolve fields context ⟨head, selectors⟩ = .ok r) :
    pathReader fields context (".".intercalate (head.text :: selectors)) = .ok r := by
  have htrim := Path.trim_text h
  have hpath := Path.ofText?_text h
  rw [Path.text] at htrim hpath
  simp only [pathReader, htrim, hpath, hr]

/-! ### Positions -/

namespace Path

theorem isPosition_toDigits {n : Nat} (h : 0 < n) : isPosition (Nat.toDigits 10 n) = true := by
  have hdigit : ∀ c ∈ Nat.toDigits 10 n, c.isDigit = true := fun _ => Text.isDigit_of_mem_toDigits
  have hhead := Text.head?_toDigits_ne_zero h
  cases hdigits : Nat.toDigits 10 n with
  | nil => exact absurd hdigits Nat.toDigits_ne_nil
  | cons c cs =>
    rw [hdigits] at hdigit hhead
    simp only [List.head?_cons, ne_eq, Option.some.injEq] at hhead
    simp only [isPosition, Bool.and_eq_true, decide_eq_true_eq, List.all_eq_true]
    exact ⟨⟨hdigit c List.mem_cons_self, hhead⟩, fun d hd => hdigit d (List.mem_cons_of_mem _ hd)⟩

end Path

end FlowTyping
