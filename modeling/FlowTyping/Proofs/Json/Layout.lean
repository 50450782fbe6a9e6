import FlowTyping.Proofs.Json.Text

/-!
# Reading back documents

A document is written on one line or over indented lines. Both are layouts: a layout says which
blanks start a line and which ones follow the name of a member. Whatever the layout, the text of a
plain document is read back as that document (`Layout.parse?_text`), however deep its containers
nest.
-/

namespace FlowTyping.Json

/-- A document in which every string holds text and every number is a whole one. -/
inductive Plain : Json → Prop where
  | null : Plain .null
  | bool (b : Bool) : Plain (.bool b)
  | integer (n : Int) : Plain (.integer n)
  | string (s : String) : Plain (.string s)
  | array {items : List Json} (h : ∀ j ∈ items, Plain j) : Plain (.array items)
  | object {members : List (String × Json)} (h : ∀ m ∈ members, Plain m.2) :
    Plain (.object members)

/-! ### Blanks -/

/-- A text of nothing but blanks. -/
def Blank (cs : List Char) : Prop := ∀ c ∈ cs, isJsonBlank c = true

theorem blank_nil : Blank [] := fun c hc => by cases hc

theorem skipBlanks_append {b : List Char} (hb : Blank b) (cs : List Char) :
    skipBlanks (b ++ cs) = skipBlanks cs := by
  rw [skipBlanks, List.dropWhile_append_of_pos hb, skipBlanks]

theorem skipBlanks_cons {c : Char} (hc : isJsonBlank c = false) (cs : List Char) :
    skipBlanks (c :: cs) = c :: cs := by
  simp [skipBlanks, hc]

theorem skipBlanks_skipBlanks (cs : List Char) : skipBlanks (skipBlanks cs) = skipBlanks cs := by
  induction cs with
  | nil => rfl
  | cons c cs ih =>
    cases hc : isJsonBlank c with
    | false => rw [skipBlanks_cons hc, skipBlanks_cons hc]
    | true =>
      have hskip : skipBlanks (c :: cs) = skipBlanks cs := by simp [skipBlanks, hc]
      rw [hskip, ih]

theorem value?_skipBlanks (fuel : Nat) (cs : List Char) :
    value? fuel (skipBlanks cs) = value? fuel cs := by
  cases fuel with
  | zero => simp only [value?]
  | succ fuel => simp only [value?, skipBlanks_skipBlanks]

theorem items?_skipBlanks (fuel : Nat) (cs : List Char) :
    items? fuel (skipBlanks cs) = items? fuel cs := by
  cases fuel with
  | zero => simp only [items?]
  | succ fuel => simp only [items?, value?_skipBlanks]

theorem members?_skipBlanks (fuel : Nat) (cs : List Char) :
    members? fuel (skipBlanks cs) = members? fuel cs := by
  cases fuel with
  | zero => simp only [members?]
  | succ fuel => simp only [members?, skipBlanks_skipBlanks]

theorem endsNumber_append {b cs : List Char} (hb : Blank b) (hcs : EndsNumber cs) :
    EndsNumber (b ++ cs) := by
  cases b with
  | nil => exact hcs
  | cons c b =>
    have hc : isJsonBlank c = true := hb c List.mem_cons_self
    simp only [isJsonBlank, Bool.or_eq_true, decide_eq_true_eq] at hc
    refine endsNumber_cons ?_ _
    rcases hc with ((rfl | rfl) | rfl) | rfl <;> decide

theorem endsNumber_comma (cs : List Char) : EndsNumber (',' :: cs) :=
  endsNumber_cons (by decide) cs

theorem endsNumber_bracket (cs : List Char) : EndsNumber (']' :: cs) :=
  endsNumber_cons (by decide) cs

theorem endsNumber_brace (cs : List Char) : EndsNumber ('\x7d' :: cs) :=
  endsNumber_cons (by decide) cs

/-! ### Documents without containers -/

variable {rest : List Char}

theorem value?_string (fuel : Nat) (s : String) (rest : List Char) :
    value? (fuel + 1) (quoted s ++ rest) = some (string s, rest) := by
  have hpieces := stringPieces_escaped s.toList rest
  simp only [quoted, List.cons_append, List.append_assoc, List.nil_append, value?,
    skipBlanks_cons (show isJsonBlank '"' = false by decide), hpieces, spell?_pieces,
    String.ofList_toList]

theorem integerText_eq_cons (n : Int) :
    ∃ c cs, integerText n = c :: cs ∧ (c = '-' ∨ c.isDigit = true) := by
  rw [integerText]
  split
  · exact ⟨'-', _, rfl, .inl rfl⟩
  · cases hdigits : Nat.toDigits 10 n.natAbs with
    | nil => exact absurd hdigits Nat.toDigits_ne_nil
    | cons c cs =>
      exact ⟨c, cs, rfl, .inr (Text.isDigit_of_mem_toDigits (hdigits ▸ List.mem_cons_self))⟩

theorem startsNumber {c : Char} (h : c = '-' ∨ c.isDigit = true) :
    isJsonBlank c = false ∧ c ∉ ['"', '[', ']', '\x7b', 'n', 't', 'f'] := by
  rcases h with rfl | h
  · decide
  · refine ⟨?_, fun hmem => ?_⟩
    · rw [Bool.eq_false_iff]
      intro hblank
      simp only [isJsonBlank, Bool.or_eq_true, decide_eq_true_eq] at hblank
      rcases hblank with ((rfl | rfl) | rfl) | rfl <;> revert h <;> decide
    · simp only [List.mem_cons, List.not_mem_nil, or_false] at hmem
      rcases hmem with rfl | rfl | rfl | rfl | rfl | rfl | rfl <;> revert h <;> decide

theorem value?_integer (fuel : Nat) (n : Int) (hrest : EndsNumber rest) :
    value? (fuel + 1) (integerText n ++ rest) = some (integer n, rest) := by
  have hnumber := number?_integerText n hrest
  obtain ⟨c, cs, htext, hc⟩ := integerText_eq_cons n
  obtain ⟨hblank, hother⟩ := startsNumber hc
  rw [htext, List.cons_append] at hnumber ⊢
  rw [value?, skipBlanks_cons hblank]
  split <;> simp_all

/-! ### Layouts -/

/-- A way of writing documents. -/
structure Layout where
  /-- What stands before an item or a closing bracket inside so many levels. -/
  lineStart : Nat → List Char
  /-- What stands between the colon after a name and the member of that name. -/
  afterName : List Char
  blank_lineStart : ∀ level, Blank (lineStart level)
  blank_afterName : Blank afterName

namespace Layout

variable (l : Layout)

mutual

def chars (level : Nat) : Json → List Char
  | array [] => ['[', ']']
  | object [] => ['\x7b', '\x7d']
  | array items => '[' :: (itemChars (level + 1) items ++ (l.lineStart level ++ [']']))
  | object members =>
    '\x7b' :: (memberChars (level + 1) members ++ (l.lineStart level ++ ['\x7d']))
  | j => j.chars

def itemChars (level : Nat) : List Json → List Char
  | [] => []
  | [j] => l.lineStart level ++ chars level j
  | j :: js => l.lineStart level ++ (chars level j ++ ',' :: itemChars level js)

def memberChars (level : Nat) : List (String × Json) → List Char
  | [] => []
  | [(name, j)] =>
    l.lineStart level ++ (quoted name ++ ':' :: (l.afterName ++ chars level j))
  | (name, j) :: ms =>
    l.lineStart level ++ (quoted name ++ ':' :: (l.afterName ++ (chars level j ++
      ',' :: memberChars level ms)))

end

def text (j : Json) : String := String.ofList (l.chars 0 j)

variable {l} {level fuel : Nat} {j : Json} {items : List Json} {members : List (String × Json)}

/-- The text of a plain document does not start with a blank or a closing bracket. -/
theorem chars_eq_cons (l : Layout) (level : Nat) (hj : j.Plain) :
    ∃ c cs, l.chars level j = c :: cs ∧ isJsonBlank c = false ∧ c ≠ ']' := by
  cases hj with
  | null => exact ⟨'n', "ull".toList, rfl, by decide, by decide⟩
  | bool b =>
    cases b with
    | true => exact ⟨'t', "rue".toList, rfl, by decide, by decide⟩
    | false => exact ⟨'f', "alse".toList, rfl, by decide, by decide⟩
  | integer n =>
    obtain ⟨c, cs, htext, hc⟩ := integerText_eq_cons n
    obtain ⟨hblank, hother⟩ := startsNumber hc
    refine ⟨c, cs, htext, hblank, ?_⟩
    rintro rfl
    exact hother (by decide)
  | string s => exact ⟨'"', _, rfl, by decide, by decide⟩
  | @array items _ => cases items <;> exact ⟨'[', _, rfl, by decide, by decide⟩
  | @object members _ => cases members <;> exact ⟨'\x7b', _, rfl, by decide, by decide⟩

/-- A document is read back from its text, whatever follows it, with as much fuel as the text is
long. -/
def ReadsBack (l : Layout) (j : Json) : Prop :=
  ∀ {level fuel : Nat} {rest : List Char}, EndsNumber rest → (l.chars level j).length ≤ fuel →
    value? fuel (l.chars level j ++ rest) = some (j, rest)

theorem ReadsBack.value?_append (hj : l.ReadsBack j) {b : List Char} (hb : Blank b)
    (hrest : EndsNumber rest) (hfuel : (l.chars level j).length ≤ fuel) :
    value? fuel (b ++ (l.chars level j ++ rest)) = some (j, rest) := by
  rw [← value?_skipBlanks, skipBlanks_append hb, value?_skipBlanks]
  exact hj hrest hfuel

/-- Items that are read back one by one are read back as a list. -/
theorem items?_itemChars (hne : items ≠ []) (hitems : ∀ j ∈ items, l.ReadsBack j) {b : List Char}
    (hb : Blank b) (hfuel : (l.itemChars level items).length < fuel) :
    items? fuel (l.itemChars level items ++ (b ++ ']' :: rest)) = some (items, rest) := by
  induction items generalizing fuel with
  | nil => exact absurd rfl hne
  | cons j js ih =>
    obtain ⟨fuel, rfl⟩ : ∃ n, fuel = n + 1 := ⟨fuel - 1, by omega⟩
    have hj : l.ReadsBack j := hitems j List.mem_cons_self
    have hstart := l.blank_lineStart level
    cases js with
    | nil =>
      simp only [itemChars, List.length_append] at hfuel
      have hend : EndsNumber (b ++ ']' :: rest) := endsNumber_append hb (endsNumber_bracket rest)
      have hvalue : value? fuel (l.lineStart level ++ (l.chars level j ++ (b ++ ']' :: rest))) =
          some (j, b ++ ']' :: rest) := hj.value?_append hstart hend (by omega)
      have hskip : skipBlanks (b ++ ']' :: rest) = ']' :: rest := by
        rw [skipBlanks_append hb, skipBlanks_cons (by decide)]
      simp only [itemChars, List.append_assoc, items?, hvalue, hskip]
    | cons k ks =>
      simp only [itemChars, List.length_append, List.length_cons] at hfuel
      have hvalue : ∀ cs, value? fuel (l.lineStart level ++ (l.chars level j ++ ',' :: cs)) =
          some (j, ',' :: cs) :=
        fun cs => hj.value?_append hstart (endsNumber_comma cs) (by omega)
      have hcomma : isJsonBlank ',' = false := by decide
      have hrest : items? fuel (l.itemChars level (k :: ks) ++ (b ++ ']' :: rest)) =
          some (k :: ks, rest) :=
        ih (by simp) (fun j hj => hitems j (List.mem_cons_of_mem _ hj)) (by omega)
      simp only [itemChars, List.append_assoc, List.cons_append, items?, hvalue,
        skipBlanks_cons hcomma, hrest, Option.map_some]

def named (members : List (String × Json)) : List (Option String × Json) :=
  members.map fun m => (some m.1, m.2)

theorem ofMembers_named (members : List (String × Json)) :
    ofMembers (named members) = object members := by
  have hnames : ((named members).mapM fun m => m.1.map fun name => (name, m.2)) = some members := by
    induction members with
    | nil => rfl
    | cons m ms ih =>
      rw [named, List.map_cons, List.mapM_cons]
      simp only [named] at ih
      simp [ih]
  rw [ofMembers, hnames]

section Member

variable {b cs after : List Char} (hb : Blank b) (name : String)
  (hvalue : value? fuel cs = some (j, after))

include hb hvalue

theorem members?_last (hskip : skipBlanks after = '\x7d' :: rest) :
    members? (fuel + 1) (b ++ (quoted name ++ ':' :: cs)) = some ([(some name, j)], rest) := by
  have hquote : isJsonBlank '"' = false := by decide
  have hcolon : isJsonBlank ':' = false := by decide
  simp only [quoted, List.append_assoc, List.cons_append, List.nil_append, members?,
    skipBlanks_append hb, skipBlanks_cons hquote, stringPieces_escaped, spell?_pieces,
    Option.map_some, String.ofList_toList, skipBlanks_cons hcolon, hvalue, hskip]

theorem members?_more {more : List Char} {ms : List (Option String × Json)}
    (hskip : skipBlanks after = ',' :: more) (hmore : members? fuel more = some (ms, rest)) :
    members? (fuel + 1) (b ++ (quoted name ++ ':' :: cs)) =
      some ((some name, j) :: ms, rest) := by
  have hquote : isJsonBlank '"' = false := by decide
  have hcolon : isJsonBlank ':' = false := by decide
  simp only [quoted, List.append_assoc, List.cons_append, List.nil_append, members?,
    skipBlanks_append hb, skipBlanks_cons hquote, stringPieces_escaped, spell?_pieces,
    Option.map_some, String.ofList_toList, skipBlanks_cons hcolon, hvalue, hskip, hmore]

end Member

/-- Members that are read back one by one are read back as a list. -/
theorem members?_memberChars (hne : members ≠ []) (hmembers : ∀ m ∈ members, l.ReadsBack m.2)
    {b : List Char} (hb : Blank b) (hfuel : (l.memberChars level members).length < fuel) :
    members? fuel (l.memberChars level members ++ (b ++ '\x7d' :: rest)) =
      some (named members, rest) := by
  induction members generalizing fuel with
  | nil => exact absurd rfl hne
  | cons m ms ih =>
    obtain ⟨name, j⟩ := m
    obtain ⟨fuel, rfl⟩ : ∃ n, fuel = n + 1 := ⟨fuel - 1, by omega⟩
    have hj : l.ReadsBack j := hmembers (name, j) List.mem_cons_self
    have hstart := l.blank_lineStart level
    have hafter := l.blank_afterName
    cases ms with
    | nil =>
      simp only [memberChars, List.length_append, List.length_cons] at hfuel
      have hend : EndsNumber (b ++ '\x7d' :: rest) := endsNumber_append hb (endsNumber_brace rest)
      have hvalue : value? fuel (l.afterName ++ (l.chars level j ++ (b ++ '\x7d' :: rest))) =
          some (j, b ++ '\x7d' :: rest) := hj.value?_append hafter hend (by omega)
      have hskip : skipBlanks (b ++ '\x7d' :: rest) = '\x7d' :: rest := by
        rw [skipBlanks_append hb, skipBlanks_cons (by decide)]
      simp only [memberChars, List.append_assoc, List.cons_append]
      exact members?_last hstart name hvalue hskip
    | cons k ks =>
      simp only [memberChars, List.length_append, List.length_cons] at hfuel
      have hrest : members? fuel (l.memberChars level (k :: ks) ++ (b ++ '\x7d' :: rest)) =
          some (named (k :: ks), rest) :=
        ih (by simp) (fun m hm => hmembers m (List.mem_cons_of_mem _ hm)) (by omega)
      simp only [memberChars, List.append_assoc, List.cons_append]
      refine members?_more hstart name (hj.value?_append hafter (endsNumber_comma _) (by omega)) ?_
        hrest
      exact skipBlanks_cons (by decide) _

theorem value?_array {cs : List Char} (hopen : ∀ ds, skipBlanks cs ≠ ']' :: ds)
    (hitems : items? fuel cs = some (items, rest)) :
    value? (fuel + 1) ('[' :: cs) = some (array items, rest) := by
  rw [value?, skipBlanks_cons (by decide)]
  -- What follows the bracket is not another one, so the array has items.
  simp only [items?_skipBlanks, hitems, Option.map_some]

theorem value?_object {cs : List Char} (hopen : ∀ ds, skipBlanks cs ≠ '\x7d' :: ds)
    (hmembers : members? fuel cs = some (named members, rest)) :
    value? (fuel + 1) ('\x7b' :: cs) = some (object members, rest) := by
  rw [value?, skipBlanks_cons (by decide)]
  simp only [members?_skipBlanks, hmembers, Option.map_some, ofMembers_named]

theorem skipBlanks_itemChars (hj : j.Plain) (js : List Json) (cs ds : List Char) :
    skipBlanks (l.itemChars level (j :: js) ++ cs) ≠ ']' :: ds := by
  obtain ⟨c, text, htext, hblank, hc⟩ := chars_eq_cons l level hj
  have hstart := l.blank_lineStart level
  cases js with
  | nil => simp [itemChars, htext, skipBlanks_append hstart, skipBlanks_cons hblank, hc]
  | cons k ks => simp [itemChars, htext, skipBlanks_append hstart, skipBlanks_cons hblank, hc]

theorem skipBlanks_memberChars (m : String × Json) (ms : List (String × Json))
    (cs ds : List Char) : skipBlanks (l.memberChars level (m :: ms) ++ cs) ≠ '\x7d' :: ds := by
  obtain ⟨name, j⟩ := m
  have hstart := l.blank_lineStart level
  have hquote : isJsonBlank '"' = false := by decide
  cases ms with
  | nil => simp [memberChars, quoted, skipBlanks_append hstart, skipBlanks_cons hquote]
  | cons k ks => simp [memberChars, quoted, skipBlanks_append hstart, skipBlanks_cons hquote]

theorem exists_fuel (hj : j.Plain) (hfuel : (l.chars level j).length ≤ fuel) :
    ∃ n, fuel = n + 1 := by
  obtain ⟨c, cs, htext, -⟩ := chars_eq_cons l level hj
  rw [htext, List.length_cons] at hfuel
  exact ⟨fuel - 1, by omega⟩

/-- Every plain document is read back, by induction on it. -/
theorem readsBack (hj : j.Plain) : l.ReadsBack j := by
  induction hj with
  | null =>
    intro level fuel rest hrest hfuel
    obtain ⟨fuel, rfl⟩ := exists_fuel .null hfuel
    rfl
  | bool b =>
    intro level fuel rest hrest hfuel
    obtain ⟨fuel, rfl⟩ := exists_fuel (.bool b) hfuel
    cases b <;> rfl
  | integer n =>
    intro level fuel rest hrest hfuel
    obtain ⟨fuel, rfl⟩ := exists_fuel (.integer n) hfuel
    simpa only [chars, Json.chars] using value?_integer fuel n hrest
  | string s =>
    intro level fuel rest hrest hfuel
    obtain ⟨fuel, rfl⟩ := exists_fuel (.string s) hfuel
    simpa only [chars, Json.chars] using value?_string fuel s rest
  | @array items hplain ih =>
    intro level fuel rest hrest hfuel
    obtain ⟨fuel, rfl⟩ := exists_fuel (.array hplain) hfuel
    cases items with
    | nil => rfl
    | cons j js =>
      simp only [chars, List.length_cons, List.length_append] at hfuel
      have hitems : items? fuel (l.itemChars (level + 1) (j :: js) ++
          (l.lineStart level ++ ']' :: rest)) = some (j :: js, rest) :=
        items?_itemChars (by simp) ih (l.blank_lineStart level) (by omega)
      have hopen : ∀ ds, skipBlanks (l.itemChars (level + 1) (j :: js) ++
          (l.lineStart level ++ ']' :: rest)) ≠ ']' :: ds :=
        skipBlanks_itemChars (hplain j List.mem_cons_self) js _
      simpa only [chars, List.cons_append, List.append_assoc, List.nil_append] using
        value?_array hopen hitems
  | @object members hplain ih =>
    intro level fuel rest hrest hfuel
    obtain ⟨fuel, rfl⟩ := exists_fuel (.object hplain) hfuel
    cases members with
    | nil => rfl
    | cons m ms =>
      simp only [chars, List.length_cons, List.length_append] at hfuel
      have hmembers : members? fuel (l.memberChars (level + 1) (m :: ms) ++
          (l.lineStart level ++ '\x7d' :: rest)) = some (named (m :: ms), rest) :=
        members?_memberChars (by simp) ih (l.blank_lineStart level) (by omega)
      have hopen : ∀ ds, skipBlanks (l.memberChars (level + 1) (m :: ms) ++
          (l.lineStart level ++ '\x7d' :: rest)) ≠ '\x7d' :: ds :=
        skipBlanks_memberChars m ms _
      simpa only [chars, List.cons_append, List.append_assoc, List.nil_append] using
        value?_object hopen hmembers

/-- The text of a plain document spells that document, in any layout. -/
theorem parse?_text (hj : j.Plain) : parse? (l.text j) = some j := by
  have hvalue : value? (2 * (l.chars 0 j).length + 2) (l.chars 0 j ++ []) = some (j, []) :=
    readsBack hj endsNumber_nil (by omega)
  rw [List.append_nil] at hvalue
  simp only [parse?, text, String.toList_ofList, hvalue]
  rfl

end Layout

/-! ### The two layouts in use -/

def Layout.onOneLine : Layout := ⟨fun _ => [], [], fun _ => blank_nil, blank_nil⟩

theorem blank_newLine (level : Nat) : Blank (newLine level).toList := by
  intro c hc
  simp only [newLine, String.toList_append, String.toList_ofList, List.mem_append,
    List.mem_replicate] at hc
  rcases hc with hc | ⟨-, rfl⟩
  · have hline : c = '\n' := by simpa using hc
    subst hline
    decide
  · decide

def Layout.indented : Layout :=
  ⟨fun level => (newLine level).toList, [' '], blank_newLine, by simp [Blank, isJsonBlank]⟩

mutual

theorem chars_eq_onOneLine (level : Nat) (j : Json) :
    j.chars = Layout.onOneLine.chars level j := by
  match j with
  | array [] => rfl
  | object [] => rfl
  | array (j :: js) =>
    simp only [chars, Layout.chars, Layout.onOneLine, List.nil_append,
      itemChars_eq_onOneLine (level + 1) (j :: js)]
  | object (m :: ms) =>
    simp only [chars, Layout.chars, Layout.onOneLine, List.nil_append,
      memberChars_eq_onOneLine (level + 1) (m :: ms)]
  | .null => rfl
  | .bool _ => rfl
  | .integer _ => rfl
  | .decimal _ => rfl
  | .string _ => rfl
  | .malformed => rfl

theorem itemChars_eq_onOneLine (level : Nat) (js : List Json) :
    itemChars js = Layout.onOneLine.itemChars level js := by
  match js with
  | [] => rfl
  | [j] =>
    simp only [itemChars, Layout.itemChars, chars_eq_onOneLine level j, Layout.onOneLine,
      List.nil_append]
  | j :: k :: ks =>
    have hrest := itemChars_eq_onOneLine level (k :: ks)
    simp only [itemChars, Layout.itemChars, chars_eq_onOneLine level j] at hrest ⊢
    simp only [hrest, Layout.onOneLine, List.nil_append]

theorem memberChars_eq_onOneLine (level : Nat) (ms : List (String × Json)) :
    memberChars ms = Layout.onOneLine.memberChars level ms := by
  match ms with
  | [] => rfl
  | [(name, j)] =>
    simp only [memberChars, Layout.memberChars, chars_eq_onOneLine level j, Layout.onOneLine,
      List.nil_append]
  | (name, j) :: k :: ks =>
    have hrest := memberChars_eq_onOneLine level (k :: ks)
    simp only [memberChars, Layout.memberChars, chars_eq_onOneLine level j] at hrest ⊢
    simp only [hrest, Layout.onOneLine, List.nil_append]

end

mutual

theorem toList_prettyAt (level : Nat) (j : Json) :
    (prettyAt level j).toList = Layout.indented.chars level j := by
  match j with
  | array [] => simp [prettyAt, Layout.chars]
  | object [] => simp [prettyAt, Layout.chars]
  | array (j :: js) =>
    simp only [prettyAt, String.toList_append, toList_prettyItems (level + 1) (j :: js),
      List.append_assoc]
    rfl
  | object (m :: ms) =>
    simp only [prettyAt, String.toList_append, toList_prettyMembers (level + 1) (m :: ms),
      List.append_assoc]
    rfl
  | .null => rfl
  | .bool _ => simp [prettyAt, compact, Layout.chars]
  | .integer _ => simp [prettyAt, compact, Layout.chars]
  | .decimal _ => simp [prettyAt, compact, Layout.chars]
  | .string _ => simp [prettyAt, compact, Layout.chars]
  | .malformed => simp [prettyAt, compact, Layout.chars]

theorem toList_prettyItems (level : Nat) (js : List Json) :
    (prettyItems level js).toList = Layout.indented.itemChars level js := by
  match js with
  | [] => rfl
  | [j] =>
    simp only [prettyItems, String.toList_append, toList_prettyAt level j]
    rfl
  | j :: k :: ks =>
    simp only [prettyItems, String.toList_append, toList_prettyAt level j,
      List.append_assoc, toList_prettyItems level (k :: ks)]
    rfl

theorem toList_prettyMembers (level : Nat) (ms : List (String × Json)) :
    (prettyMembers level ms).toList = Layout.indented.memberChars level ms := by
  match ms with
  | [] => rfl
  | [(name, j)] =>
    simp only [prettyMembers, String.toList_append, String.toList_ofList, toList_prettyAt level j,
      List.append_assoc]
    rfl
  | (name, j) :: k :: ks =>
    simp only [prettyMembers, String.toList_append, String.toList_ofList, toList_prettyAt level j,
      List.append_assoc, toList_prettyMembers level (k :: ks)]
    rfl

end

theorem compact_eq_text (j : Json) : j.compact = Layout.onOneLine.text j := by
  rw [compact, Layout.text, chars_eq_onOneLine 0]

theorem pretty_eq_text (j : Json) : j.pretty = Layout.indented.text j := by
  rw [pretty, Layout.text, ← toList_prettyAt, String.ofList_toList]

theorem Plain.parse?_compact {j : Json} (hj : j.Plain) : parse? j.compact = some j := by
  rw [compact_eq_text]
  exact Layout.parse?_text hj

theorem Plain.parse?_pretty {j : Json} (hj : j.Plain) : parse? j.pretty = some j := by
  rw [pretty_eq_text]
  exact Layout.parse?_text hj

end FlowTyping.Json
