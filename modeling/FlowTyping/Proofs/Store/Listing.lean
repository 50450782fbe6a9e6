import FlowTyping.Fixture
import FlowTyping.Proofs.Receiver.Occurrence
import FlowTyping.Proofs.Text.Lines
import Mathlib.Data.List.Nodup
import Mathlib.Data.Prod.Lex
import Mathlib.Data.String.Basic

/-!
# The listing of a store

The listing of a store depends only on what the store knows, in whatever order its facts came in,
were forgotten or were joined. It shows them group by group, sorted by their text inside a group;
facts with the same text may be exchanged there, but nothing else, so the text is determined. Each
fact takes one line exactly if nothing in it has a line break (`text_of_agrees`). A text literal
never has one, since it is quoted, but a name and a character literal are written as they are.
-/

namespace FlowTyping

open Text

theorem FinMap.perm_entries {κ α : Type} [DecidableEq κ] {m n : FinMap κ α}
    (h : ∀ k, m.get? k = n.get? k) : m.entries.Perm n.entries := by
  have hnodup : ∀ m : FinMap κ α, m.entries.Nodup := fun m => List.Nodup.of_map Prod.fst m.nodup
  refine (List.perm_ext_iff_of_nodup (hnodup m) (hnodup n)).2 fun e => ?_
  rw [mem_entries, h, ← mem_entries]

section Sorting

variable {α β : Type} [LinearOrder β] {le : α → α → Bool} {key : α → β} {xs ys : List α}

theorem pairwise_mergeSort_key (hle : ∀ a b, le a b = true ↔ key a ≤ key b) (xs : List α) :
    (xs.mergeSort le).Pairwise fun a b => key a ≤ key b := by
  have htrans : ∀ a b c, le a b = true → le b c = true → le a c = true := by
    simp only [hle]
    exact fun _ _ _ => le_trans
  have htotal : ∀ a b, (le a b || le b a) = true := by
    simp only [Bool.or_eq_true, hle]
    exact fun _ _ => le_total _ _
  exact (List.pairwise_mergeSort htrans htotal xs).imp (hle _ _).1

/-- There is only one way to sort if no two members have the same place in the order. -/
theorem eq_mergeSort_of_perm (hle : ∀ a b, le a b = true ↔ key a ≤ key b)
    (hkey : Function.Injective key) (hsorted : xs.Pairwise fun a b => key a ≤ key b)
    (h : xs.Perm ys) : xs = ys.mergeSort le :=
  List.Perm.eq_of_pairwise (fun _ _ _ _ hab hba => hkey (le_antisymm hab hba)) hsorted
    (pairwise_mergeSort_key hle ys) (h.trans (List.mergeSort_perm ys le).symm)

theorem mergeSort_eq_of_perm (hle : ∀ a b, le a b = true ↔ key a ≤ key b)
    (hkey : Function.Injective key) (h : xs.Perm ys) : xs.mergeSort le = ys.mergeSort le :=
  eq_mergeSort_of_perm hle hkey (pairwise_mergeSort_key hle xs)
    ((List.mergeSort_perm xs le).trans h)

end Sorting

section Groups

theorem filter_append_filter_not {α : Type} {p : α → Bool} {xs : List α}
    (h : xs.Pairwise fun a b => p b = true → p a = true) :
    xs.filter p ++ xs.filter (!p ·) = xs := by
  induction xs with
  | nil => rfl
  | cons x xs ih =>
    obtain ⟨hx, hxs⟩ := List.pairwise_cons.1 h
    cases hp : p x with
    | true => simpa [hp] using ih hxs
    | false =>
      have hnone : ∀ b ∈ xs, p b = false := fun b hb => by simpa [hp] using hx b hb
      rw [List.filter_cons_of_neg (by simp [hp]), List.filter_cons_of_pos (by simp [hp]),
        List.filter_eq_nil_iff.2 (by simpa using hnone),
        List.filter_eq_self.2 (by simpa using hnone), List.nil_append]

/-- A list in the order of some groups is its groups one after another. -/
theorem eq_flatMap_filter {α γ : Type} [DecidableEq γ] {f : α → γ} {gs : List γ} (hgs : gs.Nodup)
    {xs : List α} (hmem : ∀ a ∈ xs, f a ∈ gs)
    (hsorted : xs.Pairwise fun a b => gs.idxOf (f a) ≤ gs.idxOf (f b)) :
    xs = gs.flatMap fun g => xs.filter (f · = g) := by
  -- the members of the first group come first, and the others are in the order of the other groups
  induction gs generalizing xs with
  | nil =>
    cases xs with
    | nil => rfl
    | cons a xs => exact absurd (hmem a List.mem_cons_self) List.not_mem_nil
  | cons g gs ih =>
    obtain ⟨hg, hgs⟩ := List.nodup_cons.1 hgs
    have hindex : ∀ a, f a ≠ g → (g :: gs).idxOf (f a) = gs.idxOf (f a) + 1 :=
      fun a ha => List.idxOf_cons_ne _ ha.symm
    have hsplit : xs.filter (f · = g) ++ xs.filter (fun a => !decide (f a = g)) = xs := by
      refine filter_append_filter_not (hsorted.imp fun {a b} hab hb => ?_)
      by_contra ha
      rw [hindex a (by simpa using ha), of_decide_eq_true hb, List.idxOf_cons_self] at hab
      omega
    have hothers : ∀ a ∈ xs.filter (fun a => !decide (f a = g)), a ∈ xs ∧ f a ≠ g := by simp
    have hmem' : ∀ a ∈ xs.filter (fun a => !decide (f a = g)), f a ∈ gs := fun a ha =>
      (List.mem_cons.1 (hmem a (hothers a ha).1)).resolve_left (hothers a ha).2
    have hsorted' : (xs.filter (fun a => !decide (f a = g))).Pairwise fun a b =>
        gs.idxOf (f a) ≤ gs.idxOf (f b) := by
      refine (hsorted.filter _).imp_of_mem fun {a b} ha hb hab => ?_
      rw [hindex a (hothers a ha).2, hindex b (hothers b hb).2] at hab
      omega
    have hsame : ∀ g' ∈ gs, (xs.filter (fun a => !decide (f a = g))).filter (f · = g') =
        xs.filter (f · = g') := by
      intro g' hg'
      rw [List.filter_filter]
      refine List.filter_congr fun a _ => ?_
      have hne : f a = g' → f a ≠ g := by
        rintro rfl rfl
        exact hg hg'
      simpa using hne
    rw [List.flatMap_cons, ← List.flatMap_congr hsame, ← ih hgs hmem' hsorted', hsplit]

end Groups

namespace Receiver

variable {key : Receiver}

/-- The name that a receiver itself contributes to its written form. -/
def name? : Receiver → Option String
  | localVariable x => some x.name
  | field _ f => some f.name
  | className ty => some ty.simpleName
  | call _ m _ _ => some m.name
  | unknown ty => some ty.text
  | _ => none

/-- Whether the receiver itself contributes no line break to its written form. -/
def AddsNoBreak (r : Receiver) : Prop :=
  (∀ name ∈ r.name?, OneLine name) ∧ ∀ ty, r ≠ .literal ty (.char '\n')

private theorem oneLine_text_iff_children (r : Receiver) :
    OneLine r.text ↔ r.AddsNoBreak ∧ ∀ c ∈ r.children, OneLine c.text := by
  have hthis : OneLine "this" := by decide
  have hdot : OneLine "." := by decide
  have hcomma : OneLine ", " := by decide
  have hmark : OneLine "?" := by decide
  have hbrackets : OneLine "[" ∧ OneLine "]" := by decide
  have hparentheses : OneLine "(" ∧ OneLine ")" := by decide
  cases r with
  | literal ty value => simp [text, oneLine_literal, AddsNoBreak, name?, children]
  | field base f =>
    simp [text, oneLine_append, AddsNoBreak, name?, children, hdot, and_comm]
  | call ty m base arguments =>
    have hswap : OneLine base.text ∧ OneLine m.name ↔ OneLine m.name ∧ OneLine base.text :=
      and_comm
    simp [text, oneLine_append, oneLine_intercalate hcomma, AddsNoBreak, name?, children, hdot,
      hparentheses, hswap, and_assoc]
  | _ => simp [text, oneLine_append, AddsNoBreak, name?, children, *]

/-- A receiver is written on one line exactly if nothing that occurs in it contributes a line
break. -/
theorem oneLine_text_iff :
    OneLine key.text ↔ ∀ part, OccursIn part key → part.AddsNoBreak := by
  induction key using induct_children with
  | h key ih =>
    rw [oneLine_text_iff_children, forall_occursIn]
    exact and_congr_right fun _ => forall_congr' fun c => forall_congr' fun hc => ih c hc

end Receiver

/-- Nothing in a fact has a line break: no name holds one, and no character literal is one. -/
structure FreeOfBreaks (r : Receiver) (v : Value) : Prop where
  typeName : OneLine v.ty.simpleName
  names : ∀ part : Receiver, part.OccursIn r → ∀ name ∈ part.name?, OneLine name
  characters : ∀ ty, ¬Receiver.OccursIn (.literal ty (.char '\n')) r

theorem Value.oneLine_text_iff {v : Value} : OneLine v.text ↔ OneLine v.ty.simpleName := by
  have hqualifiers : OneLine (String.join (v.qualifiers.toList.map fun q => q.text ++ " ")) := by
    refine oneLine_join.2 fun s hs => ?_
    obtain ⟨q, -, rfl⟩ := List.mem_map.1 hs
    cases q <;> decide
  rw [Value.text, oneLine_append, and_iff_right hqualifiers]

theorem oneLine_factText_iff {r : Receiver} {v : Value} :
    OneLine (factText r v) ↔ FreeOfBreaks r v := by
  have hcolon : OneLine ": " := by decide
  rw [factText, oneLine_append, oneLine_append, and_iff_left hcolon, Receiver.oneLine_text_iff,
    Value.oneLine_text_iff]
  constructor
  · rintro ⟨hparts, hty⟩
    have hcharacters : ∀ ty, ¬Receiver.OccursIn (.literal ty (.char '\n')) r :=
      fun ty hbreak => (hparts _ hbreak).2 ty rfl
    exact ⟨hty, fun part hpart => (hparts part hpart).1, hcharacters⟩
  · rintro ⟨hty, hnames, hcharacters⟩
    exact ⟨fun part hpart => ⟨hnames part hpart, fun ty heq => hcharacters ty (heq ▸ hpart)⟩, hty⟩

inductive FactGroup where
  | localVariables
  | this
  | fields
  | arrays
  | calls
  | classNames
deriving DecidableEq

def FactGroup.all : List FactGroup := [localVariables, this, fields, arrays, calls, classNames]

/-- The group of the facts about a receiver. No store of an analysis has facts about literals and
untracked expressions; they would stand in the last group. -/
def Receiver.factGroup : Receiver → FactGroup
  | localVariable _ => .localVariables
  | this _ => .this
  | field _ _ => .fields
  | array _ _ _ => .arrays
  | call _ _ _ _ => .calls
  | className _ => .classNames
  | literal _ _ => .classNames
  | unknown _ => .classNames

theorem Receiver.idxOf_factGroup (r : Receiver) : FactGroup.all.idxOf r.factGroup = r.rank := by
  cases r <;> rfl

namespace Store

variable {s t : Store}

section History

theorem lineLe_iff (a b : Nat × String) : lineLe a b = true ↔ toLex a ≤ toLex b := by
  rw [lineLe, Prod.Lex.toLex_le_toLex, Bool.or_eq_true, Bool.and_eq_true, decide_eq_true_eq,
    decide_eq_true_eq, Bool.not_eq_true', decide_eq_false_iff_not, not_lt]

theorem textLe_iff (a b : String) : textLe a b = true ↔ a ≤ b := by
  rw [textLe, Bool.not_eq_true', decide_eq_false_iff_not, not_lt]

theorem perm_entries (h : s.agrees t = true) : s.entries.Perm t.entries := by
  obtain ⟨-, hthis, hfacts⟩ := agrees_iff.1 h
  rw [entries, entries, hthis]
  cases t.thisValue with
  | none => exact FinMap.perm_entries hfacts
  | some v => exact (FinMap.perm_entries hfacts).cons _

theorem isEmpty_eq (s : Store) : s.isEmpty = s.entries.isEmpty := by
  rw [isEmpty, entries]
  cases s.thisValue <;> rfl

theorem lines_of_agrees (h : s.agrees t = true) : s.lines = t.lines :=
  mergeSort_eq_of_perm lineLe_iff toLex.injective ((perm_entries h).map _)

theorem sortedLines_of_agrees (h : s.agrees t = true) : s.sortedLines = t.sortedLines :=
  mergeSort_eq_of_perm textLe_iff Function.injective_id ((perm_entries h).map _)

end History

section Text

/-- A fact with the place of its group in a listing. -/
def line (e : Receiver × Value) : Nat × String := (e.1.rank, factText e.1 e.2)

/-- The order in which a listing shows the facts of a store: each once, group by group, and sorted
by text inside a group. -/
structure ListedAs (s : Store) (es : List (Receiver × Value)) : Prop where
  perm : es.Perm s.entries
  grouped : es = FactGroup.all.flatMap fun g => es.filter (·.1.factGroup = g)
  sorted : ∀ g, (es.filter (·.1.factGroup = g)).Pairwise fun e e' =>
    factText e.1 e.2 ≤ factText e'.1 e'.2

/-- The lines that show some facts: one for each of them between braces, or just a pair of
braces. -/
def listing (es : List (Receiver × Value)) : List String :=
  if es = [] then ["\x7b\x7d"]
  else "\x7b" :: (es.map fun e => "  " ++ factText e.1 e.2) ++ ["\x7d"]

variable {es : List (Receiver × Value)}

theorem rank_of_mem_group {g : FactGroup} {e : Receiver × Value}
    (he : e ∈ es.filter (·.1.factGroup = g)) : (line e).1 = FactGroup.all.idxOf g := by
  rw [line, ← Receiver.idxOf_factGroup, of_decide_eq_true (List.mem_filter.1 he).2]

/-- Sorting the facts by their lines is one such order. -/
theorem listedAs_mergeSort (s : Store) :
    s.ListedAs (s.entries.mergeSort fun e e' => lineLe (line e) (line e')) := by
  have hsorted := pairwise_mergeSort_key (fun e e' => lineLe_iff (line e) (line e')) s.entries
  simp only [Prod.Lex.toLex_le_toLex] at hsorted
  refine ⟨List.mergeSort_perm _ _, eq_flatMap_filter (by decide) ?_ ?_, fun g => ?_⟩
  · intro e _
    cases e.1.factGroup <;> decide
  · refine hsorted.imp fun {e e'} h => ?_
    rw [Receiver.idxOf_factGroup, Receiver.idxOf_factGroup]
    exact h.elim Nat.le_of_lt fun h => Nat.le_of_eq h.1
  · refine (hsorted.filter _).imp_of_mem fun {e e'} he he' h => ?_
    have hrank : (line e).1 = (line e').1 :=
      (rank_of_mem_group he).trans (rank_of_mem_group he').symm
    exact (h.resolve_left (Nat.not_lt.2 (Nat.le_of_eq hrank.symm))).2

theorem ListedAs.pairwise_line (h : s.ListedAs es) :
    es.Pairwise fun e e' => toLex (line e) ≤ toLex (line e') := by
  have hgroups : FactGroup.all.Pairwise fun g g' =>
      FactGroup.all.idxOf g < FactGroup.all.idxOf g' := by decide
  simp only [Prod.Lex.toLex_le_toLex]
  rw [h.grouped, List.pairwise_flatMap]
  constructor
  · intro g _
    refine (h.sorted g).imp_of_mem fun {e e'} he he' hle => Or.inr ⟨?_, hle⟩
    rw [rank_of_mem_group he, rank_of_mem_group he']
  · refine hgroups.imp fun {g g'} hlt e he e' he' => Or.inl ?_
    rwa [rank_of_mem_group he, rank_of_mem_group he']

/-- Orders differ only in facts with the same line. -/
theorem ListedAs.map_line (h : s.ListedAs es) : es.map line = s.lines :=
  eq_mergeSort_of_perm lineLe_iff toLex.injective (List.pairwise_map.2 h.pairwise_line)
    (h.perm.map line)

theorem ListedAs.text_eq (h : s.ListedAs es) : s.text = "\n".intercalate (listing es) := by
  have hlines : (s.lines.map fun l => "  " ++ l.2 ++ "\n") =
      (es.map fun e => "  " ++ factText e.1 e.2).map (· ++ "\n") := by
    rw [← h.map_line, List.map_map, List.map_map]
    rfl
  have hempty : s.isEmpty = es.isEmpty := s.isEmpty_eq.trans h.perm.isEmpty_eq.symm
  rw [Store.text, listing, hempty]
  cases es with
  | nil => rfl
  | cons e es =>
    rw [if_neg (by simp), if_neg (by simp), hlines, String.append_assoc, join_append,
      List.cons_append, String.intercalate_cons_of_ne_nil (by simp)]
    rfl

theorem oneLine_listing :
    (∀ l ∈ listing es, OneLine l) ↔ ∀ e ∈ es, FreeOfBreaks e.1 e.2 := by
  have hbraces : OneLine "\x7b" ∧ OneLine "\x7d" ∧ OneLine "\x7b\x7d" := by decide
  have hblanks : OneLine "  " := by decide
  rw [listing]
  split
  · next h => simp [h, hbraces]
  · rw [List.cons_append, List.forall_mem_cons, List.forall_mem_append, List.forall_mem_map]
    simp [hbraces, hblanks, oneLine_append, oneLine_factText_iff]

/-- Stores that know the same have the same text. It shows the facts between braces, group by group
and sorted inside a group, and these are its lines, one for each fact, exactly if nothing in a
fact has a line break. -/
theorem text_of_agrees (h : s.agrees t = true) :
    s.text = t.text ∧ (∃ es, s.ListedAs es) ∧
    ∀ es, s.ListedAs es → s.text = "\n".intercalate (listing es) ∧
      (linesOf s.text = listing es ↔ ∀ e ∈ es, FreeOfBreaks e.1 e.2) := by
  have hempty : s.isEmpty = t.isEmpty := by
    rw [isEmpty_eq, isEmpty_eq, (perm_entries h).isEmpty_eq]
  have hsame : s.text = t.text := by rw [Store.text, Store.text, hempty, lines_of_agrees h]
  refine ⟨hsame, ⟨_, s.listedAs_mergeSort⟩, fun es hes => ⟨hes.text_eq, ?_⟩⟩
  have hne : listing es ≠ [] := by
    rw [listing]
    split <;> simp
  rw [hes.text_eq, linesOf_intercalate_iff hne, oneLine_listing]

end Text

end Store

namespace ShadowedLocal

private def node : Ty := .declared "app.Node"

private def x (id : UInt32) : Receiver := .localVariable ⟨⟨id⟩, "x", .localVariable, node, none⟩

private def next : Receiver := .field (.this node) ⟨⟨20⟩, "next", node, node, false, false⟩

private def size : Receiver :=
  .call (.primitive .int) ⟨⟨30⟩, "size", node, .primitive .int, false, false⟩ (.this node) []

private def nonNull : Value := .of node [.nonNull]

private def nullable : Value := .of node [.nullable]

private def known : Value := .of (.primitive .int) [.nonNull]

/-- Two locals with one name, `this`, a field, a call and a class. -/
def entered : Store :=
  (Store.empty true).insert (x 10) nullable |>.insert (x 11) nonNull
    |>.insert (.this node) nonNull |>.insert next nullable |>.insert size known
    |>.insert (.className node) nonNull

/-- The same in another order, with a fact that is forgotten and found again. -/
def reentered : Store :=
  (Store.empty true).insert (.className node) nonNull |>.insert next nonNull
    |>.insert (x 11) nonNull |>.insert size known |>.clear next |>.insert (x 10) nullable
    |>.insert (.this node) nonNull |>.insert next nullable

private def shown : List (Receiver × Value) :=
  [(x 11, nonNull), (x 10, nullable), (.this node, nonNull), (next, nullable), (size, known),
    (.className node, nonNull)]

theorem entered_text :
    entered.agrees reentered = true ∧ entered.entries ≠ reentered.entries ∧
    reentered.ListedAs shown ∧ entered.text = reentered.text ∧
    linesOf entered.text = ["\x7b", "  x: @NonNull Node", "  x: @Nullable Node",
      "  this: @NonNull Node", "  this.next: @Nullable Node", "  this.size(): @NonNull int",
      "  Node: @NonNull Node", "\x7d"] := by
  have hagrees : entered.agrees reentered = true := by decide
  have hlisted : ∀ s ∈ [entered, reentered], s.ListedAs shown := by
    have hperm : ∀ s ∈ [entered, reentered], shown.Perm s.entries := by decide
    exact fun s hs => ⟨hperm s hs, by decide, fun g => by cases g <;> decide⟩
  have hfree : ∀ e ∈ shown, OneLine (factText e.1 e.2) := by decide
  obtain ⟨hsame, -, htext⟩ := Store.text_of_agrees hagrees
  have hlines : linesOf entered.text = Store.listing shown :=
    (htext shown (hlisted entered (by simp))).2.2 fun e he => oneLine_factText_iff.1 (hfree e he)
  exact ⟨hagrees, by decide, hlisted reentered (by simp), hsame, hlines.trans (by decide)⟩

end ShadowedLocal

namespace LineSearch

private def string : Ty := .declared "java.lang.String"

private def indexOf : Method :=
  ⟨⟨30⟩, "indexOf", string, .primitive .int, false, false⟩

/-- After `text.indexOf('\n')`, of a deterministic method. -/
def searched : Store :=
  (Store.empty true).insert
    (.call (.primitive .int) indexOf (.localVariable ⟨⟨10⟩, "text", .parameter, string, none⟩)
      [.literal (.primitive .char) (.char '\n')])
    (.of (.primitive .int) [.nonNull])

/-- The character literal breaks the line of the only fact, so that the lines are not the facts. -/
theorem searched_two_lines :
    searched.agrees searched = true ∧ searched.entries.length = 1 ∧
    linesOf searched.text = ["\x7b", "  text.indexOf('", "'): @NonNull int", "\x7d"] ∧
    ¬∃ es, searched.ListedAs es ∧ linesOf searched.text = Store.listing es := by
  have hlines : linesOf searched.text =
      ["\x7b", "  text.indexOf('", "'): @NonNull int", "\x7d"] := by decide +kernel
  refine ⟨by decide, by decide, hlines, ?_⟩
  rintro ⟨es, hes, hlisted⟩
  have hlength : es.length = 1 := hes.perm.length_eq
  obtain ⟨e, rfl⟩ := List.length_eq_one_iff.1 hlength
  rw [hlines] at hlisted
  simpa [Store.listing] using congrArg List.length hlisted

end LineSearch

end FlowTyping
