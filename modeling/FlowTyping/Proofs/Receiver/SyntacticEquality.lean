import FlowTyping.Proofs.Receiver.Occurrence

/-!
# Syntactic equality of receivers

Two receivers are syntactically equal exactly if they are tracked at every depth and agree once the
types of array accesses and calls are forgotten (`syntacticEq_iff`). The laws of syntactic equality
are therefore those of equality, except that an untracked expression equals nothing, and what is
syntactically contained in a receiver is what occurs in it with other types.
-/

namespace FlowTyping.Receiver

mutual

/-- The receiver with the types of array accesses and calls forgotten. -/
def untyped : Receiver → Receiver
  | field base f => field base.untyped f
  | array _ base index => array .void base.untyped index.untyped
  | call _ m base arguments => call .void m base.untyped (untypedList arguments)
  | r => r

def untypedList : List Receiver → List Receiver
  | [] => []
  | r :: rs => r.untyped :: untypedList rs

end

@[simp] theorem untypedList_eq (rs : List Receiver) : untypedList rs = rs.map untyped := by
  induction rs with
  | nil => rfl
  | cons r rs ih => simp [untypedList, ih]

variable {a b c r s part : Receiver} {x : Variable}

@[simp] theorem children_untyped (r : Receiver) : r.untyped.children = r.children.map untyped := by
  cases r <;> simp [untyped, children]

@[simp] theorem containsUnknown_untyped (r : Receiver) :
    r.untyped.containsUnknown = r.containsUnknown := by
  induction r using induct_children with
  | h r ih =>
    cases r with
    | field base f => simpa [untyped, containsUnknown, children] using ih
    | array ty base index =>
      obtain ⟨hbase, hindex⟩ : _ ∧ _ := by simpa [children] using ih
      simp [untyped, containsUnknown, hbase, hindex]
    | call ty m base arguments =>
      obtain ⟨hbase, harguments⟩ := List.forall_mem_cons.1 ih
      have hany : (arguments.map untyped).any containsUnknown = arguments.any containsUnknown := by
        rw [List.any_map, Bool.eq_iff_iff, List.any_eq_true, List.any_eq_true]
        refine exists_congr fun c => and_congr_right fun hc => ?_
        rw [Function.comp_apply, harguments c hc]
      simp [untyped, containsUnknown, hbase, hany]
    | _ => rfl

mutual

private theorem syntacticEq_iff_untyped : ∀ r s : Receiver, syntacticEq r s = true ↔
    r.containsUnknown = false ∧ r.untyped = s.untyped
  | localVariable _, s => by cases s <;> simp [syntacticEq, containsUnknown, untyped]
  | field base _, s => by
    cases s <;> simp [syntacticEq, containsUnknown, untyped, syntacticEq_iff_untyped base,
      and_left_comm, and_comm]
  | this _, s => by cases s <;> simp [syntacticEq, containsUnknown, untyped]
  | className _, s => by cases s <;> simp [syntacticEq, containsUnknown, untyped]
  | array _ base index, s => by
    cases s <;> simp [syntacticEq, containsUnknown, untyped, syntacticEq_iff_untyped base,
      syntacticEq_iff_untyped index, and_left_comm, and_assoc]
  | call _ _ base arguments, s => by
    cases s <;> simp [syntacticEq, containsUnknown, untyped, syntacticEq_iff_untyped base,
      syntacticEqList_iff_untyped arguments, and_left_comm, and_assoc]
  | literal _ _, s => by cases s <;> simp [syntacticEq, containsUnknown, untyped]
  | unknown _, s => by cases s <;> simp [syntacticEq, containsUnknown]

private theorem syntacticEqList_iff_untyped : ∀ rs ss : List Receiver,
    syntacticEqList rs ss = true ↔
      (∀ r ∈ rs, r.containsUnknown = false) ∧ rs.map untyped = ss.map untyped
  | [], ss => by cases ss <;> simp [syntacticEqList]
  | r :: rs, ss => by
    cases ss <;> simp [syntacticEqList, syntacticEq_iff_untyped r, syntacticEqList_iff_untyped rs,
      and_left_comm, and_assoc]

end

/-- Two receivers are syntactically equal exactly if they are tracked at every depth and differ at
most in the types of array accesses and calls. -/
theorem syntacticEq_iff : r.syntacticEq s = true ↔
    r.containsUnknown = false ∧ r.untyped = s.untyped :=
  syntacticEq_iff_untyped r s

theorem syntacticEq_comm (a b : Receiver) : a.syntacticEq b = b.syntacticEq a := by
  have hsymm : ∀ r s : Receiver, r.syntacticEq s = true → s.syntacticEq r = true := by
    intro r s h
    obtain ⟨hknown, hsame⟩ := syntacticEq_iff.1 h
    refine syntacticEq_iff.2 ⟨?_, hsame.symm⟩
    rw [← containsUnknown_untyped, ← hsame, containsUnknown_untyped, hknown]
  exact Bool.eq_iff_iff.2 ⟨hsymm a b, hsymm b a⟩

theorem syntacticEq_trans (hab : a.syntacticEq b = true) (hbc : b.syntacticEq c = true) :
    a.syntacticEq c = true := by
  obtain ⟨hknown, hab⟩ := syntacticEq_iff.1 hab
  exact syntacticEq_iff.2 ⟨hknown, hab.trans (syntacticEq_iff.1 hbc).2⟩

theorem syntacticEq_self (a : Receiver) : a.syntacticEq a = !a.containsUnknown := by
  rw [Bool.eq_iff_iff, syntacticEq_iff, Bool.not_eq_true', and_iff_left rfl]

/-- What occurs in a receiver occurs, up to types, in each receiver that differs from it at most in
types. -/
theorem exists_occursIn_untyped (h : part.OccursIn s) (hsame : r.untyped = s.untyped) :
    ∃ part' : Receiver, part'.OccursIn r ∧ part'.untyped = part.untyped := by
  induction h generalizing r with
  | whole => exact ⟨r, .whole, hsame⟩
  | @part key c hc _ ih =>
    have hmem : c.untyped ∈ r.children.map untyped := by
      rw [← children_untyped, hsame, children_untyped]
      exact List.mem_map_of_mem hc
    obtain ⟨d, hd, hdc⟩ := List.mem_map.1 hmem
    obtain ⟨part', hpart', hsame'⟩ := ih hdc
    exact ⟨part', .part hd hpart', hsame'⟩

theorem mentions_trans (hab : a.mentions b = true) (hbc : b.mentions c = true) :
    a.mentions c = true := by
  obtain ⟨a', ha', hab⟩ := mentions_iff.1 hab
  obtain ⟨b', hb', hbc⟩ := mentions_iff.1 hbc
  -- The part of `b` that equals `c` occurs, with other types, in the part of `a` that equals `b`.
  obtain ⟨a'', ha'', hsame⟩ := exists_occursIn_untyped hb' (syntacticEq_iff.1 hab).2
  obtain ⟨hknown, hbc⟩ := syntacticEq_iff.1 hbc
  refine mentions_iff.2 ⟨a'', ha''.trans ha', syntacticEq_iff.2 ⟨?_, hsame.trans hbc⟩⟩
  rw [← containsUnknown_untyped, hsame, containsUnknown_untyped, hknown]

/-- A receiver mentions everything tracked that occurs in it. -/
theorem mentions_of_occursIn (h : b.OccursIn a) (hknown : b.containsUnknown = false) :
    a.mentions b = true :=
  mentions_iff.2 ⟨b, h, syntacticEq_iff.2 ⟨hknown, rfl⟩⟩

/-- Syntactic equality is symmetric and transitive, and a receiver is syntactically equal to itself,
and to what equals it, exactly if nothing untracked occurs in it. Containment is transitive and
finds what occurs as it stands; of a local it finds nothing else. -/
theorem syntacticEq_and_mentions (a b c : Receiver) (x : Variable) :
    a.syntacticEq b = b.syntacticEq a ∧
    (a.syntacticEq b = true → b.syntacticEq c = true → a.syntacticEq c = true) ∧
    (a.syntacticEq a = !a.containsUnknown) ∧
    (a.containsUnknown = true ↔ ∃ ty, OccursIn (.unknown ty) a) ∧
    (a = b → a.containsUnknown = false → a.syntacticEq b = true) ∧
    (a.mentions b = true → b.mentions c = true → a.mentions c = true) ∧
    (OccursIn b a → b.containsUnknown = false → a.mentions b = true) ∧
    (a.mentions (.localVariable x) = true ↔ OccursIn (.localVariable x) a) := by
  refine ⟨syntacticEq_comm a b, syntacticEq_trans, syntacticEq_self a, containsUnknown_iff, ?_,
    mentions_trans, mentions_of_occursIn, mentions_localVariable⟩
  rintro rfl hknown
  rw [syntacticEq_self, hknown, Bool.not_false]

end FlowTyping.Receiver

namespace FlowTyping.RetypedCall

private def list : Ty := .declared "List"

private def rows : Variable := ⟨⟨1⟩, "rows", .localVariable, .array list, none⟩

private def i : Variable := ⟨⟨2⟩, "i", .localVariable, .primitive .int, none⟩

private def get : Method := ⟨⟨3⟩, "get", list, .object, false, false⟩

/-- `rows[i]`, read as the given type. -/
private def row (ty : Ty) : Receiver := .array ty (.localVariable rows) (.localVariable i)

/-- `rows[i].get(i)`, with the given types of the row and of the result. -/
private def entry (rowTy ty : Ty) : Receiver :=
  .call ty get (row rowTy) [.localVariable i]

/-- Read with other types, an entry is a different receiver but syntactically the same. It mentions
its row as read elsewhere, and through the row the local `rows`. -/
theorem entry_mentions_rows :
    entry list .object ≠ entry .object list ∧
    (entry list .object).syntacticEq (entry .object list) = true ∧
    (entry .object list).syntacticEq (entry list .object) = true ∧
    (entry list .object).syntacticEq (entry list .object) = true ∧
    (entry list .object).mentions (row .object) = true ∧
    (row .object).mentions (.localVariable rows) = true ∧
    (entry list .object).mentions (.localVariable rows) = true ∧
    Receiver.OccursIn (.localVariable rows) (entry list .object) := by
  have hretyped : (entry list .object).syntacticEq (entry .object list) = true := by decide
  have hback : (entry .object list).syntacticEq (entry list .object) = true := by decide
  have hrow : (entry list .object).mentions (row .object) = true := by decide
  have hrows : (row .object).mentions (.localVariable rows) = true := by decide
  obtain ⟨-, htrans, -⟩ := Receiver.syntacticEq_and_mentions (entry list .object)
    (entry .object list) (entry list .object) rows
  obtain ⟨-, -, -, -, -, hmentions, -, hoccurs⟩ := Receiver.syntacticEq_and_mentions
    (entry list .object) (row .object) (.localVariable rows) rows
  have hrows' := hmentions hrow hrows
  exact ⟨by decide, hretyped, hback, htrans hretyped hback, hrow, hrows, hrows', hoccurs.1 hrows'⟩

end FlowTyping.RetypedCall
