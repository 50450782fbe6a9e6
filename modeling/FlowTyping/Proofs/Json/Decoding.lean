import FlowTyping.Json.Decoder
import FlowTyping.Proofs.Json.Layout
import Mathlib.Logic.Basic

/-!
# Documents that stand for values

A document stands for a value under a decoder if the decoder reads it as that value wherever its
containers nest no deeper than they may, and refuses it elsewhere. Such documents are built the way
decoders are: a structure from its members, an alternative from what comes with it, a list from its
items.
-/

namespace FlowTyping.Json

/-! ### Nesting -/

mutual

def depth : Json → Nat
  | array items => itemsDepth items + 1
  | object members => membersDepth members + 1
  | _ => 0

def itemsDepth : List Json → Nat
  | [] => 0
  | j :: js => max (depth j) (itemsDepth js)

def membersDepth : List (String × Json) → Nat
  | [] => 0
  | (_, j) :: ms => max (depth j) (membersDepth ms)

end

theorem itemsDepth_le {n : Nat} {items : List Json} :
    itemsDepth items ≤ n ↔ ∀ j ∈ items, j.depth ≤ n := by
  induction items with
  | nil => simp [itemsDepth]
  | cons j js ih => rw [itemsDepth, Nat.max_le, ih, List.forall_mem_cons]

theorem membersDepth_le {n : Nat} {members : List (String × Json)} :
    membersDepth members ≤ n ↔ ∀ m ∈ members, m.2.depth ≤ n := by
  induction members with
  | nil => simp [membersDepth]
  | cons m ms ih => rw [membersDepth, Nat.max_le, ih, List.forall_mem_cons]

/-! ### Standing for a value -/

theorem ite_bind {α β : Type} {c : Prop} [Decidable c] (a : α) (f : α → Option β) :
    ((if c then some a else none) >>= f) = if c then f a else none := by
  split <;> rfl

/-- A plain document that a decoder reads as a value, as long as its containers nest no deeper
than they may. -/
structure StandsFor {α : Type} (d : Decoder α) (j : Json) (a : α) : Prop where
  plain : j.Plain
  reads : ∀ r, d r j = if j.depth ≤ r.depth then some a else none

namespace StandsFor

variable {α β : Type} {d : Decoder α} {e : Decoder β} {j k : Json} {a : α} {b : β}

/-- The text of such a document, in any layout, is read as the value. -/
theorem read_text (h : StandsFor d j a) (l : Layout) (r : Reading) :
    (parse? (l.text j)).bind (d r) = if j.depth ≤ r.depth then some a else none := by
  rw [Layout.parse?_text h.plain, Option.bind_some, h.reads]

theorem ofScalar (hplain : j.Plain) (hdepth : j.depth = 0) (h : ∀ r, d r j = some a) :
    StandsFor d j a where
  plain := hplain
  reads r := by rw [h r, if_pos (hdepth ▸ Nat.zero_le _)]

theorem boolean (b : Bool) : StandsFor boolean (bool b) b :=
  ofScalar (.bool b) rfl fun _ => rfl

theorem text (s : String) : StandsFor text (string s) s :=
  ofScalar (.string s) rfl fun _ => rfl

theorem character (c : Char) : StandsFor character (string c.toString) c :=
  ofScalar (.string _) rfl fun r => by simp [Json.character]

theorem natBelow {n bound : Nat} (h : n < bound) : StandsFor (natBelow bound) (integer n) n :=
  ofScalar (.integer _) rfl fun r => by simp [Json.natBelow, h]

theorem nat64 {n : Nat} (h : n < Nat.pow 2 64) : StandsFor nat64 (integer n) n := natBelow h

theorem map (h : StandsFor d j a) (f : α → β) :
    StandsFor (fun r j => (d r j).map f) j (f a) where
  plain := h.plain
  reads r := by
    rw [h.reads r]
    split <;> rfl

theorem uint32 (n : UInt32) : StandsFor uint32 (integer n.toNat) n := by
  have hnat : StandsFor (Json.natBelow (Nat.pow 2 32)) (integer n.toNat) n.toNat :=
    natBelow n.toNat_lt
  have h := hnat.map UInt32.ofNat
  rwa [UInt32.ofNat_toNat] at h

theorem int64 (n : Int64) : StandsFor int64 (integer n.toInt) n :=
  ofScalar (.integer _) rfl fun r => by simp [Json.int64]

theorem null : StandsFor (nullable d) .null none :=
  ofScalar .null rfl fun _ => rfl

theorem nullable (h : StandsFor d j a) (hnull : j ≠ .null) :
    StandsFor (nullable d) j (some a) where
  plain := h.plain
  reads r := by
    rw [Json.nullable, h.reads r]
    · split <;> rfl
    · exact hnull

/-- An optional value whose document is never `null`. -/
theorem ofOption {encode : α → Json} (o : Option α) (h : ∀ a ∈ o, StandsFor d (encode a) a)
    (hnull : ∀ a, encode a ≠ .null) : StandsFor (Json.nullable d) (ofOption encode o) o := by
  cases o with
  | none => exact null
  | some a => exact (h a rfl).nullable (hnull a)

/-! ### Containers -/

theorem inside_eq_none {r : Reading} (h : r.depth = 0) : r.inside = none := by
  rw [Reading.inside, h]

theorem inside_eq_some {r : Reading} {n : Nat} (h : r.depth = n + 1) :
    r.inside = some { r with depth := n } := by
  rw [Reading.inside, h]

theorem mapM_items {encode : α → Json} {as : List α} (h : ∀ a ∈ as, StandsFor d (encode a) a)
    (inner : Reading) : (as.map encode).mapM (d inner) =
      if ∀ a ∈ as, (encode a).depth ≤ inner.depth then some as else none := by
  induction as with
  | nil => simp
  | cons a as ih =>
    have ha := (h a List.mem_cons_self).reads inner
    have has := ih fun b hb => h b (List.mem_cons_of_mem _ hb)
    rw [List.map_cons, List.mapM_cons, ha, has]
    simp only [ite_bind, List.forall_mem_cons, ite_and]
    rfl

theorem ofList {encode : α → Json} {as : List α} (h : ∀ a ∈ as, StandsFor d (encode a) a) :
    StandsFor (list d) (ofList encode as) as where
  plain := .array fun j hj => by
    obtain ⟨a, ha, rfl⟩ := List.mem_map.1 hj
    exact (h a ha).plain
  reads r := by
    cases hr : r.depth with
    | zero => simp [Json.ofList, list, inside_eq_none hr, depth]
    | succ n => simp [Json.ofList, list, inside_eq_some hr, depth, mapM_items h, itemsDepth_le]

theorem pair (ha : StandsFor d j a) (hb : StandsFor e k b) :
    StandsFor (pair d e) (array [j, k]) (a, b) where
  plain := .array fun i hi => by
    simp only [List.mem_cons, List.not_mem_nil, or_false] at hi
    rcases hi with rfl | rfl
    · exact ha.plain
    · exact hb.plain
  reads r := by
    cases hr : r.depth with
    | zero => simp [Json.pair, inside_eq_none hr, depth]
    | succ n =>
      have hdepth : (array [j, k]).depth ≤ n + 1 ↔ j.depth ≤ n ∧ k.depth ≤ n := by
        rw [depth, Nat.add_le_add_iff_right, itemsDepth_le]
        simp
      simp only [Json.pair, inside_eq_some hr, ha.reads, hb.reads, hdepth]
      by_cases hj : j.depth ≤ n
      · by_cases hk : k.depth ≤ n
        · simp [hj, hk]
        · simp [hj, hk]
      · simp [hj]

end StandsFor

/-! ### Structures -/

/-- The rest of a structure, given the members that it has not looked at yet. -/
structure Completes {α : Type} (members unread : List (String × Json))
    (body : Members → Option α) (a : α) : Prop where
  plain : ∀ m ∈ unread, m.2.Plain
  reads : ∀ inner, body ⟨inner, members⟩ =
    if ∀ m ∈ unread, m.2.depth ≤ inner.depth then some a else none

namespace Completes

variable {α β : Type} {members unread : List (String × Json)} {a : α}

/-- A structure all of whose members have been read. -/
theorem pure (a : α) : Completes members [] (fun _ => Pure.pure a) a where
  plain m hm := by cases hm
  reads inner := by simp

/-- A structure whose next member stands for a value. Where the names are known, evaluating the
look-up finds that member. -/
theorem field {d : Decoder β} {name : String} {j : Json} {b : β} {read : Members → Option β}
    {body : β → Members → Option α} (hj : StandsFor d j b)
    (hread : (fun inner => read ⟨inner, members⟩) = fun inner => d inner j)
    (h : Completes members unread (body b) a) :
    Completes members ((name, j) :: unread) (fun m => read m >>= fun b => body b m) a where
  plain := by
    rintro m (_ | ⟨_, hm⟩)
    · exact hj.plain
    · exact h.plain m hm
  reads inner := by
    have hinner : read ⟨inner, members⟩ = d inner j := congrFun hread inner
    rw [hinner, hj.reads, ite_bind, h.reads]
    simp only [List.forall_mem_cons, ite_and]

end Completes

namespace StandsFor

variable {α β : Type} {d : Decoder α} {j : Json} {a : α}

/-- An object stands for the structure that its members make up. -/
theorem object {rules : List FieldRule} {members : List (String × Json)}
    {body : Members → Option α} (hdistinct : distinct rules members = true)
    (h : Completes members members body a) :
    StandsFor (fun r j => structured rules r j >>= body) (object members) a where
  plain := .object h.plain
  reads r := by
    cases hr : r.depth with
    | zero => simp [structured, inside_eq_none hr, depth]
    | succ n =>
      have hdepth : (Json.object members).depth ≤ n + 1 ↔ ∀ m ∈ members, m.2.depth ≤ n := by
        rw [depth, Nat.add_le_add_iff_right, membersDepth_le]
      simp only [structured, inside_eq_some hr, hdistinct, if_true, hdepth]
      exact h.reads _

/-! ### Alternatives -/

theorem name {name : String} (h : ∀ r, d r (string name) = some a) :
    StandsFor d (string name) a :=
  ofScalar (.string name) rfl h

theorem member {e : Decoder α} {name : String}
    (h : ∀ r, d r (.object [(name, j)]) = r.inside.bind fun inner => e inner j)
    (hj : StandsFor e j a) : StandsFor d (.object [(name, j)]) a where
  plain := .object fun m hm => by
    obtain rfl := List.mem_singleton.1 hm
    exact hj.plain
  reads r := by
    rw [h]
    cases hr : r.depth with
    | zero => simp [inside_eq_none hr, depth]
    | succ n => simp [inside_eq_some hr, hj.reads, depth, membersDepth]

variable {name : String} {choose : Alternative → Option α}

theorem single {e : Decoder β} {make : β → α} {b : β}
    (h : ∀ payload, choose ⟨name, payload⟩ = (Alternative.single ⟨name, payload⟩ e).map make)
    (hj : StandsFor e j b) :
    StandsFor (fun r j => alternative r j >>= choose) (.object [(name, j)]) (make b) :=
  member (fun r => by cases hr : r.inside <;> simp [alternative, hr, h, Alternative.single])
    (hj.map make)

theorem fields {rules : List FieldRule} {members : List (String × Json)}
    {body : Members → Option α}
    (h : ∀ payload, choose ⟨name, payload⟩ = Alternative.fields ⟨name, payload⟩ rules >>= body)
    (hdistinct : distinct rules members = true) (hbody : Completes members members body a) :
    StandsFor (fun r j => alternative r j >>= choose) (.object [(name, .object members)]) a :=
  member (fun r => by cases hr : r.inside <;> simp [alternative, hr, h, Alternative.fields])
    (object hdistinct hbody)

end StandsFor

end FlowTyping.Json
