import FlowTyping.Form.Fixture
import FlowTyping.Proofs.Form.Graph
import FlowTyping.Proofs.Form.Tables

/-!
# Saved fixtures

A fixture that is saved and loaded again comes back equal, unless the containers of its document
nest too deep for the reader, which then refuses the text. An array type nests one container for
each of its dimensions, so a fixture with too many of them is saved but cannot be loaded.
-/

namespace FlowTyping

open Json

structure Config.Fits (c : Config) : Prop where
  maxIterations : c.maxIterations < Nat.pow 2 64
  widenAfter : ∀ n ∈ c.widenAfter, n < Nat.pow 2 64

instance (c : Config) : Decidable c.Fits :=
  decidable_of_iff (c.maxIterations < Nat.pow 2 64 ∧ ∀ n ∈ c.widenAfter, n < Nat.pow 2 64)
    ⟨fun h => ⟨h.1, h.2⟩, fun h => ⟨h.maxIterations, h.widenAfter⟩⟩

theorem Config.standsFor {c : Config} (h : c.Fits) : StandsFor Config.ofJson c.toJson c := by
  refine .object rfl ?_
  refine .field (.boolean c.concurrentSemantics) rfl ?_
  refine .field (.boolean c.infer) rfl ?_
  refine .field (.boolean c.assumeSideEffectFree) rfl ?_
  refine .field (.nat64 h.maxIterations) rfl ?_
  refine .field (.ofOption c.widenAfter (fun n hn => .nat64 (h.widenAfter n hn)) fun _ => nofun)
    rfl ?_
  exact .pure _

namespace Fixture

structure Fits (f : Fixture) : Prop where
  config : f.config.Fits
  graph : f.graph.Fits

instance (f : Fixture) : Decidable f.Fits :=
  decidable_of_iff (f.config.Fits ∧ f.graph.Fits)
    ⟨fun h => ⟨h.1, h.2⟩, fun h => ⟨h.config, h.graph⟩⟩

theorem standsFor {f : Fixture} (h : f.Fits) : StandsFor Fixture.ofJson f.toJson f := by
  refine .object rfl ?_
  refine .field (Config.standsFor h.config) rfl ?_
  refine .field (Graph.standsFor h.graph) rfl ?_
  refine .field f.tables.standsFor rfl ?_
  refine .field f.suppressed.standsFor rfl ?_
  exact .pure _

/-- A fixture is read back from its text in any layout, as long as the text does not nest too
deep. -/
theorem ofText?_text {f : Fixture} (h : f.Fits) (l : Layout) :
    ofText? (l.text f.toJson) = if f.toJson.depth ≤ maxDepth then some f else none :=
  (standsFor h).read_text l textReading

/-- A saved fixture comes back equal if its containers nest no deeper than they may, and is
refused otherwise, whether it was saved on one line or over indented lines. -/
theorem load_save {f : Fixture} (h : f.Fits) :
    ofText? f.toJson.compact = (if f.toJson.depth ≤ maxDepth then some f else none) ∧
      ofText? f.toJson.pretty = if f.toJson.depth ≤ maxDepth then some f else none := by
  rw [compact_eq_text, pretty_eq_text]
  exact ⟨ofText?_text h .onOneLine, ofText?_text h .indented⟩

end Fixture

namespace ManyDimensions

private def arrayOf (t : Ty) : Nat → Ty
  | 0 => t
  | n + 1 => .array (arrayOf t n)

/-- One node of an array type of so many dimensions. -/
private def fixture (dimensions : Nat) : Fixture where
  config := .default
  graph :=
    { code := .fragment ⟨0⟩
      parameters := []
      nodes := [⟨⟨0⟩, arrayOf (.declared "Foo") dimensions, none, true, .thisLiteral⟩]
      blocks := [⟨⟨0⟩, [⟨0⟩], some .leave, [], [⟨1⟩]⟩, ⟨⟨1⟩, [], none, [⟨0⟩], []⟩]
      entry := ⟨0⟩
      exit := ⟨1⟩ }
  tables := .empty
  suppressed := .empty

private theorem depth_arrayOf (t : Ty) (n : Nat) :
    (arrayOf t n).toJson.depth = t.toJson.depth + n := by
  induction n with
  | zero => rfl
  | succ n ih => simp [arrayOf, Ty.toJson, depth, membersDepth, ih, Nat.add_assoc]

private theorem depth_fixture (n : Nat) : (fixture n).toJson.depth = n + 5 := by
  have hty : (arrayOf (.declared "Foo") n).toJson.depth = 1 + n := depth_arrayOf _ n
  have hconfig : Config.default.toJson.depth = 1 := rfl
  have htables : Tables.empty.toJson.depth = 2 := rfl
  have hsuppressed : SuppressionList.empty.toJson.depth = 2 := rfl
  simp [fixture, Fixture.toJson, Graph.toJson, Code.toJson, TreeId.toJson, Node.toJson,
    NodeId.toJson, NodeKind.toJson, Block.toJson, BlockId.toJson, Terminator.toJson, ofList,
    ofOption, depth, membersDepth, itemsDepth, hty, hconfig, htables, hsuppressed]
  omega

/-- Two hundred dimensions are too many. -/
theorem saved_fixture_refused : (fixture 200).Fits ∧
    Fixture.ofText? (fixture 200).toJson.compact = none ∧
      Fixture.ofText? (fixture 200).toJson.pretty = none := by
  have hfits : (fixture 200).Fits := by decide
  have hdepth : ¬(fixture 200).toJson.depth ≤ maxDepth := by
    rw [depth_fixture]
    decide
  rw [compact_eq_text, pretty_eq_text, Fixture.ofText?_text hfits, Fixture.ofText?_text hfits,
    if_neg hdepth]
  exact ⟨hfits, rfl, rfl⟩

/-- A hundred and twenty-two are as many as can be read. -/
theorem saved_fixture_loaded : (fixture 122).Fits ∧ (fixture 122).toJson.depth = maxDepth ∧
    Fixture.ofText? (fixture 122).toJson.compact = some (fixture 122) ∧
      Fixture.ofText? (fixture 122).toJson.pretty = some (fixture 122) := by
  have hfits : (fixture 122).Fits := by decide
  have hdepth : (fixture 122).toJson.depth = maxDepth := depth_fixture 122
  have hload := Fixture.load_save hfits
  rw [if_pos (Nat.le_of_eq hdepth)] at hload
  exact ⟨hfits, hdepth, hload⟩

end ManyDimensions

end FlowTyping
