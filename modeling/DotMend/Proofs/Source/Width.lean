import DotMend.Proofs.Source.Diagnostics
import DotMend.Proofs.Text.Positions
import Mathlib.Data.List.Nodup

namespace DotMend

namespace Position

lemma units_le (c : Char) : units c ≤ c.utf8Size := by
  have hpos := c.utf8Size_pos
  unfold units
  split
  · exact hpos
  · rename_i hc
    have hle {m : UInt32} (hm : m ≤ 0xffff) : ¬ c.val ≤ m := fun h => hc (UInt32.le_trans h hm)
    rw [Char.utf8Size, if_neg (hle (by decide)), if_neg (hle (by decide))]
    split <;> decide

lemma advance_le (p : Position) (c : Char) :
    (p.advance c).line + (p.advance c).character ≤ p.line + p.character + c.utf8Size := by
  have hunits := units_le c
  have hpos := c.utf8Size_pos
  unfold advance
  split <;> simp only <;> omega

end Position

namespace Text

lemma positionFrom_le (p : Position) (n : Nat) (t : Text) :
    (positionFrom p n t).line + (positionFrom p n t).character ≤ p.line + p.character + t.bytes := by
  induction t generalizing p n with
  | nil => exact Nat.le_add_right _ _
  | cons c t ih =>
    have hstep := p.advance_le c
    have hrest := ih (p.advance c) (n - c.utf8Size)
    rw [positionFrom, bytes_cons]
    split <;> omega

end Text

lemma Kind.level_lt (k : Kind) : k.level < 6 := by
  cases k <;> simp [level]

namespace Source

variable {t : Text} {g : Tree}

lemma stop_le_bytes (hg : (ofText t).graph = some g) : g.span.stop ≤ t.bytes := by
  obtain ⟨ps, rest, m, cs, h⟩ := exists_graphWay hg
  obtain ⟨used, hused, -, hend⟩ := h.steps.laid
  rw [h.stop, hend, Parse.endOf]
  cases hlast : used.getLast? with
  | none => exact Nat.zero_le _
  | some u =>
    have hu : u ∈ Token.tokensAt 0 ps := hused ▸ List.mem_append_left rest (List.mem_of_getLast? hlast)
    rw [← h.spelt]
    exact (Token.onCharacters_of_mem_tokensAt hu).inside

theorem length_nodes_le (hg : (ofText t).graph = some g) : (ofText t).parse.nodes.length ≤ 6 * t.bytes := by
  obtain ⟨ps, rest, m, cs, h⟩ := exists_graphWay hg
  have hsound := Parse.sound_of_steps h.steps h.ordered
  have hrooted := rooted_of_graph hg
  have hlength : (g.preorder fun _ => true).length = (ofText t).parse.nodes.length := by
    simpa using hrooted.walked.length_eq
  have hnodup : (g.preorder fun _ => true).Nodup :=
    .of_map _ (hrooted.walked.nodup_iff.mpr List.nodup_range)
  have hplaces : ((g.preorder fun _ => true).map fun n => 6 * n.span.start + n.kind.level).Nodup := by
    refine hnodup.map_on fun a ha b hb hab => ?_
    have hla := a.kind.level_lt
    have hlb := b.kind.level_lt
    exact hsound.eq_of_level_of_start ha hb (by omega) (by omega)
  have hsubset : ((g.preorder fun _ => true).map fun n => 6 * n.span.start + n.kind.level) ⊆
      List.range (6 * t.bytes) := by
    intro k hk
    obtain ⟨n, hn, rfl⟩ := List.mem_map.mp hk
    have hin := hsound.placed.inside hn
    have hstop := stop_le_bytes hg
    have hlevel := n.kind.level_lt
    exact List.mem_range.mpr (by omega)
  have hle := (List.subperm_of_subset hplaces hsubset).length_le
  rwa [List.length_map, List.length_range, hlength] at hle

/-- In a text that is not too long, no number of a node and no place needs more than 32 bits. -/
theorem fits_word (h : 6 * t.bytes ≤ UInt32.size) :
    (∀ n ∈ (ofText t).parse.nodes, n.2.number < UInt32.size) ∧
      ∀ offset, (t.positionAt offset).line < UInt32.size ∧ (t.positionAt offset).character < UInt32.size := by
  have hpos : 0 < UInt32.size := by decide
  refine ⟨fun n hn => ?_, fun offset => ?_⟩
  · cases hg : (ofText t).parse.graph with
    | none =>
      rw [nodes_of_none hg] at hn
      obtain ⟨s, hs, rfl⟩ := List.mem_map.mp hn
      obtain ⟨u, rfl, -⟩ := exists_leaf_of_loose (Option.mem_toList.mp hs)
      exact hpos
    | some g =>
      have hrooted := rooted_of_graph hg
      have hmem := List.mem_map_of_mem (f := fun n => n.2.number) hn
      rw [hrooted.numbered] at hmem
      exact (List.mem_range.mp hmem).trans_le ((length_nodes_le hg).trans h)
  · have hle := Text.positionFrom_le ⟨0, 0⟩ offset t
    simp only [Nat.zero_add] at hle
    rw [Text.positionAt]
    omega

end Source

end DotMend
