import Wires.Impl.Propagate
import Wires.Proof.Publish

/-!
# What is made of a publish

A publish fails a command if a directory holds a newer policy, or missed this one
and was reached before, and then its line names every such directory
(`Propagation.names_missed`): each arm of the ordered match that fails the
command gives that line (`fromPublish_newer`, `fromPublish_running`), and the
line has a part for each list of the report (`line_newer`, `line_missed`).
-/

namespace Wires

/-! ## What a report names -/

/-- The one text is a part of the other. -/
def StandsIn (a b : String) : Prop := a.toList <:+: b.toList

section

variable {a b : String} {texts : List String}

theorem StandsIn.refl (a : String) : StandsIn a a := List.infix_rfl

theorem StandsIn.append_right (h : StandsIn a b) (c : String) : StandsIn a (b ++ c) := by
  rw [StandsIn, String.toList_append]
  exact h.trans (List.prefix_append b.toList c.toList).isInfix

theorem StandsIn.append_left (h : StandsIn a b) (c : String) : StandsIn a (c ++ b) := by
  rw [StandsIn, String.toList_append]
  exact h.trans (List.suffix_append c.toList b.toList).isInfix

theorem infix_intercalate {α : Type} {sep x : List α} {xs : List (List α)} (h : x ∈ xs) :
    x <:+: sep.intercalate xs := by
  induction xs with
  | nil => cases h
  | cons y xs ih =>
    cases xs with
    | nil =>
      rw [List.mem_singleton.mp h, List.intercalate_singleton]
    | cons z xs =>
      rw [List.intercalate_cons_cons]
      rcases List.mem_cons.mp h with rfl | hmem
      · exact ⟨[], sep ++ sep.intercalate (z :: xs), by simp⟩
      · exact (ih hmem).trans (List.suffix_append _ _).isInfix

namespace PublishReport

theorem standsIn_part {what : String} (h : b ∈ texts) (hab : StandsIn a b) :
    StandsIn a (part what texts) := by
  rw [part, if_neg (List.ne_nil_of_mem h)]
  apply StandsIn.append_left
  rw [StandsIn, named, String.toList_intercalate]
  exact List.IsInfix.trans hab (infix_intercalate (List.mem_map_of_mem h))

variable {r : PublishReport} {d : NodeId} {version : StateVersion}

/-- The line names whom the head lists and who missed it. -/
theorem line_missed (hd : d ∈ r.missed) (hlisted : d ∉ r.dropped) :
    StandsIn (shown d) (r.line version) := by
  have hpos := List.length_pos_of_mem hd
  have htotal : r.delivered.length + r.missed.length + r.newer.length ≠ 0 := by omega
  have hmissed : r.missedListed = true :=
    List.any_eq_true.mpr ⟨d, hd, by simpa using hlisted⟩
  unfold line
  rw [if_neg htotal]
  dsimp only
  rw [if_pos hmissed]
  apply StandsIn.append_right
  apply StandsIn.append_left
  apply StandsIn.append_right
  by_cases hrefused : d ∈ r.refused
  · apply StandsIn.append_left
    refine standsIn_part (List.mem_map_of_mem (List.mem_filter.mpr ⟨hrefused, ?_⟩)) (.refl _)
    simpa using hlisted
  · apply StandsIn.append_right
    refine standsIn_part (List.mem_map_of_mem (List.mem_filter.mpr ⟨hd, ?_⟩)) (.refl _)
    simpa using ⟨hlisted, hrefused⟩

/-- The line names who holds a newer policy. -/
theorem line_newer (hd : d ∈ r.newer.map Prod.fst) : StandsIn (shown d) (r.line version) := by
  obtain ⟨e, he, rfl⟩ := List.mem_map.mp hd
  have hpos := List.length_pos_of_mem he
  have htotal : r.delivered.length + r.missed.length + r.newer.length ≠ 0 := by omega
  unfold line
  rw [if_neg htotal]
  have htext := (((StandsIn.refl (shown e.1)).append_right " (version ").append_right
    (toString e.2)).append_right ")"
  have hmem : shown e.1 ++ " (version " ++ toString e.2 ++ ")" ∈
      r.newer.map fun e => shown e.1 ++ " (version " ++ toString e.2 ++ ")" :=
    List.mem_map.mpr ⟨e, he, rfl⟩
  have hpart : StandsIn (shown e.1) (part "; holding a newer policy: " _) := standsIn_part hmem htext
  exact hpart.append_left _

end PublishReport

namespace Propagation

variable {r : PublishReport} {d : NodeId} {version : StateVersion} {running : List NodeId}

theorem fromPublish_newer {e : NodeId × StateVersion} {rest : List (NodeId × StateVersion)}
    (h : r.newer = e :: rest) : (fromPublish running (.ok (version, r))).note = r.line version ∧
      (fromPublish running (.ok (version, r))).failure ≠ none := by
  unfold fromPublish
  dsimp only
  rw [h]
  exact ⟨rfl, Option.some_ne_none _⟩

theorem fromPublish_running (h : r.newer = []) (hrunning : running ≠ []) :
    (fromPublish running (.ok (version, r))).note = r.line version ∧
      (fromPublish running (.ok (version, r))).failure ≠ none := by
  unfold fromPublish
  dsimp only
  rw [h]
  dsimp only
  rw [if_neg (fun hboth => hrunning hboth.2), if_neg hrunning]
  by_cases hnone : r.reachedNone = true
  · rw [if_pos hnone]
    exact ⟨rfl, Option.some_ne_none _⟩
  · rw [if_neg hnone]
    exact ⟨rfl, Option.some_ne_none _⟩

/-- Whoever holds a newer policy, or missed this one and was reached before, is named, and the command
fails. -/
theorem names_missed {reached : SortedSet NodeId}
    (hd : d ∈ r.newer.map Prod.fst ∨ d ∈ r.missedRunning reached) :
    (fromPublish (r.missedRunning reached) (.ok (version, r))).failure ≠ none ∧
      StandsIn (PublishReport.shown d)
        (fromPublish (r.missedRunning reached) (.ok (version, r))).note := by
  have hline : StandsIn (PublishReport.shown d) (r.line version) := by
    rcases hd with hnewer | hmissed
    · exact PublishReport.line_newer hnewer
    · rw [PublishReport.missedRunning, List.mem_filter, Bool.and_eq_true, Bool.not_eq_true',
        ← Bool.not_eq_true, List.contains_iff_mem] at hmissed
      exact PublishReport.line_missed hmissed.1 hmissed.2.1
  cases hnewer : r.newer with
  | nil =>
    have hrunning : r.missedRunning reached ≠ [] := by
      rw [hnewer] at hd
      exact List.ne_nil_of_mem (hd.resolve_left List.not_mem_nil)
    obtain ⟨hnote, hfailure⟩ := @fromPublish_running r version _ hnewer hrunning
    exact ⟨hfailure, hnote ▸ hline⟩
  | cons e rest =>
    obtain ⟨hnote, hfailure⟩ := @fromPublish_newer r version (r.missedRunning reached) e rest hnewer
    exact ⟨hfailure, hnote ▸ hline⟩

end Propagation

end

end Wires
