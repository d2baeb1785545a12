import Mathlib.Data.List.Perm.Basic
import ShardStore.Shard.Markers

/-!
# Entering and leaving a callback

Marks move while threads leave, but only how often a thread is listed has a meaning, and that
changes for the thread that enters or leaves only. A thread that enters and leaves with nobody in
between finds the list as it was.
-/

namespace ShardStore

/-- Taking the last element out moves nothing. -/
theorem swapRemove_append_singleton {α : Type} (list : List α) (a : α) :
    swapRemove (list ++ [a]) list.length = list := by
  have hlast : (list ++ [a]).getLast? = some a := List.getLast?_concat
  simp only [swapRemove, hlast]
  rw [List.set_append_right _ _ (Nat.le_refl _), Nat.sub_self, List.set_cons_zero,
    List.dropLast_concat]

/-- Up to the order of the others, one element is taken out. -/
theorem swapRemove_perm {α : Type} {list : List α} {position : Nat} (h : position < list.length) :
    (swapRemove list position).Perm (list.eraseIdx position) := by
  obtain ⟨init, last, rfl⟩ : ∃ init last, list = init ++ [last] :=
    (List.eq_nil_or_concat' list).resolve_left (List.ne_nil_of_length_pos (Nat.zero_lt_of_lt h))
  by_cases hlast : position < init.length
  · have hget : (init ++ [last]).getLast? = some last := List.getLast?_concat
    simp only [swapRemove, hget]
    rw [List.set_append_left _ _ hlast, List.dropLast_concat,
      List.eraseIdx_append_of_lt_length hlast]
    exact (List.set_perm_cons_eraseIdx hlast last).trans (List.perm_append_singleton last _).symm
  · obtain rfl : position = init.length := by
      rw [List.length_append, List.length_singleton] at h
      omega
    rw [swapRemove_append_singleton, List.eraseIdx_append_of_length_le (Nat.le_refl _),
      Nat.sub_self, List.eraseIdx_cons_zero, List.append_nil]

namespace Markers

/-- A thread that was not marked leaves as it entered. -/
theorem leave_enter {markers : Markers} {thread : ThreadId} (h : thread ∉ markers) :
    (markers.enter thread).leave thread = markers := by
  have hposition : List.idxOf? thread (markers ++ [thread]) = some markers.length := by
    rw [List.idxOf?_eq_some_iff]
    refine ⟨by simp, by simp, fun j hj => ?_⟩
    rw [List.getElem_append_left hj]
    exact fun heq => h (heq ▸ List.getElem_mem hj)
  simp only [leave, enter, hposition]
  exact swapRemove_append_singleton markers thread

/-- Leaving takes one mark of the thread out. -/
theorem leave_perm (markers : Markers) (thread : ThreadId) :
    (markers.leave thread).Perm (markers.erase thread) := by
  rw [leave, List.erase_eq_eraseIdx]
  rcases hposition : List.idxOf? thread markers with _ | position
  · exact .refl _
  · obtain ⟨hlt, -⟩ := List.idxOf?_eq_some_iff.mp hposition
    exact swapRemove_perm hlt

theorem count_enter (markers : Markers) (thread : ThreadId) :
    (markers.enter thread).count thread = markers.count thread + 1 := by
  rw [enter, List.count_append, List.count_singleton_self]

theorem count_leave (markers : Markers) (thread : ThreadId) :
    (markers.leave thread).count thread = markers.count thread - 1 := by
  rw [(markers.leave_perm thread).count_eq, List.count_erase_self]

theorem mem_of_mem_leave {markers : Markers} {thread other : ThreadId}
    (h : other ∈ markers.leave thread) : other ∈ markers :=
  List.mem_of_mem_erase ((markers.leave_perm thread).mem_iff.mp h)

end Markers

end ShardStore
