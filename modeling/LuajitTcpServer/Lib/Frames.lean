import Mathlib.Data.List.Flatten
import Mathlib.Tactic.Common

/-!
# Frames — streams of copies of one frame

A writer that always offers the same frame, of which the other side takes some first part each
time, produces the right stream if and only if nothing is taken after a part that was cut short
(`whole_taken_iff`).  This supposes that the frame can be told from the middle of itself: its first
element does not come again.
-/

namespace Frames

variable {α : Type}

/-- Complete copies of the frame, but for the last one. -/
def Whole (frame stream : List α) : Prop :=
  ∃ copies rest, stream = (List.replicate copies frame).flatten ++ frame.take rest

/-- What has come through when these counts were taken of one frame after the other. -/
def taken (frame : List α) (counts : List Nat) : List α :=
  counts.flatMap fun count => frame.take count

/-- Nothing was taken after a count that left a part of its frame behind. -/
def NoneAfterCut (size : Nat) (counts : List Nat) : Prop :=
  counts.Pairwise fun earlier later => 0 < earlier → earlier < size → later = 0

variable {frame stream : List α} {counts : List Nat}

theorem whole_take (count : Nat) : Whole frame (frame.take count) := ⟨0, count, rfl⟩

theorem whole_append_iff : Whole frame (frame ++ stream) ↔ Whole frame stream := by
  constructor
  · rintro ⟨copies, rest, heq⟩
    cases copies with
    | zero =>
        -- only a part of one frame: there is no room for more
        have hlen := congrArg List.length heq
        have hnil : stream = [] := by
          simp at hlen
          exact List.length_eq_zero_iff.1 (by omega)
        exact ⟨0, 0, by simp [hnil]⟩
    | succ copies =>
        rw [List.replicate_succ, List.flatten_cons, List.append_assoc] at heq
        exact ⟨copies, rest, List.append_cancel_left heq⟩
  · rintro ⟨copies, rest, rfl⟩
    exact ⟨copies + 1, rest, by simp [List.replicate_succ]⟩

/-- Up to the length of a frame, a stream is the frame. -/
theorem Whole.getElem? (h : Whole frame stream) {i : Nat} (hi : i < frame.length)
    (hlt : i < stream.length) : stream[i]? = frame[i]? := by
  rcases h with ⟨copies, rest, rfl⟩
  cases copies with
  | zero =>
      have hrest : i < rest := by
        simp at hlt
        omega
      simp [hrest]
  | succ copies =>
      simp [List.replicate_succ, List.getElem?_append, hi]

theorem taken_head (hne : taken frame counts ≠ []) : (taken frame counts)[0]? = frame[0]? := by
  induction counts with
  | nil =>
      exact absurd rfl hne
  | cons count counts ih =>
      simp only [taken, List.flatMap_cons] at hne ⊢
      by_cases hnil : frame.take count = []
      · simpa [hnil, taken] using ih (by simpa [hnil, taken] using hne)
      · have hpos : 0 < (frame.take count).length := List.length_pos_iff.2 hnil
        have hcount : 0 < count := by
          simp at hpos
          omega
        rw [List.getElem?_append_left hpos, List.getElem?_take, if_pos hcount]

theorem taken_eq_nil_iff (hframe : frame ≠ []) :
    taken frame counts = [] ↔ ∀ count ∈ counts, count = 0 := by
  simp [taken, List.flatMap_eq_nil_iff, List.take_eq_nil_iff, hframe]

/-- The stream is whole if and only if nothing was taken after a cut. -/
theorem whole_taken_iff {first : α} {rest : List α} (hcons : frame = first :: rest)
    (hfirst : first ∉ rest) (hle : ∀ count ∈ counts, count ≤ frame.length) :
    Whole frame (taken frame counts) ↔ NoneAfterCut frame.length counts := by
  have hframe : frame ≠ [] := by simp [hcons]
  have hhead : ∀ i, 0 < i → i < frame.length → frame[i]? ≠ frame[0]? := by
    intro i hpos hlt heq
    cases i with
    | zero =>
        exact absurd hpos (Nat.lt_irrefl 0)
    | succ i =>
        simp only [hcons, List.getElem?_cons_succ, List.getElem?_cons_zero] at heq
        exact hfirst (List.mem_of_getElem? heq)
  induction counts with
  | nil =>
      exact ⟨fun _ => List.Pairwise.nil, fun _ => whole_take 0⟩
  | cons count counts ih =>
      have hrest : Whole frame (taken frame counts) ↔ NoneAfterCut frame.length counts :=
        ih fun later hmem => hle later (List.mem_cons_of_mem _ hmem)
      have htaken : taken frame (count :: counts) = frame.take count ++ taken frame counts := rfl
      rw [NoneAfterCut, List.pairwise_cons, htaken]
      by_cases hpart : 0 < count ∧ count < frame.length
      · -- a cut: what comes next would begin in the middle of the frame
        constructor
        · intro hwhole
          have hnil : taken frame counts = [] := by
            by_contra hne
            have hlen : (frame.take count).length = count := by
              simp
              omega
            have hlt : count < (frame.take count ++ taken frame counts).length := by
              have hpos := List.length_pos_iff.2 hne
              rw [List.length_append, hlen]
              omega
            have hat := hwhole.getElem? hpart.2 hlt
            rw [List.getElem?_append_right (Nat.le_of_eq hlen), hlen, Nat.sub_self,
              taken_head hne] at hat
            exact hhead count hpart.1 hpart.2 hat.symm
          have hzero := (taken_eq_nil_iff hframe).1 hnil
          refine ⟨fun later hmem _ _ => hzero later hmem, hrest.1 ?_⟩
          exact hnil ▸ whole_take 0
        · rintro ⟨hzero, -⟩
          have hnil : taken frame counts = [] :=
            (taken_eq_nil_iff hframe).2 fun later hmem => hzero later hmem hpart.1 hpart.2
          rw [hnil, List.append_nil]
          exact whole_take count
      · -- nothing or a whole frame: the rest decides
        have hvacuous : ∀ later ∈ counts, 0 < count → count < frame.length → later = 0 :=
          fun _ _ hpos hlt => absurd ⟨hpos, hlt⟩ hpart
        have hsame : Whole frame (frame.take count ++ taken frame counts) ↔
            Whole frame (taken frame counts) := by
          by_cases hzero : count = 0
          · simp [hzero]
          · have hfull : frame.take count = frame :=
              List.take_of_length_le (by omega)
            rw [hfull, whole_append_iff]
        rw [hsame, hrest]
        exact ⟨fun h => ⟨hvacuous, h⟩, fun h => h.2⟩

end Frames
