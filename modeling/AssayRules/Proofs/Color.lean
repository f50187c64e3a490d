import AssayRules.Color
import Mathlib.Data.List.Perm.Basic
import Mathlib.Tactic.Common

/-!
# Blending does not depend on the order of colors

The blend of some colors is the same in any order (`blend_perm`). The average is so because
a sum is. The least text stands in for it where no color can be read, and is one of the texts
and at most each of them (`leastText_mem`, `leastText_le`), which leaves only one choice.
-/

namespace AssayRules

theorem leastText_mem (first : Text) (rest : List Text) :
    leastText first rest ∈ first :: rest := by
  induction rest generalizing first with
  | nil => exact List.mem_singleton_self _
  | cons s rest ih =>
    unfold leastText
    split
    · exact List.mem_cons_of_mem _ (ih s)
    · rcases List.mem_cons.1 (ih first) with h | h
      · rw [h]
        exact List.mem_cons_self
      · exact List.mem_cons_of_mem _ (List.mem_cons_of_mem _ h)

theorem leastText_le {first : Text} {rest : List Text} {s : Text} (h : s ∈ first :: rest) :
    leastText first rest ≤ s := by
  -- text by text, with the lesser one so far
  induction rest generalizing first s with
  | nil =>
    rw [List.mem_singleton.1 h]
    exact List.le_refl _
  | cons t rest ih =>
    unfold leastText
    -- the lesser of the first two goes on, and is at most both
    split
    · rename_i hlt
      rcases List.mem_cons.1 h with rfl | h
      · exact List.le_trans (ih List.mem_cons_self) (List.le_of_lt hlt)
      · exact ih h
    · rename_i hge
      rcases List.mem_cons.1 h with rfl | h
      · exact ih List.mem_cons_self
      · rcases List.mem_cons.1 h with rfl | h
        · exact List.le_trans (ih List.mem_cons_self) (List.not_lt.1 hge)
        · exact ih (List.mem_cons_of_mem _ h)

theorem leastText_perm {first first' : Text} {rest rest' : List Text}
    (h : (first :: rest).Perm (first' :: rest')) :
    leastText first rest = leastText first' rest' :=
  List.le_antisymm (leastText_le (h.mem_iff.2 (leastText_mem first' rest')))
    (leastText_le (h.mem_iff.1 (leastText_mem first rest)))

namespace Rgb

theorem channelSum_perm {values values' : List UInt8} (h : values.Perm values') :
    channelSum values = channelSum values' := by
  induction h with
  | nil => rfl
  | cons v _ ih => rw [channelSum, channelSum, ih]
  | swap v w rest =>
    simp only [channelSum]
    rw [← UInt64.add_assoc, ← UInt64.add_assoc, UInt64.add_comm v.toUInt64]
  | trans _ _ ih ih' => exact ih.trans ih'

theorem average_perm {colors colors' : List Rgb} (h : colors.Perm colors') :
    average colors = average colors' := by
  have hchannel : ∀ channel : Rgb → UInt8,
      averageChannel (colors.map channel) = averageChannel (colors'.map channel) := by
    intro channel
    have hmap := h.map channel
    rw [averageChannel, averageChannel, channelSum_perm hmap, hmap.length_eq]
  rw [average, average, hchannel, hchannel, hchannel]

end Rgb

/-- The blend of two colors or more. -/
theorem blend_cons_cons (first second : Text) (rest : List Text) :
    blend (first :: second :: rest)
      = match (first :: second :: rest).filterMap Rgb.ofText? with
        | [] => leastText first (second :: rest)
        | colors => (Rgb.average colors).text := rfl

/-- **The blend of colors does not depend on their order.** -/
theorem blend_perm {colors colors' : List Text} (h : colors.Perm colors') :
    blend colors = blend colors' := by
  have hread := h.filterMap Rgb.ofText?
  have hlength := h.length_eq
  match colors, colors' with
  | [], [] => rfl
  | [color], [color'] => rw [List.singleton_perm_singleton.1 h]
  | first :: second :: rest, first' :: second' :: rest' =>
    rw [blend_cons_cons, blend_cons_cons]
    -- if some color can be read on the one side, some can be on the other
    cases hcolors : (first :: second :: rest).filterMap Rgb.ofText? with
    | nil =>
      rw [hcolors] at hread
      rw [hread.nil_eq.symm]
      exact leastText_perm h
    | cons c others =>
      cases hcolors' : (first' :: second' :: rest').filterMap Rgb.ofText? with
      | nil =>
        rw [hcolors, hcolors'] at hread
        cases hread.eq_nil
      | cons c' others' =>
        rw [hcolors, hcolors'] at hread
        exact congrArg Rgb.text (Rgb.average_perm hread)

end AssayRules
