import AssayRules.Proofs.Characters
import AssayRules.Substitution.Occurrence

/-!
# Rows of glyphs

A search goes over glyphs and does not ask what text they were cut from, nor whether that text was
UTF-8. All it needs is that they are **solid**, without an empty text or an empty key
(`Glyph.IsSolid`), as the glyphs of any text are (`Matching.isSolid_of_mem_glyphs`).

Then the fronts of a row are told apart by the length of their texts, and as well by the length of
their keys, and both lengths put them in the same order (`Glyph.length_key_lt_iff`). What is found
at the front of a row is the one front with the key (`Target.front?_eq_some_iff`), and a row is cut
into spans by taking off such a front (`Target.spans_eq_cons_hit`), or glyphs at which there is
none (`Target.spans_append`).
-/

namespace AssayRules

/-- Behind a part that is not empty, what stands before is the end of that. -/
theorem Text.getLast?_append_or {u : Text} (hne : u ≠ []) (a : Text) (before : Option UInt8) :
    (u ++ a).getLast?.or before = a.getLast?.or u.getLast? := by
  rw [List.getLast?_append, Option.or_assoc,
    Option.or_of_isSome (List.getLast?_isSome.2 hne)]

namespace Glyph

/-- **A solid glyph** has some text and some key. -/
structure IsSolid (glyph : Glyph) : Prop where
  text_ne_nil : glyph.text ≠ []
  key_ne_nil : glyph.key ≠ []

variable {glyphs : List Glyph}

/-- Of two fronts of one row the shorter one is a front of the other, whatever is measured of
each glyph, as long as it is not empty. -/
theorem exists_of_length_le (measure : Glyph → Text) {a b a' b' : List Glyph}
    (h : a ++ b = a' ++ b') (hne : ∀ glyph ∈ a ++ b, measure glyph ≠ [])
    (hle : (a.flatMap measure).length ≤ (a'.flatMap measure).length) :
    ∃ m, a' = a ++ m ∧ b = m ++ b' := by
  -- one front goes beyond the other by whole glyphs, and the shorter one is the first
  rcases List.append_eq_append_iff.1 h with ⟨m, ha, hb⟩ | ⟨m, rfl, hb⟩
  · exact ⟨m, ha, hb⟩
  · rw [List.flatMap_append, List.length_append] at hle
    have hnil : m.flatMap measure = [] := List.length_eq_zero_iff.1 (by omega)
    have hm : m = [] := by
      refine List.eq_nil_iff_forall_not_mem.2 fun glyph hglyph => ?_
      refine hne glyph ?_ (List.flatMap_eq_nil_iff.1 hnil glyph hglyph)
      exact List.mem_append_left _ (List.mem_append_right _ hglyph)
    subst hm
    exact ⟨[], by simp, by simpa using hb.symm⟩

/-- **Keys and texts put fronts of one row in the same order.** -/
theorem length_key_le_iff {a b a' b' : List Glyph} (h : a ++ b = a' ++ b')
    (hsolid : ∀ glyph ∈ a ++ b, glyph.IsSolid) :
    (a.flatMap key).length ≤ (a'.flatMap key).length ↔
      (a.flatMap text).length ≤ (a'.flatMap text).length := by
  -- each length tells which front goes beyond the other, as every glyph adds to both
  constructor
  · intro hle
    obtain ⟨m, rfl, -⟩ :=
      exists_of_length_le key h (fun glyph hglyph => (hsolid glyph hglyph).key_ne_nil) hle
    rw [List.flatMap_append, List.length_append]
    exact Nat.le_add_right _ _
  · intro hle
    obtain ⟨m, rfl, -⟩ :=
      exists_of_length_le text h (fun glyph hglyph => (hsolid glyph hglyph).text_ne_nil) hle
    rw [List.flatMap_append, List.length_append]
    exact Nat.le_add_right _ _

theorem length_key_lt_iff {a b a' b' : List Glyph} (h : a ++ b = a' ++ b')
    (hsolid : ∀ glyph ∈ a ++ b, glyph.IsSolid) :
    (a.flatMap key).length < (a'.flatMap key).length ↔
      (a.flatMap text).length < (a'.flatMap text).length := by
  rw [← Nat.not_le, ← Nat.not_le, length_key_le_iff h.symm (h ▸ hsolid)]

/-- A row of solid glyphs begins with the text of the first. -/
theorem head?_flatMap_text (hsolid : ∀ glyph ∈ glyphs, glyph.IsSolid) :
    (glyphs.head?.bind fun glyph => glyph.text.head?) = (glyphs.flatMap text).head? := by
  cases glyphs with
  | nil => rfl
  | cons glyph rest =>
    have hne := (hsolid glyph List.mem_cons_self).text_ne_nil
    rw [List.flatMap_cons, List.head?_append_of_ne_nil _ hne]
    rfl

end Glyph

/-! ### Taking glyphs off -/

variable {target : Target} {before : Option UInt8} {glyphs used after : List Glyph}

/-- **What spells a key** is a front of the glyphs with that key. -/
theorem spell?_eq_some_iff {key : Text} (hsolid : ∀ glyph ∈ glyphs, glyph.IsSolid) :
    spell? key glyphs = some (used, after) ↔
      glyphs = used ++ after ∧ used.flatMap Glyph.key = key := by
  -- along the spelling, which takes glyph by glyph off the key
  fun_induction spell? key glyphs generalizing used with
  | case1 glyphs =>
    rw [Option.some_inj, Prod.mk.injEq]
    constructor
    · rintro ⟨rfl, rfl⟩
      exact ⟨rfl, rfl⟩
    · rintro ⟨rfl, hkey⟩
      -- a solid glyph has some key
      cases used with
      | nil => exact ⟨rfl, rfl⟩
      | cons glyph rest =>
        have hne := (hsolid glyph List.mem_cons_self).key_ne_nil
        exact absurd (List.flatMap_eq_nil_iff.1 hkey glyph List.mem_cons_self) hne
  | case2 c rest =>
    constructor
    · intro h
      cases h
    · rintro ⟨hnil, hkey⟩
      rw [(List.append_eq_nil_iff.1 hnil.symm).1] at hkey
      cases hkey
  -- the glyph is used for the front of the key, and the others for what is left of it
  | case3 c rest glyph glyphs hprefix ih =>
    obtain ⟨hglyph, hrest⟩ := List.forall_mem_cons.1 hsolid
    have hkey := List.prefix_iff_eq_append.1 (List.isPrefixOf_iff_prefix.1 hprefix)
    rw [Option.map_eq_some_iff]
    constructor
    · rintro ⟨⟨used', after'⟩, hspell, heq⟩
      obtain ⟨rfl, rfl⟩ := Prod.mk.inj heq
      obtain ⟨rfl, hused⟩ := (ih hrest).1 hspell
      exact ⟨rfl, by rw [List.flatMap_cons, hused, hkey]⟩
    · rintro ⟨happend, hused⟩
      cases used with
      | nil => cases hused
      | cons first used =>
        obtain ⟨rfl, rfl⟩ := List.cons.inj happend
        rw [List.flatMap_cons, ← hkey] at hused
        exact ⟨(used, after), (ih hrest).2 ⟨rfl, List.append_cancel_left hused⟩, rfl⟩
  -- the key goes on otherwise, so that no row of glyphs with this one in front spells it
  | case4 c rest glyph glyphs hprefix =>
    constructor
    · intro h
      cases h
    · rintro ⟨happend, hused⟩
      cases used with
      | nil => cases hused
      | cons first used =>
        obtain ⟨rfl, rfl⟩ := List.cons.inj happend
        refine absurd (List.isPrefixOf_iff_prefix.2 ?_) hprefix
        rw [← hused, List.flatMap_cons]
        exact List.prefix_append _ _

namespace Target

/-- **An occurrence at the front** is the front of the glyphs with the key, if it is not empty and
the name stands alone there. -/
theorem front?_eq_some_iff (hsolid : ∀ glyph ∈ glyphs, glyph.IsSolid) :
    target.front? before glyphs = some (used, after) ↔
      used ≠ [] ∧ glyphs = used ++ after ∧ used.flatMap Glyph.key = target.key ∧
        standsAlone target.name before (after.flatMap Glyph.text).head? = true := by
  -- first what the code asks, which is the glyph behind and not the text behind
  have hspell : target.front? before glyphs = some (used, after) ↔
      used ≠ [] ∧ spell? target.key glyphs = some (used, after) ∧
        standsAlone target.name before (after.head?.bind fun next => next.text.head?) = true := by
    unfold front?
    split
    · rename_i glyph used' after' hspell
      rw [Option.ite_none_right_eq_some, Option.some_inj, hspell, Option.some_inj]
      constructor
      · rintro ⟨halone, heq⟩
        obtain ⟨rfl, rfl⟩ := Prod.mk.inj heq
        exact ⟨List.cons_ne_nil _ _, rfl, halone⟩
      · rintro ⟨-, heq, halone⟩
        obtain ⟨rfl, rfl⟩ := Prod.mk.inj heq
        exact ⟨halone, rfl⟩
    · rename_i hnot
      constructor
      · intro h
        cases h
      · rintro ⟨hne, hspell, -⟩
        obtain ⟨glyph, used, rfl⟩ := List.exists_cons_of_ne_nil hne
        exact absurd hspell (hnot glyph used after)
  rw [hspell, spell?_eq_some_iff hsolid, and_assoc]
  refine and_congr_right fun _ => and_congr_right fun happend => ?_
  rw [Glyph.head?_flatMap_text fun glyph hglyph =>
    hsolid glyph (happend ▸ List.mem_append_right _ hglyph)]

/-- **An occurrence at the front** is taken off as a whole. -/
theorem spans_eq_cons_hit (h : target.front? before glyphs = some (used, after)) :
    target.spans before glyphs = .hit (used.flatMap Glyph.text)
      :: target.spans (used.flatMap Glyph.text).getLast? after := by
  cases glyphs with
  | nil =>
    obtain ⟨happend, hne⟩ := append_of_front?_eq_some h
    exact absurd (List.append_eq_nil_iff.1 happend).1 hne
  | cons glyph rest =>
    rw [spans]
    -- what is found in front is found once, so that it is what was asked for
    split
    · rename_i used' after' hsome
      obtain ⟨rfl, rfl⟩ := Prod.mk.inj (Option.some.inj (h.symm.trans hsome))
      rfl
    · rename_i hnone
      rw [hnone] at h
      cases h

/-- A glyph at which nothing is found is taken off as plain. -/
theorem spans_eq_cons_plain {glyph : Glyph} {rest : List Glyph}
    (h : target.front? before (glyph :: rest) = none) :
    target.spans before (glyph :: rest)
      = .plain glyph.text :: target.spans glyph.text.getLast? rest := by
  rw [spans]
  split
  · rename_i used after hsome
    rw [hsome] at h
    cases h
  · rfl

/-- **Glyphs at which nothing is found** are taken off as plain. -/
theorem spans_append {plain rest : List Glyph} (hsolid : ∀ glyph ∈ plain, glyph.IsSolid)
    (hnone : ∀ a b, plain = a ++ b → b ≠ [] →
      target.front? ((a.flatMap Glyph.text).getLast?.or before) (b ++ rest) = none) :
    target.spans before (plain ++ rest)
      = plain.map (fun glyph => .plain glyph.text)
        ++ target.spans ((plain.flatMap Glyph.text).getLast?.or before) rest := by
  -- glyph by glyph, where the one in front becomes what stands before the others
  induction plain generalizing before with
  | nil => rfl
  | cons glyph plain ih =>
    obtain ⟨hglyph, hplain⟩ := List.forall_mem_cons.1 hsolid
    have hfirst : target.front? before (glyph :: (plain ++ rest)) = none :=
      hnone [] (glyph :: plain) rfl (List.cons_ne_nil _ _)
    rw [List.cons_append, spans_eq_cons_plain hfirst, ih hplain, List.flatMap_cons,
      Text.getLast?_append_or hglyph.text_ne_nil, List.map_cons, List.cons_append]
    intro a b hab hne
    have hnext := hnone (glyph :: a) b (by rw [hab, List.cons_append]) hne
    rwa [List.flatMap_cons, Text.getLast?_append_or hglyph.text_ne_nil] at hnext

end Target

/-! ### The glyphs of a text -/

namespace Matching

variable {mode : Matching} {s : Text}

/-- **The glyphs of any text are solid.** -/
theorem isSolid_of_mem_glyphs (mode : Matching) (s : Text) :
    ∀ glyph ∈ mode.glyphs s, glyph.IsSolid := by
  cases mode with
  | exact =>
    rw [glyphs, List.forall_mem_map]
    exact fun c _ => ⟨List.cons_ne_nil _ _, List.cons_ne_nil _ _⟩
  | folded =>
    rw [glyphs, List.forall_mem_map]
    intro character hcharacter
    have hne := Text.ne_nil_of_mem_characters hcharacter
    exact ⟨hne, Text.foldCase_ne_nil hne⟩

theorem key_ne_nil (mode : Matching) (hne : s ≠ []) : mode.key s ≠ [] := by
  cases mode with
  | exact => exact hne
  | folded => exact Text.foldCase_ne_nil hne

/-- A row of glyphs of a text is a part of the text. -/
theorem text_of_glyphs {front used behind : List Glyph}
    (hglyphs : mode.glyphs s = front ++ (used ++ behind)) :
    front.flatMap Glyph.text ++ (used.flatMap Glyph.text ++ behind.flatMap Glyph.text) = s := by
  rw [← List.flatMap_append, ← List.flatMap_append, ← hglyphs, flatMap_text_glyphs]

end Matching

end AssayRules
