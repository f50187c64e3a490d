import AssayRules.Proofs.Occurrences
import AssayRules.Substitution.Search
import Mathlib.Data.List.ReduceOption

/-!
# What a search by places finds

A search by places goes through a text, or through the folded text, from one place to the next, and
leads what it comes upon back to the text. `Glyph.getElem?_origins` says which origin a byte of the
folded text has. With that both ways of searching look for one thing, a key that is spelt by whole
glyphs (`Matching.Spells`), and come upon it in the order in which it stands in the text, though
folding may have moved it (`Matching.Spells.lt_iff`).

So the next occurrence is the first of these that stands alone (`Matching.find?_eq_some_iff`), and
it is the next hit among the spans of the text (`Matching.exists_spans_of_find?`), whatever bytes
the text is made of. Only to say that it has the key of the name itself the text has to be UTF-8
(`Matching.Spells.key_between`).
-/

namespace AssayRules

/-! ### Places in ascending order -/

/-- What is found first in an ascending list is found at the least place of all. -/
theorem findSome?_eq_some_iff_of_pairwise {α : Type} {places : List Nat}
    (hplaces : places.Pairwise (· < ·)) {f : Nat → Option α} {found : α} :
    places.findSome? f = some found ↔
      ∃ place ∈ places, f place = some found ∧
        ∀ other ∈ places, other < place → f other = none := by
  rw [List.findSome?_eq_some_iff]
  -- in an ascending list the first place is the least one
  constructor
  · rintro ⟨front, place, back, rfl, hfound, hfront⟩
    refine ⟨place, by simp, hfound, fun other hother hlt => ?_⟩
    rcases List.mem_append.1 hother with hother | hother
    · exact hfront other hother
    · -- from the place on the list only ascends
      have hback := (List.pairwise_cons.1 (List.pairwise_append.1 hplaces).2.1).1
      rcases List.mem_cons.1 hother with rfl | hother
      · exact absurd hlt (Nat.lt_irrefl _)
      · exact absurd hlt (Nat.lt_asymm (hback other hother))
  · rintro ⟨place, hplace, hfound, hleast⟩
    -- all that stands in front of the place is less
    obtain ⟨front, back, rfl⟩ := List.append_of_mem hplace
    refine ⟨front, place, back, rfl, hfound, fun other hother => ?_⟩
    exact hleast other (List.mem_append_left _ hother)
      ((List.pairwise_append.1 hplaces).2.2 other hother place List.mem_cons_self)

namespace Text

variable {s part : Text} {first place : Nat}

theorem mem_places :
    place ∈ s.places part first ↔ first ≤ place ∧ place ≤ s.length ∧ part <+: s.drop place := by
  rw [places, List.mem_filter, List.mem_range'_1, List.isPrefixOf_iff_prefix, ← and_assoc]
  refine and_congr_left fun _ => ?_
  omega

theorem pairwise_places (s part : Text) (first : Nat) :
    (s.places part first).Pairwise (· < ·) :=
  List.Pairwise.filter _ List.pairwise_lt_range'

theorem between_append (a m b : Text) :
    (a ++ (m ++ b)).between a.length (a.length + m.length) = m := by
  rw [between, List.drop_left, Nat.add_sub_cancel_left, List.take_left]

theorem length_between {start stop : Nat} (hstart : start ≤ stop) (hstop : stop ≤ s.length) :
    (s.between start stop).length = stop - start := by
  rw [between, List.length_take, List.length_drop]
  omega

/-- What stands from a place on is what stands up to a later place and from there on. -/
theorem between_append_drop {start stop : Nat} (s : Text) (h : start ≤ stop) :
    s.between start stop ++ s.drop stop = s.drop start := by
  rw [between, ← Nat.add_sub_cancel' h, ← List.drop_drop, Nat.add_sub_cancel_left,
    List.take_append_drop]

end Text

/-! ### Origins -/

namespace Glyph

variable {glyphs : List Glyph}

/-- There is an origin for each byte of the keys. -/
theorem length_origins (hsolid : ∀ glyph ∈ glyphs, glyph.IsSolid) (place : Nat) :
    (origins place glyphs).length = (glyphs.flatMap key).length := by
  -- a glyph has the origin of its first byte, and none for the others of its key
  induction glyphs generalizing place with
  | nil => rfl
  | cons glyph rest ih =>
    obtain ⟨hglyph, hrest⟩ := List.forall_mem_cons.1 hsolid
    have hpos := List.length_pos_iff.2 hglyph.key_ne_nil
    rw [origins, List.length_cons, List.length_append, List.length_replicate, ih hrest,
      List.flatMap_cons, List.length_append]
    omega

/-- A front of a row is empty, or is the first glyph and a front of the rest. -/
theorem exists_front_cons_iff {glyph : Glyph} {rest : List Glyph} {place i start : Nat} :
    (∃ front behind, glyph :: rest = front ++ behind ∧ (front.flatMap key).length = i ∧
        place + (front.flatMap text).length = start) ↔
      (i = 0 ∧ place = start) ∨ ∃ front behind, rest = front ++ behind ∧
        glyph.key.length + (front.flatMap key).length = i ∧
        place + glyph.text.length + (front.flatMap text).length = start := by
  -- a front that is not empty begins with this glyph, which is then passed over on both sides
  constructor
  · rintro ⟨front, behind, h, rfl, rfl⟩
    rcases List.cons_eq_append_iff.1 h with ⟨rfl, -⟩ | ⟨front, rfl, rfl⟩
    · exact Or.inl ⟨rfl, rfl⟩
    · refine Or.inr ⟨front, behind, rfl, ?_, ?_⟩ <;> rw [List.flatMap_cons, List.length_append]
      rw [Nat.add_assoc]
  · rintro (⟨rfl, rfl⟩ | ⟨front, behind, rfl, rfl, rfl⟩)
    · exact ⟨[], glyph :: rest, rfl, rfl, rfl⟩
    · refine ⟨glyph :: front, behind, rfl, ?_, ?_⟩ <;> rw [List.flatMap_cons, List.length_append]
      rw [Nat.add_assoc]

/-- **A byte of the keys has an origin** exactly if a key begins with it: the place of that
glyph. The end of the keys has the end of the texts. -/
theorem getElem?_origins (hsolid : ∀ glyph ∈ glyphs, glyph.IsSolid) {place i start : Nat} :
    (origins place glyphs ++ [some (place + (glyphs.flatMap text).length)])[i]?
        = some (some start) ↔
      ∃ front behind, glyphs = front ++ behind ∧ (front.flatMap key).length = i ∧
        place + (front.flatMap text).length = start := by
  -- glyph by glyph, with the origins counted from the place that is reached
  induction glyphs generalizing place i with
  | nil =>
    cases i with
    | zero => simp [origins]
    | succ i => simp [origins]
  | cons glyph rest ih =>
    obtain ⟨hglyph, hrest⟩ := List.forall_mem_cons.1 hsolid
    have hpos := List.length_pos_iff.2 hglyph.key_ne_nil
    have hend : place + ((glyph :: rest).flatMap text).length
        = place + glyph.text.length + (rest.flatMap text).length := by
      rw [List.flatMap_cons, List.length_append, Nat.add_assoc]
    rw [exists_front_cons_iff, origins, hend, List.cons_append, List.append_assoc]
    -- the first byte of the key, one that is inside of it, or one behind it
    cases i with
    | zero =>
      rw [List.getElem?_cons_zero, Option.some_inj, Option.some_inj]
      refine ⟨fun h => Or.inl ⟨rfl, h⟩, ?_⟩
      rintro (⟨-, h⟩ | ⟨front, behind, -, h, -⟩)
      · exact h
      · omega
    | succ i =>
      rw [List.getElem?_cons_succ]
      by_cases hlt : i < glyph.key.length - 1
      · -- inside the key
        rw [List.getElem?_append_left (by simpa using hlt), List.getElem?_replicate, if_pos hlt]
        refine ⟨fun h => by simp at h, ?_⟩
        rintro (⟨h, -⟩ | ⟨front, behind, -, h, -⟩) <;> omega
      · rw [List.getElem?_append_right (by simpa using hlt), List.length_replicate, ih hrest]
        constructor
        · rintro ⟨front, behind, rfl, hkey, hstart⟩
          exact Or.inr ⟨front, behind, rfl, by omega, hstart⟩
        · rintro (⟨h, -⟩ | ⟨front, behind, rfl, hkey, hstart⟩)
          · omega
          · exact ⟨front, behind, rfl, by omega, hstart⟩

/-- **The origins ascend**, from the first place on to the end of the texts. -/
theorem pairwise_origins (hsolid : ∀ glyph ∈ glyphs, glyph.IsSolid) (place : Nat) :
    ((origins place glyphs ++ [some (place + (glyphs.flatMap text).length)]).reduceOption).Pairwise
        (· < ·) ∧
      ∀ start ∈ (origins place glyphs
        ++ [some (place + (glyphs.flatMap text).length)]).reduceOption, place ≤ start := by
  -- glyph by glyph, as each origin is at least the place that the next glyph begins from
  induction glyphs generalizing place with
  | nil => simp [origins, List.reduceOption]
  | cons glyph rest ih =>
    obtain ⟨hglyph, hrest⟩ := List.forall_mem_cons.1 hsolid
    have hpos := List.length_pos_iff.2 hglyph.text_ne_nil
    obtain ⟨hpairwise, hle⟩ := ih hrest (place + glyph.text.length)
    rw [List.flatMap_cons, List.length_append, ← Nat.add_assoc, origins, List.cons_append,
      List.append_assoc, List.reduceOption_cons_of_some, List.reduceOption_append,
      List.reduceOption_replicate_none, List.nil_append]
    refine ⟨List.pairwise_cons.2 ⟨fun start hstart => ?_, hpairwise⟩,
      List.forall_mem_cons.2 ⟨Nat.le_refl _, fun start hstart => ?_⟩⟩ <;>
    · have := hle start hstart
      omega

end Glyph

namespace Matching

variable {mode : Matching} {name key s : Text} {first place start stop : Nat}

/-- A row of glyphs of a text is the part of it between the places where it begins and ends. -/
theorem between_of_glyphs {front used behind : List Glyph}
    (hglyphs : mode.glyphs s = front ++ (used ++ behind)) :
    s.between (front.flatMap Glyph.text).length
        ((front.flatMap Glyph.text).length + (used.flatMap Glyph.text).length)
      = used.flatMap Glyph.text := by
  rw [← text_of_glyphs hglyphs, Text.between_append]

/-! ### Keys spelt by glyphs -/

/-- **A key is spelt between two places** of a text, by whole glyphs, of which the keys of those
in front have `place` bytes. -/
def Spells (mode : Matching) (key s : Text) (place start stop : Nat) : Prop :=
  ∃ front used behind, mode.glyphs s = front ++ (used ++ behind) ∧
    used.flatMap Glyph.key = key ∧
    (front.flatMap Glyph.key).length = place ∧
    (front.flatMap Glyph.text).length = start ∧
    start + (used.flatMap Glyph.text).length = stop

/-- What spells a key is a part of the text, and is not empty if the key is not. -/
theorem Spells.bounds (h : mode.Spells key s place start stop) (hkey : key ≠ []) :
    start < stop ∧ stop ≤ s.length := by
  -- what spells a key that is not empty has a glyph, and a glyph has a text
  obtain ⟨front, used, behind, hglyphs, rfl, -, rfl, rfl⟩ := h
  have hne : used ≠ [] := by
    rintro rfl
    exact hkey rfl
  obtain ⟨glyph, rest, rfl⟩ := List.exists_cons_of_ne_nil hne
  have hsolid := isSolid_of_mem_glyphs mode s glyph (by rw [hglyphs]; simp)
  have hpos := List.length_pos_iff.2 hsolid.text_ne_nil
  have hlength := congrArg List.length (text_of_glyphs hglyphs)
  rw [List.length_append, List.length_append] at hlength
  rw [List.flatMap_cons, List.length_append] at hlength ⊢
  omega

/-- A key further on in the keys is spelt further on in the text. -/
theorem Spells.lt_iff {key' : Text} {place' start' stop' : Nat}
    (h : mode.Spells key s place start stop) (h' : mode.Spells key' s place' start' stop') :
    place < place' ↔ start < start' := by
  obtain ⟨front, used, behind, hglyphs, -, rfl, rfl, -⟩ := h
  obtain ⟨front', used', behind', hglyphs', -, rfl, rfl, -⟩ := h'
  refine Glyph.length_key_lt_iff (hglyphs.symm.trans hglyphs') ?_
  rw [← hglyphs]
  exact isSolid_of_mem_glyphs mode s

/-- **What spells a key has that key**, in a text that is made of glyphs. -/
theorem Spells.key_between (h : mode.Spells key s place start stop) (hs : mode.Divides s) :
    mode.key (s.between start stop) = key := by
  obtain ⟨front, used, behind, hglyphs, rfl, -, rfl, rfl⟩ := h
  rw [between_of_glyphs hglyphs]
  -- the glyphs are cut from the text in three parts, of which the one in the middle has the key
  obtain ⟨a, w, rfl, rfl, hrest, -, hw⟩ := hs.exists_of_glyphs_eq hglyphs
  obtain ⟨u, b, rfl, rfl, rfl, hu, -⟩ := hw.exists_of_glyphs_eq hrest.symm
  rw [flatMap_text_glyphs, hu.flatMap_key_glyphs]

/-- Byte by byte, keys have the places of their texts. -/
theorem exact_spells_iff :
    exact.Spells key s place start stop ↔
      place ≤ s.length ∧ key <+: s.drop place ∧ start = place ∧ stop = place + key.length := by
  have hbytes : ∀ t : Text, exact.glyphs t = t.map fun c => ⟨[c], [c]⟩ := fun _ => rfl
  constructor
  · rintro ⟨front, used, behind, hglyphs, rfl, rfl, rfl, rfl⟩
    -- the glyphs of a part of the text are bytes as well
    obtain ⟨a, t, rfl, rfl, htail⟩ := List.map_eq_append_iff.1 ((hbytes s).symm.trans hglyphs)
    obtain ⟨m, b, rfl, rfl, rfl⟩ := List.map_eq_append_iff.1 htail
    simp [List.flatMap_map]
  · rintro ⟨hplace, ⟨behind, hkey⟩, rfl, rfl⟩
    -- three parts of the text make up the three rows of glyphs
    have hkeys : ∀ t : Text, (exact.glyphs t).flatMap Glyph.key = t := fun t => by
      rw [hbytes, List.flatMap_map, List.flatMap_singleton']
    refine ⟨exact.glyphs (s.take start), exact.glyphs key, exact.glyphs behind, ?_, hkeys key, ?_,
      ?_, ?_⟩
    · rw [hbytes, hbytes, hbytes, hbytes, ← List.map_append, ← List.map_append, hkey,
        List.take_append_drop]
    · rw [hkeys, List.length_take_of_le hplace]
    · rw [flatMap_text_glyphs, List.length_take_of_le hplace]
    · rw [flatMap_text_glyphs]

end Matching

/-! ### The folded text -/

namespace FoldedText

variable {s key : Text} {place start stop length : Nat}

theorem range?_eq_some_iff {folded : FoldedText} :
    folded.range? place length = some (start, stop) ↔
      folded.origins[place]? = some (some start) ∧
        folded.origins[place + length]? = some (some stop) := by
  unfold range?
  -- both ends need an origin, and without one of them there is no range
  split
  · rename_i hstart hstop
    rw [hstart, hstop]
    simp
  · rename_i hnone
    constructor
    · intro h
      cases h
    · rintro ⟨hstart, hstop⟩
      exact absurd hstop (hnone start stop hstart)

/-- **There is one origin for each byte**, and one for the end. -/
theorem length_origins_ofText (s : Text) :
    (ofText s).origins.length = (ofText s).text.length + 1 := by
  rw [ofText, List.length_append, List.length_singleton,
    Glyph.length_origins (Matching.isSolid_of_mem_glyphs .folded s)]

theorem origins_ofText (s : Text) :
    (ofText s).origins = Glyph.origins 0 (Matching.folded.glyphs s)
      ++ [some (0 + ((Matching.folded.glyphs s).flatMap Glyph.text).length)] := by
  rw [Matching.flatMap_text_glyphs, Nat.zero_add]
  rfl

/-- **A place in the folded text has an origin** exactly if it lies between characters. -/
theorem getElem?_origins_ofText :
    (ofText s).origins[place]? = some (some start) ↔
      ∃ front behind, Matching.folded.glyphs s = front ++ behind ∧
        (front.flatMap Glyph.key).length = place ∧ (front.flatMap Glyph.text).length = start := by
  rw [origins_ofText, Glyph.getElem?_origins (Matching.isSolid_of_mem_glyphs .folded s)]
  simp only [Nat.zero_add]

/-- A row of glyphs of the text is a row of characters. -/
theorem exists_glyphs_iff :
    (∃ front behind, Matching.folded.glyphs s = front ++ behind ∧
        (front.flatMap Glyph.key).length = place ∧ (front.flatMap Glyph.text).length = start) ↔
      ∃ front behind, s.characters = front ++ behind ∧
        (front.flatMap Text.foldCase).length = place ∧ front.flatten.length = start := by
  constructor
  · rintro ⟨front, behind, hglyphs, rfl, rfl⟩
    obtain ⟨characters, rest, hcut, rfl, rfl⟩ := List.map_eq_append_iff.1 hglyphs
    exact ⟨characters, rest, hcut, by rw [List.flatMap_map], by
      rw [List.flatMap_map, List.flatMap_id']⟩
  · rintro ⟨front, behind, hcut, rfl, rfl⟩
    refine ⟨front.map fun character => ⟨character, character.foldCase⟩,
      behind.map fun character => ⟨character, character.foldCase⟩, ?_, ?_, ?_⟩
    · rw [Matching.glyphs, hcut, List.map_append]
    · rw [List.flatMap_map]
    · rw [List.flatMap_map, List.flatMap_id']

/-- **What the folded text holds between two places with an origin** is spelt in the text. -/
theorem spells_iff :
    place ∈ (ofText s).text.places key 0 ∧ (ofText s).range? place key.length = some (start, stop) ↔
      Matching.folded.Spells key s place start stop := by
  have htext : (ofText s).text = (Matching.folded.glyphs s).flatMap Glyph.key := rfl
  -- a place among the keys, with an origin at both ends of what is found there
  rw [Text.mem_places, range?_eq_some_iff, getElem?_origins_ofText, getElem?_origins_ofText, htext]
  constructor
  · rintro ⟨⟨-, -, hprefix⟩, ⟨front, rest, hglyphs, rfl, rfl⟩, front', behind, hglyphs', hplace,
      rfl⟩
    -- the front that ends with the key is the longer one
    obtain ⟨used, rfl, rfl⟩ := Glyph.exists_of_length_le Glyph.key
      (hglyphs.symm.trans hglyphs')
      (fun glyph hglyph =>
        (Matching.isSolid_of_mem_glyphs .folded s glyph (hglyphs ▸ hglyph)).key_ne_nil)
      (by omega)
    rw [List.flatMap_append, List.length_append] at hplace
    rw [hglyphs, List.flatMap_append, List.drop_left, List.flatMap_append] at hprefix
    refine ⟨front, used, behind, hglyphs, ?_, rfl, rfl, ?_⟩
    · refine (List.IsPrefix.eq_of_length ?_ (by omega)).symm
      exact List.prefix_of_prefix_length_le hprefix (List.prefix_append _ _) (by omega)
    · rw [List.flatMap_append, List.length_append]
  · -- the places are those of the fronts, and what is spelt stands at the first of them
    rintro ⟨front, used, behind, hglyphs, rfl, rfl, rfl, rfl⟩
    refine ⟨⟨Nat.zero_le _, ?_, ?_⟩, ⟨front, used ++ behind, hglyphs, rfl, rfl⟩,
      front ++ used, behind, by rw [hglyphs, List.append_assoc], ?_, ?_⟩
    · rw [hglyphs, List.flatMap_append, List.length_append]
      exact Nat.le_add_right _ _
    · rw [hglyphs, List.flatMap_append, List.drop_left, List.flatMap_append]
      exact List.prefix_append _ _
    all_goals rw [List.flatMap_append, List.length_append]

end FoldedText

/-! ### The next occurrence -/

namespace Matching

variable {mode : Matching} {name s : Text} {first start stop : Nat}

/-- **An occurrence between two places**: the key of the name is spelt there and the name would
stand alone. -/
structure OccursAt (mode : Matching) (name s : Text) (place start stop : Nat) : Prop where
  spells : mode.Spells (mode.key name) s place start stop
  alone : s.isAloneAt name start stop = true

/-- **What a search goes through** are places in ascending order, and it stops at the first at
which there is an occurrence that does not begin too early. -/
theorem exists_find?_eq (mode : Matching) (name s : Text) (first : Nat) :
    ∃ (places : List Nat) (hit? : Nat → Option (Nat × Nat)),
      mode.find? name s first = places.findSome? hit? ∧ places.Pairwise (· < ·) ∧
      ∀ place start stop, (place ∈ places ∧ hit? place = some (start, stop)) ↔
        mode.OccursAt name s place start stop ∧ first ≤ start := by
  -- the one search goes over the text itself, and the other over the folded one
  cases mode with
  | exact =>
    refine ⟨_, _, rfl, Text.pairwise_places s name first, fun place start stop => ?_⟩
    rw [Text.mem_places, Option.ite_none_right_eq_some, Option.some_inj, Prod.mk.injEq]
    constructor
    · rintro ⟨⟨hfirst, hplace, hprefix⟩, halone, rfl, rfl⟩
      exact ⟨⟨exact_spells_iff.2 ⟨hplace, hprefix, rfl, rfl⟩, halone⟩, hfirst⟩
    · rintro ⟨⟨hspells, halone⟩, hfirst⟩
      obtain ⟨hplace, hprefix, rfl, rfl⟩ := exact_spells_iff.1 hspells
      exact ⟨⟨hfirst, hplace, hprefix⟩, halone, rfl, rfl⟩
  | folded =>
    refine ⟨_, _, rfl, Text.pairwise_places _ _ 0, fun place start stop => ?_⟩
    rw [Option.filter_eq_some_iff, ← and_assoc, FoldedText.spells_iff, Bool.and_eq_true,
      decide_eq_true_eq]
    exact ⟨fun ⟨hspells, hfirst, halone⟩ => ⟨⟨hspells, halone⟩, hfirst⟩,
      fun ⟨hoccurs, hfirst⟩ => ⟨hoccurs.spells, hfirst, hoccurs.alone⟩⟩

/-- **What is found is the first occurrence** from a place on. -/
theorem find?_eq_some_iff :
    mode.find? name s first = some (start, stop) ↔
      ∃ place, mode.OccursAt name s place start stop ∧ first ≤ start ∧
        ∀ place' start' stop', mode.OccursAt name s place' start' stop' → first ≤ start' →
          start ≤ start' := by
  -- what both searches share is all that is used of them
  obtain ⟨places, hit?, hfind, hpairwise, hhit⟩ := exists_find?_eq mode name s first
  rw [hfind, findSome?_eq_some_iff_of_pairwise hpairwise]
  constructor
  · rintro ⟨place, hplace, hfound, hleast⟩
    obtain ⟨hoccurs, hfirst⟩ := (hhit place start stop).1 ⟨hplace, hfound⟩
    refine ⟨place, hoccurs, hfirst, fun place' start' stop' hoccurs' hfirst' => ?_⟩
    obtain ⟨hplace', hfound'⟩ := (hhit place' start' stop').2 ⟨hoccurs', hfirst'⟩
    -- another one that begins earlier would have been found first
    by_contra hlt
    have hnone := hleast place' hplace'
      ((hoccurs'.spells.lt_iff hoccurs.spells).2 (Nat.lt_of_not_le hlt))
    rw [hfound'] at hnone
    cases hnone
  · rintro ⟨place, hoccurs, hfirst, hleast⟩
    obtain ⟨hplace, hfound⟩ := (hhit place start stop).2 ⟨hoccurs, hfirst⟩
    refine ⟨place, hplace, hfound, fun place' hplace' hlt => ?_⟩
    by_contra hsome
    obtain ⟨⟨start', stop'⟩, hfound'⟩ := Option.ne_none_iff_exists'.1 hsome
    obtain ⟨hoccurs', hfirst'⟩ := (hhit place' start' stop').1 ⟨hplace', hfound'⟩
    have hle := hleast place' start' stop' hoccurs' hfirst'
    have hlt' := (hoccurs'.spells.lt_iff hoccurs.spells).1 hlt
    omega

/-- Nothing is found if no occurrence begins from a place on. -/
theorem find?_eq_none_iff :
    mode.find? name s first = none ↔
      ∀ place start stop, mode.OccursAt name s place start stop → start < first := by
  obtain ⟨places, hit?, hfind, -, hhit⟩ := exists_find?_eq mode name s first
  rw [hfind, List.findSome?_eq_none_iff]
  -- none is found from the first place on, so that any there is begins in front of it
  constructor
  · intro hnone place start stop hoccurs
    by_contra hlt
    obtain ⟨hplace, hfound⟩ := (hhit place start stop).2 ⟨hoccurs, Nat.le_of_not_lt hlt⟩
    rw [hnone place hplace] at hfound
    cases hfound
  · intro hearly place hplace
    by_contra hsome
    obtain ⟨⟨start, stop⟩, hfound⟩ := Option.ne_none_iff_exists'.1 hsome
    obtain ⟨hoccurs, hfirst⟩ := (hhit place start stop).1 ⟨hplace, hfound⟩
    have hlt := hearly place start stop hoccurs
    omega

/-- **What a search finds** lies from the given place on inside the text, is not empty, would
stand alone, and has the key of the name, if the text is made of glyphs. -/
theorem find?_spec (hname : name ≠ []) (h : mode.find? name s first = some (start, stop)) :
    first ≤ start ∧ start < stop ∧ stop ≤ s.length ∧ s.isAloneAt name start stop = true ∧
      (mode.Divides s → mode.key (s.between start stop) = mode.key name) := by
  obtain ⟨place, hoccurs, hfirst, -⟩ := find?_eq_some_iff.1 h
  obtain ⟨hlt, hle⟩ := hoccurs.spells.bounds (key_ne_nil mode hname)
  exact ⟨hfirst, hlt, hle, hoccurs.alone, hoccurs.spells.key_between⟩

/-! ### The next hit -/

/-- **What is found at a place between glyphs** is an occurrence there. -/
theorem front?_eq_some_iff {front behind used after : List Glyph}
    (hglyphs : mode.glyphs s = front ++ behind) :
    Target.front? ⟨name, mode.key name⟩ (front.flatMap Glyph.text).getLast? behind
        = some (used, after) ↔
      used ≠ [] ∧ behind = used ++ after ∧ used.flatMap Glyph.key = mode.key name ∧
        s.isAloneAt name (front.flatMap Glyph.text).length
          ((front.flatMap Glyph.text).length + (used.flatMap Glyph.text).length) = true := by
  have hsolid : ∀ glyph ∈ behind, glyph.IsSolid := fun glyph hglyph =>
    isSolid_of_mem_glyphs mode s glyph (hglyphs ▸ List.mem_append_right _ hglyph)
  rw [Target.front?_eq_some_iff hsolid]
  refine and_congr_right fun _ => and_congr_right fun happend => and_congr_right fun _ => ?_
  -- whether the name would stand alone is read off the glyphs around it
  rw [happend] at hglyphs
  rw [← text_of_glyphs hglyphs, Text.isAloneAt, List.take_left, ← List.append_assoc,
    ← List.length_append, List.drop_left]

/-- **Glyphs in front of the next occurrence** are taken off as plain. -/
theorem spans_append_of_not_occursAt {front plain rest : List Glyph}
    (hglyphs : mode.glyphs s = front ++ (plain ++ rest))
    (hnot : ∀ place start stop, mode.OccursAt name s place start stop →
      (front.flatMap Glyph.text).length ≤ start →
        ((front ++ plain).flatMap Glyph.text).length ≤ start) :
    Target.spans ⟨name, mode.key name⟩ (front.flatMap Glyph.text).getLast? (plain ++ rest)
      = plain.map (fun glyph => .plain glyph.text)
        ++ Target.spans ⟨name, mode.key name⟩ ((front ++ plain).flatMap Glyph.text).getLast?
          rest := by
  have hsolid : ∀ glyph ∈ plain, glyph.IsSolid := fun glyph hglyph =>
    isSolid_of_mem_glyphs mode s glyph
      (hglyphs ▸ List.mem_append_right _ (List.mem_append_left _ hglyph))
  have hlast : ∀ a : List Glyph, (a.flatMap Glyph.text).getLast?.or
      (front.flatMap Glyph.text).getLast? = ((front ++ a).flatMap Glyph.text).getLast? := by
    intro a
    rw [List.flatMap_append, List.getLast?_append]
  -- no glyph on the way may begin an occurrence
  rw [Target.spans_append hsolid, hlast]
  rintro a b rfl hne
  rw [hlast]
  by_contra hsome
  obtain ⟨⟨used, after⟩, hfront⟩ := Option.ne_none_iff_exists'.1 hsome
  have hsplit : mode.glyphs s = front ++ a ++ (b ++ rest) := by
    rw [hglyphs, List.append_assoc, List.append_assoc]
  obtain ⟨-, happend, hkey, halone⟩ := (front?_eq_some_iff hsplit).1 hfront
  -- an occurrence in front of the last plain glyph would be too early
  have hle : (front.flatMap Glyph.text).length ≤ ((front ++ a).flatMap Glyph.text).length := by
    rw [List.flatMap_append, List.length_append]
    exact Nat.le_add_right _ _
  have hlate := hnot _ _ _
    ⟨⟨front ++ a, used, after, happend ▸ hsplit, hkey, rfl, rfl, rfl⟩, halone⟩ hle
  obtain ⟨glyph, b, rfl⟩ := List.exists_cons_of_ne_nil hne
  have hpos := List.length_pos_iff.2
    (hsolid glyph (List.mem_append_right _ List.mem_cons_self)).text_ne_nil
  rw [← List.append_assoc, List.flatMap_append, List.length_append, List.flatMap_cons,
    List.length_append] at hlate
  omega

/-- **If nothing is found**, all that is left is plain. -/
theorem spans_of_find?_eq_none {front behind : List Glyph}
    (hglyphs : mode.glyphs s = front ++ behind)
    (hfind : mode.find? name s (front.flatMap Glyph.text).length = none) :
    Target.spans ⟨name, mode.key name⟩ (front.flatMap Glyph.text).getLast? behind
      = behind.map fun glyph => .plain glyph.text := by
  have hplain : mode.glyphs s = front ++ (behind ++ []) := by rw [hglyphs, List.append_nil]
  have hearly := find?_eq_none_iff.1 hfind
  have hspans := spans_append_of_not_occursAt hplain fun place start stop hoccurs hle =>
    absurd (hearly place start stop hoccurs) (Nat.not_lt.2 hle)
  rwa [Target.spans_nil, List.append_nil, List.append_nil] at hspans

/-- **If something is found**, it is the next hit, and what stands in front of it is plain. -/
theorem exists_spans_of_find? (hname : name ≠ []) {front behind : List Glyph}
    (hglyphs : mode.glyphs s = front ++ behind)
    (hfind : mode.find? name s (front.flatMap Glyph.text).length = some (start, stop)) :
    ∃ plain used after, behind = plain ++ (used ++ after) ∧
      ((front ++ plain).flatMap Glyph.text).length = start ∧
      start + (used.flatMap Glyph.text).length = stop ∧
      Target.spans ⟨name, mode.key name⟩ (front.flatMap Glyph.text).getLast? behind
        = plain.map (fun glyph => .plain glyph.text) ++ .hit (used.flatMap Glyph.text)
          :: Target.spans ⟨name, mode.key name⟩
            ((front ++ plain ++ used).flatMap Glyph.text).getLast? after := by
  obtain ⟨-, hlt, -⟩ := find?_spec hname hfind
  obtain ⟨place, ⟨⟨front', used, after, hglyphs', hkey, -, rfl, rfl⟩, halone⟩, hle, hleast⟩ :=
    find?_eq_some_iff.1 hfind
  -- the occurrence stands behind the front, with nothing but plain glyphs in between
  obtain ⟨plain, rfl, rfl⟩ := Glyph.exists_of_length_le Glyph.text (hglyphs.symm.trans hglyphs')
    (fun glyph hglyph => (isSolid_of_mem_glyphs mode s glyph (hglyphs ▸ hglyph)).text_ne_nil) hle
  have hused : used.flatMap Glyph.text ≠ [] := List.ne_nil_of_length_pos (by omega)
  have hne : used ≠ [] := by
    rintro rfl
    exact hused rfl
  -- so the walk over the glyphs finds it there, too
  have hfront := (front?_eq_some_iff hglyphs').2 ⟨hne, rfl, hkey, halone⟩
  refine ⟨plain, used, after, rfl, rfl, rfl, ?_⟩
  rw [spans_append_of_not_occursAt hglyphs hleast, Target.spans_eq_cons_hit hfront,
    List.flatMap_append, List.getLast?_append_of_ne_nil _ hused]

/-- **From the front of a text on** the first hit among its spans is found. -/
theorem find?_zero_spec (mode : Matching) (hname : name ≠ []) (s : Text) :
    (mode.find? name s 0 = none → ∀ u, .hit u ∉ mode.spans name s) ∧
      ∀ start stop, mode.find? name s 0 = some (start, stop) →
        ∃ (front : List Text) (u : Text) (back : List Span),
          mode.spans name s = front.map Span.plain ++ .hit u :: back ∧
            front.flatten.length = start ∧ start + u.length = stop := by
  have hglyphs : mode.glyphs s = [] ++ mode.glyphs s := rfl
  refine ⟨fun hfind u hmem => ?_, fun start stop hfind => ?_⟩
  · have hspans : mode.spans name s = (mode.glyphs s).map fun glyph => .plain glyph.text :=
      spans_of_find?_eq_none hglyphs hfind
    rw [hspans] at hmem
    obtain ⟨glyph, -, hplain⟩ := List.mem_map.1 hmem
    cases hplain
  · obtain ⟨plain, used, after, -, hstart, hstop, hspans⟩ :=
      exists_spans_of_find? hname hglyphs hfind
    have htexts : plain.map (fun glyph => Span.plain glyph.text)
        = (plain.map Glyph.text).map Span.plain := by rw [List.map_map]; rfl
    rw [htexts] at hspans
    exact ⟨_, _, _, hspans, hstart, hstop⟩

end Matching

/-! ### Leading a folded text back -/

namespace FoldedText

/-- **The origins lead a folded text back to the text.** There is one for each byte and one more
for the end, those that are places ascend, and they stand where the folding of a character begins.
So a search finds both ends of whatever it comes upon, and what it finds is a part of the text
that is not empty; from the front of the text on it is the first hit there is. If the text is
UTF-8, this is a search in its folding, for parts with the folding of the name. -/
theorem origins_lead_back (s : Text) :
    ((ofText s).origins.length = (ofText s).text.length + 1 ∧
      (ofText s).origins.getLast? = some (some s.length) ∧
      (ofText s).origins.reduceOption.Pairwise (· < ·) ∧
      ∀ place start, (ofText s).origins[place]? = some (some start) ↔
        ∃ front behind, s.characters = front ++ behind ∧
          (front.flatMap Text.foldCase).length = place ∧ front.flatten.length = start) ∧
    (∀ name : Text, name ≠ [] →
      (∀ place ∈ (ofText s).text.places name.foldCase 0,
        place + name.foldCase.length < (ofText s).origins.length) ∧
      (∀ first start stop, Matching.folded.find? name s first = some (start, stop) →
        first ≤ start ∧ start < stop ∧ stop ≤ s.length) ∧
      (Matching.folded.find? name s 0 = none → ∀ u, .hit u ∉ Matching.folded.spans name s) ∧
      ∀ start stop, Matching.folded.find? name s 0 = some (start, stop) →
        ∃ (front : List Text) (u : Text) (back : List Span),
          Matching.folded.spans name s = front.map Span.plain ++ .hit u :: back ∧
            front.flatten.length = start ∧ start + u.length = stop) ∧
    (s.IsUtf8 →
      (ofText s).text = s.foldCase ∧
      ∀ name : Text, name ≠ [] → ∀ first start stop,
        Matching.folded.find? name s first = some (start, stop) →
          (s.between start stop).foldCase = name.foldCase) := by
  have hsolid := Matching.isSolid_of_mem_glyphs .folded s
  -- one origin for each byte and in ascending order, then the bounds, and the fold for what is
  -- UTF-8
  refine ⟨⟨length_origins_ofText s, ?_, ?_, fun place start => ?_⟩, fun name hname =>
    ⟨fun place hplace => ?_, fun first start stop hfind => ?_,
      Matching.find?_zero_spec .folded hname s⟩, fun hs => ⟨?_, ?_⟩⟩
  · rw [ofText, List.getLast?_concat]
  · rw [origins_ofText]
    exact (Glyph.pairwise_origins hsolid 0).1
  · rw [getElem?_origins_ofText]
    exact exists_glyphs_iff
  · obtain ⟨-, hle, hprefix⟩ := Text.mem_places.1 hplace
    have hlength := hprefix.length_le
    rw [List.length_drop] at hlength
    rw [length_origins_ofText]
    omega
  · obtain ⟨hfirst, hlt, hle, -⟩ := Matching.find?_spec hname hfind
    exact ⟨hfirst, hlt, hle⟩
  · exact Matching.Divides.flatMap_key_glyphs hs
  · intro name hname first start stop hfind
    obtain ⟨-, -, -, -, hkey⟩ := Matching.find?_spec hname hfind
    exact hkey hs

/-- A capital of two bytes that is folded to one. -/
theorem origins_lead_back_of_dotted_capital :
    (utf8 "2*İYOT").IsUtf8 ∧ utf8 "iyot" ≠ [] ∧
      (ofText (utf8 "2*İYOT")).text = (utf8 "2*İYOT").foldCase ∧
      (ofText (utf8 "2*İYOT")).origins = [some 0, some 1, some 2, some 4, some 5, some 6, some 7] ∧
      Matching.folded.find? (utf8 "iyot") (utf8 "2*İYOT") 1 = some (2, 7) ∧
      ((utf8 "2*İYOT").between 2 7).foldCase = (utf8 "iyot").foldCase := by
  have hfind : Matching.folded.find? (utf8 "iyot") (utf8 "2*İYOT") 1 = some (2, 7) := by
    decide +kernel
  have hname : utf8 "iyot" ≠ [] := by decide
  have hs : (utf8 "2*İYOT").IsUtf8 := ⟨_, rfl⟩
  obtain ⟨htext, hfold⟩ := (origins_lead_back (utf8 "2*İYOT")).2.2 hs
  exact ⟨hs, hname, htext, by decide +kernel, hfind, hfold _ hname 1 2 7 hfind⟩

end FoldedText

end AssayRules
