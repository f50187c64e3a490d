import AssayRules.Marking.Cell
import AssayRules.Proofs.Characters
import Mathlib.Data.List.Induction
import Mathlib.Data.List.Nodup
import Mathlib.Tactic.Common

/-!
# How marks come together in cells

A cell keeps, of all that is said about it, the first detail of each rule: erasing repeats
keeps the first element of each key (`mem_eraseDupsBy_iff`), and so a detail is in a cell if
it is the first one of its rule there (`mem_details_gather`). Where two marks on one cell by
one rule say the same, nothing is lost (`exists_mem_gather`).

The same cells come about one mark at a time (`gather_eq_foldl_collect`). A mark on a cell
that is there already adds its detail if the rule is new to the cell; a mark on any other
place adds a cell at the end. The cell is looked up by one text, the label of its row with the
name of its column on the next line. No label of a row has a line feed, so two places never
have the same text, whatever a column is called (`placeText_injective`).
-/

namespace AssayRules

/-! ### Erasing repeats -/

/-- **Induction on what is left when repeats are erased**: the first element stays, and what
repeats it goes. -/
theorem eraseDupsBy_induction {α : Type} (repeats : α → α → Bool)
    {motive : List α → List α → Prop} (nil : motive [] [])
    (cons : ∀ a rest, motive (rest.filter fun b => repeats b a = false)
        ((rest.filter fun b => repeats b a = false).eraseDupsBy repeats) →
      motive (a :: rest)
        (a :: (rest.filter fun b => repeats b a = false).eraseDupsBy repeats))
    (l : List α) : motive l (l.eraseDupsBy repeats) := by
  -- on length, as each step takes out all that repeats its first element
  induction hn : l.length using Nat.strongRecOn generalizing l with
  | ind n ih =>
    cases l with
    | nil => exact nil
    | cons a rest =>
      rw [List.eraseDupsBy_cons]
      refine cons a rest (ih _ ?_ _ rfl)
      rw [← hn, List.length_cons]
      exact Nat.lt_succ_of_le (List.length_filter_le _ _)

theorem eraseDupsBy_sublist {α : Type} (repeats : α → α → Bool) (l : List α) :
    (l.eraseDupsBy repeats).Sublist l := by
  induction l using eraseDupsBy_induction repeats with
  | nil => exact List.Sublist.refl _
  | cons a rest ih => exact (ih.trans List.filter_sublist).cons_cons a

section Keys

variable {α κ : Type} [BEq κ] [LawfulBEq κ] {key : α → κ}

/-- Some element is the first one of the key of an element. -/
theorem exists_find?_key (key : α → κ) {l : List α} {x : α} (h : x ∈ l) :
    ∃ first ∈ l, key first = key x ∧ l.find? (fun a => key a == key x) = some first := by
  have hsome : (l.find? fun a => key a == key x).isSome = true :=
    List.find?_isSome.2 ⟨x, h, beq_self_eq_true _⟩
  obtain ⟨first, hfirst⟩ := Option.isSome_iff_exists.1 hsome
  have hkey := List.find?_some hfirst
  exact ⟨first, List.mem_of_find?_eq_some hfirst, beq_iff_eq.1 hkey, hfirst⟩

/-- **The first element of each key is kept**, and no other. -/
theorem mem_eraseDupsBy_iff {l : List α} {x : α} :
    x ∈ (l.eraseDupsBy fun a b => key a == key b) ↔
      l.find? (fun a => key a == key x) = some x := by
  -- by the rest without the key of the first, as the list is gone through
  induction l using eraseDupsBy_induction (fun a b => key a == key b) with
  | nil => simp
  | cons a rest ih =>
    rw [List.mem_cons, ih]
    by_cases hax : key a = key x
    · -- the first of its key, so that what is left of the rest has none of this key
      have hnone : (rest.filter fun b => decide ((key b == key a) = false)).find?
          (fun b => key b == key x) = none := by
        rw [List.find?_eq_none]
        intro b hb
        simpa [hax] using (List.mem_filter.1 hb).2
      rw [hnone, List.find?_cons_of_pos (by simpa using hax)]
      simp [eq_comm]
    · -- of another key, so that nothing of the key of `x` is erased with it
      have hsame : (rest.filter fun b => decide ((key b == key a) = false)).find?
          (fun b => key b == key x) = rest.find? fun b => key b == key x := by
        rw [List.find?_filter]
        congr 1
        funext b
        by_cases hbx : key b = key x
        · simp [hbx, Ne.symm hax]
        · simp [hbx]
      have hne : x ≠ a := fun h => hax (congrArg key h.symm)
      rw [hsame, List.find?_cons_of_neg (by simpa using hax)]
      simp [hne]

/-- No key is lost. -/
theorem mem_map_eraseDupsBy {l : List α} {k : κ} :
    k ∈ (l.eraseDupsBy fun a b => key a == key b).map key ↔ k ∈ l.map key := by
  constructor
  · exact fun h => ((eraseDupsBy_sublist _ l).map key).mem h
  · intro h
    obtain ⟨a, ha, rfl⟩ := List.mem_map.1 h
    obtain ⟨first, -, hkey, hfirst⟩ := exists_find?_key key ha
    refine List.mem_map.2 ⟨first, mem_eraseDupsBy_iff.2 ?_, hkey⟩
    rw [hkey]
    exact hfirst

/-- No key is left twice. -/
theorem nodup_map_eraseDupsBy (l : List α) :
    ((l.eraseDupsBy fun a b => key a == key b).map key).Nodup := by
  induction l using eraseDupsBy_induction (fun a b => key a == key b) with
  | nil => exact List.nodup_nil
  | cons a rest ih =>
    refine List.nodup_cons.2 ⟨?_, ih⟩
    intro hmem
    obtain ⟨b, hb, hkey⟩ := List.mem_map.1 hmem
    have hfilter := (List.mem_filter.1 ((eraseDupsBy_sublist _ _).mem hb)).2
    simp [hkey] at hfilter

/-- **One more element** repeats one that is there, or stays at the end. -/
theorem eraseDupsBy_concat (l : List α) (x : α) :
    ((l ++ [x]).eraseDupsBy fun a b => key a == key b)
      = if key x ∈ l.map key then l.eraseDupsBy fun a b => key a == key b
        else (l.eraseDupsBy fun a b => key a == key b) ++ [x] := by
  induction l using eraseDupsBy_induction (fun a b => key a == key b) with
  | nil => simp [List.eraseDupsBy_cons]
  | cons a rest ih =>
    rw [List.cons_append, List.eraseDupsBy_cons, List.filter_append]
    -- a last element is left out if its key is the first one or is kept from the rest
    by_cases hxa : key x = key a
    · simp [hxa]
    · have hx : [x].filter (fun b => decide ((key b == key a) = false)) = [x] := by
        simp [hxa]
      -- its key is among what is left of the rest exactly if it is in the list at all
      have hmem : key x ∈ (rest.filter fun b => decide ((key b == key a) = false)).map key ↔
          key x ∈ (a :: rest).map key := by
        simp only [List.map_cons, List.mem_cons, List.mem_map, List.mem_filter]
        constructor
        · rintro ⟨b, ⟨hb, -⟩, hkey⟩
          exact Or.inr ⟨b, hb, hkey⟩
        · rintro (h | ⟨b, hb, hkey⟩)
          · exact absurd h hxa
          · exact ⟨b, ⟨hb, by simp [hkey, hxa]⟩, hkey⟩
      rw [hx, ih, if_congr hmem rfl rfl]
      split <;> rfl

theorem eraseDups_concat (l : List κ) (x : κ) :
    (l ++ [x]).eraseDups = if x ∈ l then l.eraseDups else l.eraseDups ++ [x] := by
  have h := @eraseDupsBy_concat _ _ _ _ id l x
  rwa [List.map_id] at h

theorem nodup_eraseDups {l : List κ} : l.eraseDups.Nodup := by
  have h := @nodup_map_eraseDupsBy _ _ _ _ id l
  rwa [List.map_id] at h

end Keys

/-! ### The details of a cell -/

theorem mem_detailsAt {marks : List Mark} {place : Nat × Text} {detail : Detail} :
    detail ∈ detailsAt marks place ↔ ∃ m ∈ marks, m.place = place ∧ m.detail = detail := by
  simp only [detailsAt, List.mem_map, List.mem_filter, beq_iff_eq, and_assoc]

/-- **A cell keeps the first detail of each rule** that marks it. -/
theorem mem_details_gather {marks : List Mark} {place : Nat × Text} {detail : Detail} :
    (∃ cell ∈ gather marks, (cell.row, cell.column) = place ∧ detail ∈ cell.details) ↔
      (detailsAt marks place).find? (fun d => d.ruleId == detail.ruleId) = some detail := by
  rw [← mem_eraseDupsBy_iff]
  constructor
  · -- a place has one cell, and its details are those that are kept
    rintro ⟨cell, hcell, rfl, hdetail⟩
    obtain ⟨place, -, rfl⟩ := List.mem_map.1 hcell
    exact hdetail
  · intro hdetail
    obtain ⟨m, hm, rfl, -⟩ := mem_detailsAt.1 ((eraseDupsBy_sublist _ _).mem hdetail)
    exact ⟨_, List.mem_map.2 ⟨m.place, List.mem_eraseDups.2 (List.mem_map_of_mem hm), rfl⟩,
      rfl, hdetail⟩

/-- Nothing is in a cell that no mark says. -/
theorem exists_mark_of_mem_gather {marks : List Mark} {cell : MarkedCell} {detail : Detail}
    (hcell : cell ∈ gather marks) (hdetail : detail ∈ cell.details) :
    ∃ m ∈ marks, m.place = (cell.row, cell.column) ∧ m.detail = detail :=
  mem_detailsAt.1 (List.mem_of_find?_eq_some
    (mem_details_gather.1 ⟨cell, hcell, rfl, hdetail⟩))

/-- **Gathering keeps the details**, cell by cell, if two marks on one cell by one rule say
the same. -/
theorem exists_mem_gather {marks : List Mark} {place : Nat × Text} {detail : Detail}
    (h : ∀ m ∈ marks, ∀ m' ∈ marks, m.place = m'.place →
      m.detail.ruleId = m'.detail.ruleId → m.detail = m'.detail) :
    (∃ cell ∈ gather marks, (cell.row, cell.column) = place ∧ detail ∈ cell.details) ↔
      ∃ m ∈ marks, m.place = place ∧ m.detail = detail := by
  constructor
  · rintro ⟨cell, hcell, rfl, hdetail⟩
    exact exists_mark_of_mem_gather hcell hdetail
  · rintro ⟨m, hm, rfl, rfl⟩
    rw [mem_details_gather]
    -- some detail of the rule is first, and it is this one
    have hdetail : m.detail ∈ detailsAt marks m.place := mem_detailsAt.2 ⟨m, hm, rfl, rfl⟩
    obtain ⟨first, hmem, hid, hfirst⟩ := exists_find?_key Detail.ruleId hdetail
    obtain ⟨m', hm', hplace, rfl⟩ := mem_detailsAt.1 hmem
    rw [hfirst, h m' hm' m hm hplace hid]

/-- Cells are in the order in which their places are first met. -/
theorem map_place_gather (marks : List Mark) :
    (gather marks).map (fun cell => (cell.row, cell.column))
      = (marks.map Mark.place).eraseDups := by
  rw [gather, List.map_map]
  exact List.map_id _

theorem mem_places_gather {marks : List Mark} {place : Nat × Text} :
    (∃ cell ∈ gather marks, (cell.row, cell.column) = place) ↔
      ∃ m ∈ marks, m.place = place := by
  rw [← List.mem_map, ← List.mem_map, map_place_gather, List.mem_eraseDups]

/-- **No rule is lost**: a mark has its rule among those of its cell. -/
theorem exists_cell_of_mem {marks : List Mark} {m : Mark} (h : m ∈ marks) :
    ∃ cell ∈ gather marks, (cell.row, cell.column) = m.place ∧
      m.detail.ruleId ∈ cell.ruleIds := by
  have hplace : m.place ∈ (marks.map Mark.place).eraseDups :=
    List.mem_eraseDups.2 (List.mem_map_of_mem h)
  refine ⟨_, List.mem_map_of_mem hplace, rfl, ?_⟩
  -- another detail of the rule may be kept in its place
  exact mem_map_eraseDupsBy.2 (List.mem_map_of_mem (mem_detailsAt.2 ⟨m, h, rfl, rfl⟩))

/-! ### One mark at a time -/

theorem lineFeed_notMem_utf8EncodeChar {c : Char} (h : c.isDigit = true) :
    (0x0A : UInt8) ∉ String.utf8EncodeChar c := by
  -- a digit is one byte, from `0x30` to `0x39`
  have hdigit : 0x30 ≤ c.val.toNat ∧ c.val.toNat ≤ 0x39 := by
    simpa [Char.isDigit, UInt32.le_iff_toNat_le] using h
  have hone : c.val.toNat ≤ 127 := by omega
  unfold String.utf8EncodeChar
  dsimp only
  rw [if_pos hone, List.mem_singleton]
  intro heq
  have hnat := congrArg UInt8.toNat heq
  simp only [UInt8.toNat_ofNat', UInt8.toNat_ofNat] at hnat
  omega

namespace MarkedCell

theorem lineFeed_notMem_rowLabel (row : Nat) : 0x0A ∉ rowLabel row := by
  intro h
  rw [rowLabel, List.mem_append] at h
  rcases h with h | h
  · exact absurd h (by decide)
  · rw [Text.utf8_eq_flatMap, Nat.toString_eq_ofList_toDigits, String.toList_ofList] at h
    obtain ⟨c, hc, hbyte⟩ := List.mem_flatMap.1 h
    have hdigit : c.isDigit = true := Nat.isDigit_of_mem_toDigits (by decide) (by decide) hc
    exact lineFeed_notMem_utf8EncodeChar hdigit hbyte

theorem rowLabel_injective {row row' : Nat} (h : rowLabel row = rowLabel row') : row = row' := by
  have htext : toString (row + 1) = toString (row' + 1) :=
    utf8_injective (List.append_cancel_left h)
  rw [Nat.toString_eq_ofList_toDigits, Nat.toString_eq_ofList_toDigits] at htext
  have hdigits : Nat.toDigits 10 (row + 1) = Nat.toDigits 10 (row' + 1) :=
    String.ofList_injective htext
  have hsucc : row + 1 = row' + 1 := by
    rw [← Nat.ofDigitChars_ten_toDigits (n := row + 1), hdigits, Nat.ofDigitChars_ten_toDigits]
  omega

end MarkedCell

/-- **A place as one text**: the label of its row, and the name of its column on the next
line. -/
def placeText (place : Nat × Text) : Text := MarkedCell.rowLabel place.1 ++ 0x0A :: place.2

/-- **Different places have different texts**, even where the name of a column has line feeds
of its own: the label of the row ends at the first one. -/
theorem placeText_injective {place place' : Nat × Text}
    (h : placeText place = placeText place') : place = place' := by
  -- the label of the row ends at the first line feed, as there is none in a number
  have hlabel : ∀ p : Nat × Text,
      (placeText p).takeWhile (· != 0x0A) = MarkedCell.rowLabel p.1 := by
    intro p
    have hall : ∀ c ∈ MarkedCell.rowLabel p.1, (c != 0x0A) = true := by
      intro c hc
      refine bne_iff_ne.2 ?_
      rintro rfl
      exact MarkedCell.lineFeed_notMem_rowLabel p.1 hc
    rw [placeText, List.takeWhile_append_of_pos hall]
    simp
  have hrow : place.1 = place'.1 := by
    refine MarkedCell.rowLabel_injective ?_
    rw [← hlabel place, ← hlabel place', h]
  have hcolumn : place.2 = place'.2 := by
    unfold placeText at h
    rw [hrow] at h
    exact (List.cons.inj (List.append_cancel_left h)).2
  exact Prod.ext hrow hcolumn

/-- **A cell with one more detail**, unless the rule has one there already. -/
def MarkedCell.add (cell : MarkedCell) (detail : Detail) : MarkedCell :=
  if detail.ruleId ∈ cell.ruleIds then cell
  else
    let details := cell.details ++ [detail]
    { cell with
      color := blend (details.map Detail.color)
      message := Text.commaList (details.map Detail.name).eraseDups
      ruleIds := cell.ruleIds ++ [detail.ruleId]
      details := details }

/-- **One more mark**: its detail goes to the cell of its place, or a new cell is made for
it behind the others. -/
def collect (cells : List MarkedCell) (mark : Mark) : List MarkedCell :=
  let isThere (cell : MarkedCell) : Bool :=
    placeText (cell.row, cell.column) == placeText mark.place
  if cells.any isThere then
    cells.map fun cell => if isThere cell then cell.add mark.detail else cell
  else cells ++ [.ofDetails mark.place [mark.detail]]

theorem detailsAt_concat (marks : List Mark) (mark : Mark) (place : Nat × Text) :
    detailsAt (marks ++ [mark]) place
      = if mark.place = place then detailsAt marks place ++ [mark.detail]
        else detailsAt marks place := by
  unfold detailsAt
  rw [List.filter_append, List.map_append]
  split
  · rename_i hplace
    simp [hplace]
  · rename_i hplace
    simp [hplace]

/-- A cell of one more detail is the cell with that detail added. -/
theorem MarkedCell.ofDetails_concat (place : Nat × Text) (details : List Detail)
    (detail : Detail) :
    ofDetails place (details ++ [detail]) = (ofDetails place details).add detail := by
  have hids : detail.ruleId ∈ (ofDetails place details).ruleIds ↔
      detail.ruleId ∈ details.map Detail.ruleId := mem_map_eraseDupsBy
  unfold add
  rw [if_congr hids rfl rfl]
  unfold ofDetails
  -- an identity that is there already changes nothing, and a new one is added behind
  rw [eraseDupsBy_concat]
  split
  · rfl
  · simp

theorem detailsAt_eq_nil {marks : List Mark} {place : Nat × Text}
    (h : place ∉ marks.map Mark.place) : detailsAt marks place = [] := by
  rw [List.eq_nil_iff_forall_not_mem]
  intro detail hdetail
  obtain ⟨m, hm, hplace, -⟩ := mem_detailsAt.1 hdetail
  exact h (List.mem_map.2 ⟨m, hm, hplace⟩)

/-- **A cell is there** by the text of its place if there is a mark on its place. -/
theorem any_placeText_gather_iff {marks : List Mark} {place : Nat × Text} :
    ((gather marks).any fun cell => placeText (cell.row, cell.column) == placeText place) = true ↔
      place ∈ marks.map Mark.place := by
  rw [List.any_eq_true, List.mem_map, ← mem_places_gather]
  simp only [beq_iff_eq]
  refine exists_congr fun cell => and_congr_right fun _ => ?_
  exact ⟨fun h => placeText_injective h, fun h => congrArg placeText h⟩

/-- **Gathering one more mark** is collecting it into the cells there are. -/
theorem gather_concat (marks : List Mark) (mark : Mark) :
    gather (marks ++ [mark]) = collect (gather marks) mark := by
  -- whether there is a cell already is asked by text, which is the same as by place
  unfold collect
  dsimp only
  rw [if_congr any_placeText_gather_iff rfl rfl, gather, List.map_append, List.map_singleton,
    eraseDups_concat]
  split
  · -- a cell that is there: the others are as they were
    rw [gather, List.map_map]
    refine List.map_congr_left fun place _ => ?_
    rw [Function.comp_apply, detailsAt_concat]
    by_cases hplace : mark.place = place
    · subst hplace
      rw [if_pos rfl, MarkedCell.ofDetails_concat]
      exact (if_pos (beq_self_eq_true _)).symm
    · have hne : ¬ placeText place = placeText mark.place :=
        fun h => hplace (placeText_injective h).symm
      rw [if_neg hplace]
      exact (if_neg fun h => hne (beq_iff_eq.1 h)).symm
  · -- a new cell: nothing was said about its place before
    rename_i hmem
    rw [List.map_append, gather]
    congr 1
    · refine List.map_congr_left fun place hplace => ?_
      have hne : mark.place ≠ place := by
        rintro rfl
        exact hmem (List.mem_eraseDups.1 hplace)
      rw [detailsAt_concat, if_neg hne]
    · rw [List.map_singleton, detailsAt_concat, if_pos rfl, detailsAt_eq_nil hmem,
        List.nil_append]

/-- **Cells come about one mark at a time.** -/
theorem gather_eq_foldl_collect (marks : List Mark) : gather marks = marks.foldl collect [] := by
  -- by the last mark, as that is the one that is collected into the cells of the others
  induction marks using List.reverseRecOn with
  | nil => rfl
  | append_singleton marks mark ih =>
    rw [gather_concat, ih, List.foldl_append, List.foldl_cons, List.foldl_nil]

/-! ### What holds of gathered cells -/

/-- **The parts of a cell are in step**: the rules are those of the details, each once, the
color is blended from the colors of the details, and the message lists their names. -/
structure MarkedCell.InStep (cell : MarkedCell) : Prop where
  /-- A cell is marked by some rule. -/
  ne_nil : cell.ruleIds ≠ []
  /-- A rule marks a cell once. -/
  nodup : cell.ruleIds.Nodup
  ruleIds_eq : cell.ruleIds = cell.details.map Detail.ruleId
  color_eq : cell.color = blend (cell.details.map Detail.color)
  /-- A name that several rules share is listed where it first appears. -/
  message_eq : cell.message = (utf8 ", ").intercalate (cell.details.map Detail.name).eraseDups

namespace MarkedCell

variable {cell : MarkedCell}

/-- Adding a detail does not move a cell. -/
theorem place_add (detail : Detail) :
    ((cell.add detail).row, (cell.add detail).column) = (cell.row, cell.column) := by
  unfold add
  split <;> rfl

theorem inStep_singleton (place : Nat × Text) (detail : Detail) :
    (ofDetails place [detail]).InStep where
  ne_nil := List.cons_ne_nil _ _
  nodup := List.nodup_singleton _
  ruleIds_eq := rfl
  color_eq := rfl
  message_eq := rfl

theorem InStep.add (h : cell.InStep) (detail : Detail) : (cell.add detail).InStep := by
  unfold MarkedCell.add
  split
  · exact h
  · rename_i hnew
    refine ⟨List.append_ne_nil_of_left_ne_nil h.ne_nil _, ?_, ?_, rfl, rfl⟩
    · have hnodup := h.nodup.concat hnew
      rwa [List.concat_eq_append] at hnodup
    · change cell.ruleIds ++ [detail.ruleId] = (cell.details ++ [detail]).map Detail.ruleId
      rw [List.map_append, ← h.ruleIds_eq]
      rfl

end MarkedCell

/-- **Gathered cells**: no two have one place, and the parts of each are in step. -/
structure Gathered (cells : List MarkedCell) : Prop where
  nodup : (cells.map fun cell => placeText (cell.row, cell.column)).Nodup
  inStep : ∀ cell ∈ cells, cell.InStep

/-- **One more mark** leaves cells gathered. -/
theorem Gathered.collect {cells : List MarkedCell} (h : Gathered cells) (mark : Mark) :
    Gathered (collect cells mark) := by
  unfold AssayRules.collect
  dsimp only
  split
  · -- the cell stays where it is
    constructor
    · rw [List.map_map]
      convert h.nodup using 2
      funext cell
      rw [Function.comp_apply]
      split
      · rw [MarkedCell.place_add]
      · rfl
    · intro cell hcell
      obtain ⟨before, hbefore, rfl⟩ := List.mem_map.1 hcell
      split
      · exact (h.inStep before hbefore).add mark.detail
      · exact h.inStep before hbefore
  · -- a new cell is on a place that was not there, and says one thing
    rename_i hnew
    constructor
    · rw [List.map_append, List.map_singleton, ← List.concat_eq_append]
      refine h.nodup.concat ?_
      intro hmem
      obtain ⟨cell, hcell, htext⟩ := List.mem_map.1 hmem
      exact hnew (List.any_eq_true.2 ⟨cell, hcell, beq_iff_eq.2 htext⟩)
    · intro cell hcell
      rcases List.mem_append.1 hcell with hcell | hcell
      · exact h.inStep cell hcell
      · rw [List.mem_singleton.1 hcell]
        exact MarkedCell.inStep_singleton _ _

/-- **Whatever the marks are**, what comes of them are gathered cells. -/
theorem gathered_gather (marks : List Mark) : Gathered (gather marks) := by
  rw [gather_eq_foldl_collect]
  have hrun : ∀ cells, Gathered cells → Gathered (marks.foldl collect cells) := by
    induction marks with
    | nil => exact fun _ h => h
    | cons mark rest ih => exact fun cells h => ih _ (h.collect mark)
  exact hrun [] ⟨List.nodup_nil, by simp⟩

end AssayRules
