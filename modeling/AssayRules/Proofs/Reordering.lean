import AssayRules.Proofs.Color
import AssayRules.Proofs.Marking

/-!
# The order of rules

Rules in another order mark the same cells in the same order, in the same colors, and say the
same about each of them (`mark_perm`). What changes is the order in which this is said.

Everything follows from one row of one column (`rowMarks_perm`), where the marks are only
rearranged and no rule has two. So the places of marks are the same from first to last
(`map_place_columnMarks`), which settles the order of cells. And what a cell keeps of a rule is
what is said in the first column that has something of this rule, which is again the same
(`find?_detailsAt_columnMarks`); this holds also where columns of one name come together in
one cell.
-/

namespace AssayRules

section Keys

variable {α κ : Type} [BEq κ] [LawfulBEq κ] {key : α → κ} {l l' : List α}

/-- Where keys are distinct, the element of a key is the one that is found. -/
theorem find?_key_eq_some_iff (hnodup : (l.map key).Nodup) {k : κ} {a : α} :
    l.find? (fun b => key b == k) = some a ↔ a ∈ l ∧ key a = k := by
  constructor
  · intro h
    have hkey := List.find?_some h
    exact ⟨List.mem_of_find?_eq_some h, beq_iff_eq.1 hkey⟩
  · rintro ⟨ha, rfl⟩
    obtain ⟨first, hmem, hkey, hfirst⟩ := exists_find?_key key ha
    rw [hfirst, List.inj_on_of_nodup_map hnodup hmem ha hkey]

/-- So it does not depend on the order which one is found. -/
theorem find?_key_perm (h : l.Perm l') (hnodup : (l.map key).Nodup) (k : κ) :
    l.find? (fun b => key b == k) = l'.find? fun b => key b == k := by
  have hnodup' : (l'.map key).Nodup := (h.map key).nodup_iff.1 hnodup
  ext a
  rw [find?_key_eq_some_iff hnodup, find?_key_eq_some_iff hnodup', h.mem_iff]

end Keys

/-! ### Marks -/

section Marks

variable {settings : Settings} {table : Table} {variableColumn : Nat}
  {ready ready' : List ReadyRule} {held held' : List HeldRule}

theorem heldRules_perm (h : ready.Perm ready') (readings : Readings) :
    (heldRules settings ready readings).Perm (heldRules settings ready' readings) :=
  h.filterMap _

/-- **In one row of a column** the marks are only rearranged. -/
theorem rowMarks_perm (h : held.Perm held') (column : Text × Nat) (row : Nat) :
    (rowMarks settings table variableColumn held column row).Perm
      (rowMarks settings table variableColumn held' column row) := by
  unfold rowMarks
  split
  · exact (h.filter _).map _
  · exact List.Perm.refl _

/-- Rules of different identities hold as rules of different identities. -/
theorem pairwise_heldRules (hids : ready.Pairwise fun a b => a.rule.id ≠ b.rule.id)
    (readings : Readings) :
    (heldRules settings ready readings).Pairwise fun a b =>
      a.ready.rule.id ≠ b.ready.rule.id := by
  refine List.pairwise_filterMap.2 (hids.imp ?_)
  intro a b hne heldA hA heldB hB
  obtain ⟨_, -, rfl⟩ := Option.map_eq_some_iff.1 hA
  obtain ⟨_, -, rfl⟩ := Option.map_eq_some_iff.1 hB
  exact hne

/-- **In one row of a column** no rule has two marks. -/
theorem nodup_rowMarks (hids : held.Pairwise fun a b => a.ready.rule.id ≠ b.ready.rule.id)
    (column : Text × Nat) (row : Nat) :
    ((rowMarks settings table variableColumn held column row).map
      fun m => m.detail.ruleId).Nodup := by
  unfold rowMarks
  split
  · rw [List.map_map]
    exact List.pairwise_map.2 (hids.filter _)
  · exact List.nodup_nil

/-- **In one row of a column** the same is said of a rule. -/
theorem find?_detailsAt_rowMarks (h : held.Perm held')
    (hids : held.Pairwise fun a b => a.ready.rule.id ≠ b.ready.rule.id) (column : Text × Nat)
    (row : Nat) (place : Nat × Text) (id : Text) :
    (detailsAt (rowMarks settings table variableColumn held column row) place).find?
        (fun d => d.ruleId == id)
      = (detailsAt (rowMarks settings table variableColumn held' column row) place).find?
          fun d => d.ruleId == id := by
  refine find?_key_perm (((rowMarks_perm h column row).filter _).map _) ?_ id
  rw [List.map_map]
  exact (nodup_rowMarks hids column row).sublist (List.filter_sublist.map _)

theorem map_place_rowMarks (column : Text × Nat) (row : Nat) :
    (rowMarks settings table variableColumn held column row).map Mark.place
      = List.replicate (rowMarks settings table variableColumn held column row).length
          (row, column.1) := by
  rw [List.eq_replicate_iff]
  refine ⟨List.length_map _, ?_⟩
  intro place hplace
  obtain ⟨m, hm, rfl⟩ := List.mem_map.1 hplace
  exact place_of_mem_rowMarks hm

/-- **Marks are on the same places**, from the first to the last. -/
theorem map_place_columnMarks (h : ready.Perm ready') (column : Text × Nat) :
    (columnMarks settings table variableColumn ready column).map Mark.place
      = (columnMarks settings table variableColumn ready' column).map Mark.place := by
  rw [columnMarks_eq_flatMap, columnMarks_eq_flatMap, List.map_flatMap, List.map_flatMap]
  congr 1
  funext row
  -- one place, as often as there are marks on it
  rw [map_place_rowMarks, map_place_rowMarks,
    (rowMarks_perm (heldRules_perm h _) column row).length_eq]

theorem detailsAt_flatMap {α : Type} (l : List α) (marks : α → List Mark)
    (place : Nat × Text) :
    detailsAt (l.flatMap marks) place = l.flatMap fun a => detailsAt (marks a) place := by
  unfold detailsAt
  rw [List.filter_flatMap, List.map_flatMap]

/-- **What is said first of a rule** about a place is the same. -/
theorem find?_detailsAt_columnMarks (h : ready.Perm ready')
    (hids : ready.Pairwise fun a b => a.rule.id ≠ b.rule.id) (columns : List (Text × Nat))
    (place : Nat × Text) (id : Text) :
    (detailsAt (columns.flatMap (columnMarks settings table variableColumn ready)) place).find?
        (fun d => d.ruleId == id)
      = (detailsAt (columns.flatMap (columnMarks settings table variableColumn ready'))
          place).find? fun d => d.ruleId == id := by
  -- down to one row of one column, where the details are the same in another order
  rw [detailsAt_flatMap, detailsAt_flatMap, List.find?_flatMap, List.find?_flatMap]
  congr 1
  funext column
  rw [columnMarks_eq_flatMap, columnMarks_eq_flatMap, detailsAt_flatMap, detailsAt_flatMap,
    List.find?_flatMap, List.find?_flatMap]
  congr 1
  funext row
  exact find?_detailsAt_rowMarks (heldRules_perm h _) (pairwise_heldRules hids _) column row
    place id

end Marks

/-! ### Cells -/

/-- **A cell that says the same in another order.** -/
structure MarkedCell.Reorders (cell cell' : MarkedCell) : Prop where
  place_eq : (cell.row, cell.column) = (cell'.row, cell'.column)
  color_eq : cell.color = cell'.color
  /-- The same is said, with the same values of the two sides. -/
  details_perm : cell.details.Perm cell'.details
  /-- The rules follow what they have to say, in the one order and in the other. -/
  ruleIds_eq : cell.ruleIds = cell.details.map Detail.ruleId
  ruleIds_eq' : cell'.ruleIds = cell'.details.map Detail.ruleId
  /-- The messages list the names of what is said, each at its first place. -/
  message_eq : cell.message = (utf8 ", ").intercalate (cell.details.map Detail.name).eraseDups
  message_eq' : cell'.message = (utf8 ", ").intercalate (cell'.details.map Detail.name).eraseDups
  /-- These are the same names, and none of them twice. -/
  names_nodup : (cell.details.map Detail.name).eraseDups.Nodup
  names_perm : (cell.details.map Detail.name).eraseDups.Perm
    (cell'.details.map Detail.name).eraseDups

/-- Names in another order are the same names when each is kept once. -/
theorem perm_eraseDups {names names' : List Text} (h : names.Perm names') :
    names.eraseDups.Perm names'.eraseDups := by
  rw [List.perm_ext_iff_of_nodup nodup_eraseDups nodup_eraseDups]
  intro name
  rw [List.mem_eraseDups, List.mem_eraseDups, h.mem_iff]

/-- **Two cells say the same** if the same is said first of each rule. -/
theorem MarkedCell.reorders_ofDetails {details details' : List Detail} (place : Nat × Text)
    (h : ∀ id, details.find? (fun d => d.ruleId == id)
      = details'.find? fun d => d.ruleId == id) :
    (ofDetails place details).Reorders (ofDetails place details') := by
  -- what is kept has no repeats, so that it is enough to compare what is in it
  have hkept : (details.eraseDupsBy fun a b => a.ruleId == b.ruleId).Perm
      (details'.eraseDupsBy fun a b => a.ruleId == b.ruleId) := by
    rw [List.perm_ext_iff_of_nodup (nodup_map_eraseDupsBy _).of_map
      (nodup_map_eraseDupsBy _).of_map]
    intro detail
    rw [mem_eraseDupsBy_iff, mem_eraseDupsBy_iff, h]
  exact
    { place_eq := rfl
      color_eq := blend_perm (hkept.map _)
      details_perm := hkept
      ruleIds_eq := rfl
      ruleIds_eq' := rfl
      message_eq := rfl
      message_eq' := rfl
      names_nodup := nodup_eraseDups
      names_perm := perm_eraseDups (hkept.map Detail.name) }

/-- **Gathered cells say the same**, one after the other, if marks are on the same places and
the same is said first of each rule about each place. -/
theorem forall₂_reorders_gather {marks marks' : List Mark}
    (hplaces : marks.map Mark.place = marks'.map Mark.place)
    (hfirst : ∀ place id, (detailsAt marks place).find? (fun d => d.ruleId == id)
      = (detailsAt marks' place).find? fun d => d.ruleId == id) :
    List.Forall₂ MarkedCell.Reorders (gather marks) (gather marks') := by
  rw [gather, gather, hplaces, List.forall₂_map_left_iff, List.forall₂_map_right_iff,
    List.forall₂_same]
  intro place _
  exact MarkedCell.reorders_ofDetails place (hfirst place)

/-! ### The whole table -/

/-- Rules of different identities are made ready as rules of different identities. -/
theorem pairwise_ready {rules : List Rule} (settings : Settings)
    (hids : ((rules.filter Rule.active).map Rule.id).Nodup) :
    (rules.filterMap (Rule.ready? settings)).Pairwise fun a b => a.rule.id ≠ b.rule.id := by
  have hactive := List.pairwise_filter.1 (List.pairwise_map.1 hids)
  refine List.pairwise_filterMap.2 (hactive.imp ?_)
  intro a b hne ready hready ready' hready'
  obtain ⟨ha, _, -, rfl⟩ := Rule.ready?_eq_some_iff.1 hready
  obtain ⟨hb, _, -, rfl⟩ := Rule.ready?_eq_some_iff.1 hready'
  exact hne ha hb

/-- **The order of rules does not matter** for which cells are marked, in which order these
come, in which colors, and for what is said about each of them. The identities of the rules
that are switched on have to be distinct; the stores are any. -/
theorem mark_perm (settings : Settings) (rules rules' : List Rule) (table : Table)
    (store store' : FormulaStore) (variableColumn : Nat) (hrules : rules.Perm rules')
    (hids : ((rules.filter Rule.active).map Rule.id).Nodup)
    (hcolumn : table.column? settings.variableColumn = some variableColumn) :
    ∃ report report' after after',
      mark settings rules table store = .ok (report, after) ∧
        mark settings rules' table store' = .ok (report', after') ∧
        List.Forall₂ MarkedCell.Reorders report.cells report'.cells ∧
        report.issues.Perm report'.issues := by
  -- each order has its report, and neither depends on the store
  obtain ⟨after, hmark, -⟩ := mark_eq_report settings rules table store hcolumn
  obtain ⟨after', hmark', -⟩ := mark_eq_report settings rules' table store' hcolumn
  refine ⟨_, _, after, after', hmark, hmark', ?_, hrules.filterMap _⟩
  have hready := hrules.filterMap (Rule.ready? settings)
  -- cells are compared by the marks that they are gathered from
  refine forall₂_reorders_gather ?_ ?_
  · rw [List.map_flatMap, List.map_flatMap]
    congr 1
    funext column
    exact map_place_columnMarks hready column
  · exact find?_detailsAt_columnMarks hready (pairwise_ready settings hids) _

/-- Two rules in both orders, over two columns of one name, with a third rule that is switched
off and has the identity of another. -/
theorem mark_perm_of_shared_column :
    let iron : Rule := { id := utf8 "1", name := utf8 "Iron", formula := utf8 "Fe > 1" }
    let steel : Rule := { id := utf8 "2", name := utf8 "Steel", formula := utf8 "Fe > 2" }
    let idle : Rule := { iron with active := false }
    let table : Table := ⟨[utf8 "Variable", utf8 "March", utf8 "March"],
      [[.text (utf8 "Fe"), .number 2.0, .number 3.0]]⟩
    ∃ report report' after after',
      mark {} [iron, steel, idle] table .empty = .ok (report, after) ∧
        mark {} [steel, iron, idle] table .empty = .ok (report', after') ∧
        List.Forall₂ MarkedCell.Reorders report.cells report'.cells ∧
        report.issues.Perm report'.issues := by
  intro iron steel idle table
  exact mark_perm {} [iron, steel, idle] [steel, iron, idle] table .empty .empty 0
    (.swap steel iron [idle]) (by decide) (by decide)

end AssayRules
