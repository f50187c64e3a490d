import AssayRules.Readings
import Mathlib.Data.List.Sort
import Mathlib.Tactic.Common

/-!
# What readings hold

Recording keeps the spellings that are recorded and no others (`mem_spellings_ofList`).
Listing the entries is sorting them (`entriesLongestFirst_eq`): it neither loses an entry nor
makes one up (`perm_entriesLongestFirst`), and no entry comes before a longer one
(`pairwise_entriesLongestFirst`).

No two spellings are tied in the order of listing. So the listing of the spellings follows from
which there are (`spellingsLongestFirst_congr`), and so does whether a variable has a reading
(`contains_iff`). Only which reading it has may depend on the order of recording, as a spelling
has the number recorded last (`recorded?_set`).
-/

namespace AssayRules

namespace Readings

/-! ### Recording -/

theorem mem_spellings_set {readings : Readings} {name other : Text} {value : Float} :
    other ∈ (readings.set name value).spellings ↔ other ∈ readings.spellings ∨ other = name := by
  rw [spellings_set]
  split
  · rename_i hmem
    exact ⟨Or.inl, fun h => h.elim id fun he => he ▸ hmem⟩
  · rw [List.mem_append, List.mem_singleton]

/-- **The spellings of recorded entries** are the names that occur among them. -/
theorem mem_spellings_ofList {entries : List (Text × Float)} {name : Text} :
    name ∈ (ofList entries).spellings ↔ name ∈ entries.map Prod.fst := by
  -- whatever is there to begin with
  have hfold : ∀ readings : Readings,
      name ∈ (entries.foldl (fun recorded entry => recorded.set entry.1 entry.2)
        readings).spellings ↔ name ∈ readings.spellings ∨ name ∈ entries.map Prod.fst := by
    induction entries with
    | nil => intro readings; simp
    | cons entry rest ih =>
      intro readings
      rw [List.foldl_cons, ih, mem_spellings_set, List.map_cons, List.mem_cons, or_assoc]
  rw [ofList, hfold]
  simp

theorem isEmpty_ofList (entries : List (Text × Float)) :
    (ofList entries).isEmpty = entries.isEmpty := by
  cases entries with
  | nil => rfl
  | cons entry rest =>
    -- an entry that is recorded stays recorded
    have hmem : entry.1 ∈ (ofList (entry :: rest)).spellings :=
      mem_spellings_ofList.2 List.mem_cons_self
    cases hentries : (ofList (entry :: rest)).entries with
    | nil =>
      rw [spellings, hentries] at hmem
      cases hmem
    | cons first others =>
      rw [isEmpty, hentries]
      rfl

/-- New spellings are recorded behind the others. -/
theorem entries_foldl_set {readings : Readings} {added : List (Text × Float)}
    (hnodup : (added.map Prod.fst).Nodup)
    (hnew : ∀ e ∈ added, e.1 ∉ readings.spellings) :
    (added.foldl (fun recorded entry => recorded.set entry.1 entry.2) readings).entries
      = readings.entries ++ added := by
  -- entry by entry, each of which is new when its turn comes
  induction added generalizing readings with
  | nil => exact (List.append_nil _).symm
  | cons e added ih =>
    obtain ⟨he, hadded⟩ := List.forall_mem_cons.1 hnew
    obtain ⟨hfirst, hrest⟩ := List.nodup_cons.1 hnodup
    have hset : (readings.set e.1 e.2).entries = readings.entries ++ [e] := by
      rw [set, dif_neg he]
    rw [List.foldl_cons, ih hrest, hset, List.append_assoc, List.singleton_append]
    intro f hf hmem
    -- a spelling is known by now if it was before, or by the entry just recorded
    rcases mem_spellings_set.1 hmem with hmem | heq
    · exact hadded f hf hmem
    · exact hfirst (heq ▸ List.mem_map_of_mem hf)

/-! ### Listing -/

/-- The order of listing is one on spellings: it is total, and no two spellings are tied. -/
theorem longestFirst_iff {a b : Text} :
    longestFirst a b = true ↔ b.length < a.length ∨ a.length = b.length ∧ a ≤ b := by
  simp only [longestFirst, Bool.or_eq_true, Bool.and_eq_true, decide_eq_true_eq, beq_iff_eq]

theorem longestFirst_antisymm {a b : Text} (h : longestFirst a b = true)
    (h' : longestFirst b a = true) : a = b := by
  rcases longestFirst_iff.1 h with hlt | ⟨heq, hle⟩ <;>
    rcases longestFirst_iff.1 h' with hlt' | ⟨heq', hle'⟩
  · omega
  · omega
  · omega
  · exact List.le_antisymm hle hle'

instance : Std.Total fun a b : Text => longestFirst a b = true where
  total a b := by
    rw [longestFirst_iff, longestFirst_iff]
    rcases Nat.lt_trichotomy a.length b.length with hlt | heq | hlt
    · exact Or.inr (Or.inl hlt)
    · exact (List.le_total a b).imp (fun h => Or.inr ⟨heq, h⟩) fun h => Or.inr ⟨heq.symm, h⟩
    · exact Or.inl (Or.inl hlt)

instance : IsTrans Text fun a b => longestFirst a b = true where
  trans a b c hab hbc := by
    rw [longestFirst_iff] at hab hbc ⊢
    rcases hab with hab | ⟨hab, hle⟩ <;> rcases hbc with hbc | ⟨hbc, hle'⟩
    · exact Or.inl (by omega)
    · exact Or.inl (by omega)
    · exact Or.inl (by omega)
    · exact Or.inr ⟨hab.trans hbc, List.le_trans hle hle'⟩

/-- **Listing is sorting.** -/
theorem entriesLongestFirst_eq (readings : Readings) :
    readings.entriesLongestFirst
      = readings.entries.insertionSort fun a b => longestFirst a.1 b.1 = true := by
  -- one insertion is the one of the library, and so the sort is, too
  have hinsert : ∀ (e : Text × Float) (entries : List (Text × Float)),
      insertLongestFirst e entries
        = entries.orderedInsert (fun a b => longestFirst a.1 b.1 = true) e := by
    intro e entries
    induction entries with
    | nil => rfl
    | cons other rest ih => rw [insertLongestFirst, List.orderedInsert_cons, ih]
  rw [entriesLongestFirst, List.insertionSort]
  congr 1
  funext e entries
  exact hinsert e entries

/-- The spellings come out as they are sorted by themselves. -/
theorem spellingsLongestFirst_eq (readings : Readings) :
    readings.spellingsLongestFirst
      = readings.spellings.insertionSort fun a b => longestFirst a b = true := by
  rw [spellingsLongestFirst, entriesLongestFirst_eq, spellings]
  exact List.map_insertionSort _ _ Prod.fst _ fun a _ b _ => Iff.rfl

/-- **Sorting keeps the entries.** -/
theorem perm_entriesLongestFirst (readings : Readings) :
    readings.entriesLongestFirst.Perm readings.entries := by
  rw [entriesLongestFirst_eq]
  exact List.perm_insertionSort _ _

theorem pairwise_spellingsLongestFirst (readings : Readings) :
    readings.spellingsLongestFirst.Pairwise fun a b => longestFirst a b = true := by
  rw [spellingsLongestFirst_eq]
  exact List.pairwise_insertionSort _ _

theorem pairwise_longestFirst (readings : Readings) :
    readings.entriesLongestFirst.Pairwise fun a b => longestFirst a.1 b.1 = true :=
  List.pairwise_map.1 (pairwise_spellingsLongestFirst readings)

/-- **No entry comes before a longer one.** -/
theorem pairwise_entriesLongestFirst (readings : Readings) :
    readings.entriesLongestFirst.Pairwise fun a b => b.1.length ≤ a.1.length := by
  refine readings.pairwise_longestFirst.imp fun h => ?_
  rcases longestFirst_iff.1 h with hlt | ⟨heq, -⟩
  · exact Nat.le_of_lt hlt
  · exact Nat.le_of_eq heq.symm

theorem perm_spellingsLongestFirst (readings : Readings) :
    readings.spellingsLongestFirst.Perm readings.spellings :=
  (perm_entriesLongestFirst readings).map Prod.fst

/-- **The listing is determined by the set of spellings**: neither the order of recording nor
what was recorded matters. -/
theorem spellingsLongestFirst_congr {readings other : Readings}
    (h : ∀ name, name ∈ readings.spellings ↔ name ∈ other.spellings) :
    readings.spellingsLongestFirst = other.spellingsLongestFirst := by
  have hperm : readings.spellings.Perm other.spellings :=
    (List.perm_ext_iff_of_nodup readings.nodup other.nodup).2 h
  refine List.Perm.eq_of_pairwise (fun a b _ _ => longestFirst_antisymm)
    (pairwise_spellingsLongestFirst readings) (pairwise_spellingsLongestFirst other) ?_
  exact (perm_spellingsLongestFirst readings).trans
    (hperm.trans (perm_spellingsLongestFirst other).symm)

/-- **Two listings of the same entries** are one, if each entry has a spelling of its own. -/
theorem eq_of_perm_of_pairwise {entries entries' : List (Text × Float)} (h : entries.Perm entries')
    (hnodup : (entries'.map Prod.fst).Nodup)
    (hentries : entries.Pairwise fun a b => longestFirst a.1 b.1 = true)
    (hentries' : entries'.Pairwise fun a b => longestFirst a.1 b.1 = true) :
    entries = entries' := by
  refine List.Perm.eq_of_pairwise (fun a b ha hb hab hba => ?_) hentries hentries' h
  exact List.inj_on_of_nodup_map hnodup (h.mem_iff.1 ha) hb (longestFirst_antisymm hab hba)

/-- **The listing does not depend on the order of recording.** -/
theorem entriesLongestFirst_of_perm {readings other : Readings}
    (h : other.entries.Perm readings.entries) :
    other.entriesLongestFirst = readings.entriesLongestFirst :=
  eq_of_perm_of_pairwise
    ((perm_entriesLongestFirst other).trans (h.trans (perm_entriesLongestFirst readings).symm))
    ((perm_spellingsLongestFirst readings).nodup_iff.2 readings.nodup)
    (pairwise_longestFirst other) (pairwise_longestFirst readings)

/-! ### Looking up -/

theorem isSome_recorded?_iff {readings : Readings} {name : Text} :
    (readings.recorded? name).isSome = true ↔ name ∈ readings.spellings := by
  rw [← not_iff_not, Bool.not_eq_true, Option.isSome_eq_false_iff, Option.isNone_iff_eq_none,
    recorded?, List.lookup_eq_none_iff, spellings, List.mem_map]
  simp only [bne_iff_ne, not_exists, not_and]
  exact ⟨fun h e he heq => h e he heq.symm, fun h e he heq => h e he heq.symm⟩

theorem isSome_folded?_iff {readings : Readings} {name : Text} :
    (readings.folded? name).isSome = true ↔
      ∃ spelling ∈ readings.spellings, spelling.foldCase = name.foldCase := by
  rw [folded?, Option.isSome_map, List.find?_isSome]
  simp [spellings]

/-- **Whether a variable has a reading** depends on the spellings alone. -/
theorem contains_iff {readings : Readings} {name : Text} :
    readings.contains name = true ↔ ∃ spelling ∈ readings.spellings, spelling = name ∨
      spelling = Name.canonical name ∨ spelling.foldCase = (Name.canonical name).foldCase := by
  rw [contains, find?, Option.isSome_or, Option.isSome_or, Bool.or_eq_true, Bool.or_eq_true,
    isSome_recorded?_iff, isSome_recorded?_iff, isSome_folded?_iff]
  -- the three ways to look up, in their order
  constructor
  · rintro (h | h | ⟨spelling, h, hfold⟩)
    · exact ⟨_, h, Or.inl rfl⟩
    · exact ⟨_, h, Or.inr (Or.inl rfl)⟩
    · exact ⟨_, h, Or.inr (Or.inr hfold)⟩
  · rintro ⟨spelling, h, rfl | rfl | hfold⟩
    · exact Or.inl h
    · exact Or.inr (Or.inl h)
    · exact Or.inr (Or.inr ⟨spelling, h, hfold⟩)

theorem mem_entries_of_lookup {entries : List (Text × Float)} {name : Text} {x : Float}
    (h : entries.lookup name = some x) : (name, x) ∈ entries := by
  induction entries with
  | nil => cases h
  | cons entry entries ih =>
    obtain ⟨key, y⟩ := entry
    rw [List.lookup_cons] at h
    split at h
    · rename_i heq
      obtain rfl := beq_iff_eq.1 heq
      cases h
      exact List.mem_cons_self
    · exact List.mem_cons_of_mem _ (ih h)

theorem lookup_of_mem {entries : List (Text × Float)} (hnodup : (entries.map Prod.fst).Nodup)
    {name : Text} {x : Float} (h : (name, x) ∈ entries) : entries.lookup name = some x := by
  -- entry by entry, as only one of them is of this spelling
  induction entries with
  | nil => cases h
  | cons other rest ih =>
    obtain ⟨key, y⟩ := other
    obtain ⟨hother, hrest⟩ := List.nodup_cons.1 hnodup
    rcases List.mem_cons.1 h with heq | h
    · cases heq
      exact List.lookup_cons_self
    · have hne : name ≠ key := fun heq => hother (List.mem_map.2 ⟨_, h, heq⟩)
      rw [List.lookup_cons, beq_eq_false_iff_ne.2 hne]
      exact ih hrest h

theorem recorded?_eq_some_iff {readings : Readings} {name : Text} {x : Float} :
    readings.recorded? name = some x ↔ (name, x) ∈ readings.entries :=
  ⟨mem_entries_of_lookup, lookup_of_mem readings.nodup⟩

theorem recorded?_of_perm {readings other : Readings} (h : other.entries.Perm readings.entries)
    (name : Text) : other.recorded? name = readings.recorded? name := by
  ext x
  rw [recorded?_eq_some_iff, recorded?_eq_some_iff, h.mem_iff]

/-- A recorded spelling has the number recorded with it. -/
theorem find?_of_mem_entries {readings : Readings} {entry : Text × Float}
    (h : entry ∈ readings.entries) : readings.find? entry.1 = some entry.2 := by
  rw [find?, recorded?_eq_some_iff.2 h]
  rfl

/-- **After a recording** a spelling has the new number, if it is the one recorded, and else the
number it had. -/
theorem recorded?_set (readings : Readings) (name other : Text) (value : Float) :
    (readings.set name value).recorded? other
      = if other = name then some value else readings.recorded? other := by
  -- what was recorded last for the spelling is found, and others are found as before
  split
  · rename_i heq
    subst heq
    refine recorded?_eq_some_iff.2 ?_
    unfold set
    split
    · rename_i hmem
      obtain ⟨entry, hentry, heq⟩ := List.mem_map.1 hmem
      exact List.mem_map.2 ⟨entry, hentry, if_pos heq⟩
    · exact List.mem_append_right _ List.mem_cons_self
  · -- the entries of another spelling are as they were
    rename_i hne
    ext x
    rw [recorded?_eq_some_iff, recorded?_eq_some_iff]
    unfold set
    split
    · simp only [replaced, List.mem_map]
      constructor
      · rintro ⟨entry, hentry, heq⟩
        split at heq
        · exact absurd (congrArg Prod.fst heq).symm hne
        · exact heq ▸ hentry
      · intro hentry
        exact ⟨_, hentry, if_neg hne⟩
    · rw [List.mem_append, List.mem_singleton, Prod.mk.injEq]
      exact or_iff_left fun h => hne h.1

/-- **After recordings of one number** every spelling that was recorded has it. -/
theorem recorded?_foldl_set {entries : List (Text × Float)} {x? : Option Float}
    (h : ∀ e ∈ entries, x? = some e.2) (readings : Readings) {name : Text} :
    (entries.foldl (fun recorded entry => recorded.set entry.1 entry.2) readings).recorded? name
      = if name ∈ entries.map Prod.fst then x? else readings.recorded? name := by
  -- entry by entry, as all of them give the one value
  induction entries generalizing readings with
  | nil => rfl
  | cons e rest ih =>
    obtain ⟨he, hrest⟩ := List.forall_mem_cons.1 h
    rw [List.foldl_cons, ih hrest, recorded?_set, List.map_cons, ← he]
    by_cases hmem : name ∈ rest.map Prod.fst
    · rw [if_pos hmem, if_pos (List.mem_cons_of_mem _ hmem)]
    · rw [if_neg hmem]
      exact if_congr (by rw [List.mem_cons, or_iff_left hmem]) rfl rfl

end Readings

end AssayRules
