import AssayRules.Proofs.Readings
import Mathlib.Data.Finset.Card
import Mathlib.Data.List.Induction

/-!
# What a history of recording leaves

Readings come about by recording one number after the other, and two rules are at work that differ
in what a repetition does. A number that is recorded again replaces the one before it
(`recorded?_set`); a spelling keeps the place it had when it was first recorded
(`find?_spellings_set`). Looking up needs both, as a name that is not found as it stands goes to
the spelling that was recorded first among those that agree with it, and has the number that was
recorded last for that one (`find?_ofList`).

Each rule says what one more recording changes. Read over a history, the first one says that a
spelling has its last number (`recorded?_ofList_eq_some_iff`), and the second that the first
spelling with some property is the first one in the history (`find?_spellings_ofList`). What is
listed knows nothing of the history but which spellings are in it.
-/

namespace AssayRules

namespace Readings

variable {readings : Readings} {history : List (Text × Float)}

/-! ### Histories -/

/-- **The number recorded last** under a spelling: the spelling is not recorded again behind it. -/
def LastNumber (history : List (Text × Float)) (spelling : Text) (x : Float) : Prop :=
  ∃ before behind, history = before ++ (spelling, x) :: behind ∧ spelling ∉ behind.map Prod.fst

/-- **The spelling that answers for a name**: the name itself, its canonical spelling, or the first
one to be recorded that agrees with its canonical spelling up to letter case. -/
def answering? (history : List (Text × Float)) (name : Text) : Option Text :=
  if name ∈ history.map Prod.fst then some name
  else if Name.canonical name ∈ history.map Prod.fst then some (Name.canonical name)
  else (history.map Prod.fst).find? fun spelling =>
    spelling.foldCase == (Name.canonical name).foldCase

theorem ofList_concat (history : List (Text × Float)) (entry : Text × Float) :
    ofList (history ++ [entry]) = (ofList history).set entry.1 entry.2 := by
  rw [ofList, List.foldl_append]
  rfl

/-! ### Numbers -/

theorem recorded?_ofList (history : List (Text × Float)) (spelling : Text) :
    (ofList history).recorded? spelling = history.reverse.lookup spelling := by
  induction history using List.reverseRecOn with
  | nil => rfl
  | append_singleton history entry ih =>
    obtain ⟨key, x⟩ := entry
    rw [ofList_concat, recorded?_set, ih, List.reverse_append, List.reverse_singleton,
      List.singleton_append, List.lookup_cons]
    by_cases heq : spelling = key
    · rw [if_pos heq, beq_iff_eq.2 heq]
    · rw [if_neg heq, beq_eq_false_iff_ne.2 heq]

/-- **A spelling has its last number.** -/
theorem recorded?_ofList_eq_some_iff {spelling : Text} {x : Float} :
    (ofList history).recorded? spelling = some x ↔ LastNumber history spelling x := by
  rw [recorded?_ofList, List.lookup_eq_some_iff]
  -- what comes first in the reversed history comes last in the history
  constructor
  · rintro ⟨behind, before, hsplit, hnot⟩
    refine ⟨before.reverse, behind.reverse, ?_, ?_⟩
    · rw [← List.reverse_inj, hsplit]
      simp
    · rw [List.map_reverse, List.mem_reverse]
      intro hmem
      obtain ⟨entry, hentry, heq⟩ := List.mem_map.1 hmem
      exact bne_iff_ne.1 (hnot entry hentry) heq.symm
  · rintro ⟨before, behind, rfl, hnot⟩
    refine ⟨behind.reverse, before.reverse, by simp, fun entry hentry => bne_iff_ne.2 ?_⟩
    rintro rfl
    exact hnot (List.mem_map_of_mem (List.mem_reverse.1 hentry))

/-! ### Spellings -/

/-- **After a recording** the first spelling with a property is the one it was before, and may be
the recorded one only if there was none. -/
theorem find?_spellings_set (p : Text → Bool) (name : Text) (value : Float) :
    (readings.set name value).spellings.find? p = (readings.spellings ++ [name]).find? p := by
  rw [spellings_set]
  split
  · -- a known spelling is found where it stands, if at all
    rename_i hmem
    rw [List.find?_append]
    cases hfound : readings.spellings.find? p with
    | some _ => rfl
    | none =>
      rw [List.find?_singleton, if_neg (List.find?_eq_none.1 hfound name hmem)]
      rfl
  · rfl

/-- **The first spelling with a property** is the first one in the history. -/
theorem find?_spellings_ofList (p : Text → Bool) (history : List (Text × Float)) :
    (ofList history).spellings.find? p = (history.map Prod.fst).find? p := by
  induction history using List.reverseRecOn with
  | nil => rfl
  | append_singleton history entry ih =>
    rw [ofList_concat, find?_spellings_set, List.find?_append, ih, List.map_append,
      List.find?_append, List.map_singleton]

/-! ### Looking up -/

/-- Up to letter case a name has the number of the first spelling that agrees with it. -/
theorem folded?_eq_bind (name : Text) : readings.folded? name
    = (readings.spellings.find? fun spelling => spelling.foldCase == name.foldCase).bind
      readings.recorded? := by
  rw [folded?, spellings, List.find?_map, Function.comp_def]
  cases hfound : readings.entries.find? fun entry => entry.1.foldCase == name.foldCase with
  | none => rfl
  | some entry => exact (recorded?_eq_some_iff.2 (List.mem_of_find?_eq_some hfound)).symm

/-- **Looking up** goes to the spelling that answers for the name. -/
theorem find?_ofList (history : List (Text × Float)) (name : Text) :
    (ofList history).find? name = (answering? history name).bind (ofList history).recorded? := by
  -- a spelling that was never recorded has no number, and one that was has its own
  have hnone : ∀ {spelling}, spelling ∉ history.map Prod.fst →
      (ofList history).recorded? spelling = none := fun hnot =>
    Option.not_isSome_iff_eq_none.1 fun h =>
      hnot (mem_spellings_ofList.1 (isSome_recorded?_iff.1 h))
  have hsome : ∀ {spelling}, spelling ∈ history.map Prod.fst → ∀ others : Option Float,
      ((ofList history).recorded? spelling).or others = (ofList history).recorded? spelling :=
    fun hmem others => Option.or_of_isSome
      (isSome_recorded?_iff.2 (mem_spellings_ofList.2 hmem))
  rw [find?, answering?]
  -- the ways to look up are tried in the order in which spellings answer
  split
  · rename_i hmem
    exact hsome hmem _
  · rename_i hname
    rw [hnone hname, Option.none_or]
    split
    · rename_i hmem
      exact hsome hmem _
    · rename_i hcanonical
      rw [hnone hcanonical, Option.none_or, folded?_eq_bind, find?_spellings_ofList]

theorem mem_of_answering? {name spelling : Text} (h : answering? history name = some spelling) :
    spelling ∈ history.map Prod.fst := by
  rw [answering?] at h
  split_ifs at h with hname hcanonical
  · exact Option.some.inj h ▸ hname
  · exact Option.some.inj h ▸ hcanonical
  · exact List.mem_of_find?_eq_some h

/-! ### Listing -/

theorem nodup_spellingsLongestFirst (readings : Readings) :
    readings.spellingsLongestFirst.Nodup :=
  (perm_spellingsLongestFirst readings).nodup_iff.2 readings.nodup

/-- **The listing is strictly sorted**: longer spellings first, and those of one length by their
bytes. -/
theorem strict_spellingsLongestFirst (readings : Readings) :
    readings.spellingsLongestFirst.Pairwise fun a b =>
      b.length < a.length ∨ a.length = b.length ∧ a < b := by
  refine (List.Pairwise.and (pairwise_spellingsLongestFirst readings)
    (nodup_spellingsLongestFirst readings)).imp ?_
  rintro a b ⟨h, hne⟩
  exact (longestFirst_iff.1 h).imp_right fun ⟨heq, hle⟩ => ⟨heq, Std.lt_of_le_of_ne hle hne⟩

/-! ### A history as a whole -/

/-- **Readings are what their history says.** A name has the last number of the spelling that
answers for it, and none if no spelling does. The spellings of the history are listed, each once,
longer ones first and those of one length by their bytes, whatever the order in which they were
recorded; so many are counted. One more recording leaves every other spelling its number. -/
theorem find?_and_listing_ofList (history : List (Text × Float)) :
    (∀ name x, (ofList history).find? name = some x ↔
      ∃ spelling, answering? history name = some spelling ∧ LastNumber history spelling x) ∧
    (∀ name, (ofList history).find? name = none ↔ answering? history name = none) ∧
    (∀ spelling, spelling ∈ (ofList history).spellingsLongestFirst ↔
      spelling ∈ history.map Prod.fst) ∧
    (ofList history).spellingsLongestFirst.Nodup ∧
    ((ofList history).spellingsLongestFirst.Pairwise fun a b =>
      b.length < a.length ∨ a.length = b.length ∧ a < b) ∧
    (∀ other : List (Text × Float),
      (∀ spelling, spelling ∈ other.map Prod.fst ↔ spelling ∈ history.map Prod.fst) →
      (ofList other).spellingsLongestFirst = (ofList history).spellingsLongestFirst) ∧
    (ofList history).size = (history.map Prod.fst).toFinset.card ∧
    ∀ name value spelling, spelling ∈ history.map Prod.fst → spelling ≠ name →
      (ofList (history ++ [(name, value)])).find? spelling = (ofList history).find? spelling := by
  refine ⟨fun name x => ?_, fun name => ?_, fun spelling => ?_, nodup_spellingsLongestFirst _,
    strict_spellingsLongestFirst _, fun other hother => ?_, ?_, ?_⟩
  · rw [find?_ofList, Option.bind_eq_some_iff]
    simp only [recorded?_ofList_eq_some_iff]
  · rw [find?_ofList, Option.bind_eq_none_iff]
    constructor
    · -- a spelling that answers was recorded, so it has a number
      intro h
      refine Option.eq_none_iff_forall_ne_some.2 fun spelling hanswers => ?_
      have hsome := isSome_recorded?_iff.2 (mem_spellings_ofList.2 (mem_of_answering? hanswers))
      rw [h spelling hanswers] at hsome
      cases hsome
    · intro h spelling hanswers
      rw [h] at hanswers
      cases hanswers
  · rw [(perm_spellingsLongestFirst _).mem_iff, mem_spellings_ofList]
  · refine spellingsLongestFirst_congr fun spelling => ?_
    rw [mem_spellings_ofList, mem_spellings_ofList, hother]
  · have hset : (history.map Prod.fst).toFinset = (ofList history).spellings.toFinset := by
      ext spelling
      rw [List.mem_toFinset, List.mem_toFinset, mem_spellings_ofList]
    have hcard : (ofList history).spellings.toFinset.card = (ofList history).spellings.length :=
      List.toFinset_card_of_nodup (ofList history).nodup
    rw [hset, hcard, spellings, List.length_map, size]
  · -- the other spelling keeps its number, and this is what is looked up first
    intro name value spelling hmem hne
    have hrecorded := isSome_recorded?_iff.2 (mem_spellings_ofList.2 hmem)
    have hkept := recorded?_set (ofList history) name spelling value
    rw [if_neg hne] at hkept
    rw [ofList_concat, find?, find?, hkept, Option.or_of_isSome hrecorded,
      Option.or_of_isSome hrecorded]

/-- Spellings of one name, recorded in turns. -/
theorem find?_and_listing_ofList_of_turns :
    let history := [(utf8 "Fe,", 1.0), (utf8 "FE", 2.0), (utf8 "Fe", 3.0), (utf8 "FE", 4.0)]
    let other := [(utf8 "Fe", 5.0), (utf8 "Fe,", 6.0), (utf8 "FE", 7.0)]
    (ofList history).find? (utf8 "fe, ") = some 4.0 ∧
      (ofList other).spellingsLongestFirst = (ofList history).spellingsLongestFirst ∧
      (ofList (history ++ [(utf8 "fe", 8.0)])).find? (utf8 "Fe,")
        = (ofList history).find? (utf8 "Fe,") := by
  intro history other
  obtain ⟨hfind, -, -, -, -, hlisted, -, hkept⟩ := find?_and_listing_ofList history
  have hlast : LastNumber history (utf8 "FE") 4.0 := ⟨history.take 3, [], rfl, List.not_mem_nil⟩
  refine ⟨(hfind _ _).2 ⟨utf8 "FE", by decide, hlast⟩, hlisted other fun spelling => ?_,
    hkept _ _ _ (by decide) (by decide)⟩
  simp only [history, other, List.map_cons, List.map_nil, List.mem_cons, List.not_mem_nil]
  tauto

end Readings

end AssayRules
