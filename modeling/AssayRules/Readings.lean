import AssayRules.Name
import AssayRules.Text.Fold

/-!
# Readings of variables

The **readings** of one value column: a number for each spelling of a variable that
was recorded. A spelling recorded again gets the new number and keeps its place.

A variable is looked up by three rules, in this order: its spelling as it stands, its
canonical spelling, and its canonical spelling up to letter case. When several
recorded spellings agree up to letter case, the one recorded first answers for the
third rule, which is why the order of recording is kept.

Spellings are distinct by construction (`Readings.nodup`), so every value of the type
is one that recording can produce.
-/

namespace AssayRules

/-- **The readings of a column**, in the order their spellings were first recorded. -/
structure Readings where
  /-- Each spelling with its number. -/
  entries : List (Text × Float)
  /-- No spelling is recorded twice. -/
  nodup : (entries.map Prod.fst).Nodup

namespace Readings

/-- No readings. -/
def empty : Readings := ⟨[], List.nodup_nil⟩

/-- The recorded spellings, in the order they were first recorded. -/
def spellings (readings : Readings) : List Text := readings.entries.map Prod.fst

/-- How many spellings are recorded. -/
def size (readings : Readings) : Nat := readings.entries.length

/-- Whether nothing is recorded. -/
def isEmpty (readings : Readings) : Bool := readings.entries.isEmpty

/-! ### Recording -/

/-- The entries with the number of a spelling that is among them replaced. -/
def replaced (entries : List (Text × Float)) (name : Text) (value : Float) :
    List (Text × Float) :=
  entries.map fun entry => if entry.1 = name then (name, value) else entry

@[simp] theorem map_fst_replaced (entries : List (Text × Float)) (name : Text)
    (value : Float) : (replaced entries name value).map Prod.fst = entries.map Prod.fst := by
  simp only [replaced, List.map_map]
  refine List.map_congr_left fun entry _ => ?_
  simp only [Function.comp]
  split
  · rename_i h
    exact h.symm
  · rfl

/-- **Recording a reading.** A new spelling goes behind all others; a known one keeps
its place and gets the new number. -/
def set (readings : Readings) (name : Text) (value : Float) : Readings :=
  if h : name ∈ readings.spellings then
    ⟨replaced readings.entries name value, by rw [map_fst_replaced]; exact readings.nodup⟩
  else
    ⟨readings.entries ++ [(name, value)], by
      rw [List.map_append, List.nodup_append]
      refine ⟨readings.nodup, by simp, fun a ha b hb => ?_⟩
      simp only [List.map_cons, List.map_nil, List.mem_singleton] at hb
      rintro rfl
      exact h (hb ▸ ha)⟩

/-- Recording readings one after the other. -/
def ofList (readings : List (Text × Float)) : Readings :=
  readings.foldl (fun recorded entry => recorded.set entry.1 entry.2) empty

/-! ### Looking up -/

/-- The number recorded under exactly this spelling. -/
def recorded? (readings : Readings) (name : Text) : Option Float := readings.entries.lookup name

/-- The number of the spelling recorded first among those that agree with a name up to
letter case. -/
def folded? (readings : Readings) (name : Text) : Option Float :=
  (readings.entries.find? fun entry => entry.1.foldCase == name.foldCase).map Prod.snd

/-- **The reading of a variable**: by its spelling, by its canonical spelling, or by
its canonical spelling up to letter case, whichever finds one first. -/
def find? (readings : Readings) (name : Text) : Option Float :=
  (readings.recorded? name).or
    ((readings.recorded? (Name.canonical name)).or (readings.folded? (Name.canonical name)))

/-- Whether a variable has a reading. -/
def contains (readings : Readings) (name : Text) : Bool := (readings.find? name).isSome

/-! ### Listing -/

/-- **Longest first**: longer spellings before shorter ones, and those of one length in
the order of their bytes. -/
def longestFirst (a b : Text) : Bool :=
  b.length < a.length || (a.length == b.length && decide (a ≤ b))

/-- An entry put in its place among entries that are sorted longest first. -/
def insertLongestFirst (entry : Text × Float) : List (Text × Float) → List (Text × Float)
  | [] => [entry]
  | other :: rest =>
    if longestFirst entry.1 other.1 then entry :: other :: rest
    else other :: insertLongestFirst entry rest

/-- **The entries, longest spelling first.** A name that contains another comes before
it, and the order of recording has no influence. -/
def entriesLongestFirst (readings : Readings) : List (Text × Float) :=
  readings.entries.foldr insertLongestFirst []

/-- The recorded spellings, longest first. -/
def spellingsLongestFirst (readings : Readings) : List Text :=
  readings.entriesLongestFirst.map Prod.fst

/-! ### First facts -/

@[simp] theorem entries_empty : empty.entries = [] := rfl

@[simp] theorem spellings_empty : empty.spellings = [] := rfl

/-- The spellings after a recording: the same ones if the spelling was known, and else
one more at the end. -/
theorem spellings_set (readings : Readings) (name : Text) (value : Float) :
    (readings.set name value).spellings
      = if name ∈ readings.spellings then readings.spellings
        else readings.spellings ++ [name] := by
  unfold set
  split
  · exact map_fst_replaced _ _ _
  · simp [spellings]

end Readings

end AssayRules
