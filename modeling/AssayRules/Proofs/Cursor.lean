import AssayRules.Proofs.Places
import AssayRules.Proofs.Shards

/-!
# A cursor that goes from one occurrence to the next

Replacing a name can be told as a loop: look for the next occurrence from the cursor on, keep the
text up to it, put the reading in for it, and go on behind it. `Matching.Cuts` is what such a loop
comes to, if it comes to an end. It does, because every occurrence that is found ends behind the
cursor and inside the text (`Matching.exists_cuts`); an empty name would be found again and again
at one place.

What the loop leaves is followed in shards. Two things are kept from one occurrence to the next:
the shards still stand for the text from the cursor on (`Matching.Cuts.sources_eq`), and every
reading among them stands for an occurrence at its place in the whole text
(`Matching.Cuts.of_eq_append`).

The loop is what replacing does (`Matching.cuts_iff`). A text goes by its glyphs there, and every
place at which the loop looks again is between two glyphs, so that the first occurrence from there
on is the one that is taken off there, with all glyphs in front of it plain
(`Matching.Cuts.eq_merge`).
-/

namespace AssayRules

/-! ### Texts between occurrences -/

namespace Shard

variable {s : Text} {start stop : Nat} {x y : Float}

/-- **The text between two places**, as a shard if there is any. -/
def gap (s : Text) (start stop : Nat) : List Shard :=
  if start < stop then [text (s.between start stop)] else []

theorem sources_gap (s : Text) (start stop : Nat) :
    sources (gap s start stop) = s.between start stop := by
  rw [gap]
  split
  · exact sources_singleton _
  · rw [Text.between, Nat.sub_eq_zero_of_le (Nat.le_of_not_lt ‹_›), List.take_zero, sources_nil]

/-- A text between two places is not empty if it is kept. -/
theorem ne_nil_of_text_mem_gap (hstop : stop ≤ s.length) {t : Text}
    (h : text t ∈ gap s start stop) : t ≠ [] := by
  rw [gap] at h
  split at h
  · cases List.mem_singleton.1 h
    refine List.ne_nil_of_length_pos ?_
    rw [Text.length_between (Nat.le_of_lt ‹_›) hstop]
    omega
  · cases h

/-- A reading behind a text is the first one there, or comes later. -/
theorem gap_append_eq {u v : Text} {shards front back : List Shard}
    (h : gap s start stop ++ reading x u :: shards = front ++ reading y v :: back) :
    (front = gap s start stop ∧ y = x ∧ v = u ∧ back = shards) ∨
      ∃ front', front = gap s start stop ++ reading x u :: front' ∧
        shards = front' ++ reading y v :: back := by
  -- either the front ends within the gap, or it goes on behind the first reading
  rcases List.append_eq_append_iff.1 h with ⟨middle, rfl, hmiddle⟩ | ⟨middle, hgap, hmiddle⟩
  · cases middle with
    | nil =>
      obtain ⟨hreading, rfl⟩ := List.cons.inj hmiddle
      cases hreading
      exact Or.inl ⟨List.append_nil _, rfl, rfl, rfl⟩
    | cons shard middle =>
      obtain ⟨rfl, rfl⟩ := List.cons.inj hmiddle
      exact Or.inr ⟨middle, rfl, rfl⟩
  · cases middle with
    | nil =>
      obtain ⟨hreading, rfl⟩ := List.cons.inj hmiddle
      cases hreading
      exact Or.inl ⟨by rw [hgap, List.append_nil], rfl, rfl, rfl⟩
    | cons shard middle =>
      -- what stands in front of the first reading is a text
      obtain ⟨rfl, -⟩ := List.cons.inj hmiddle
      have hmem : reading y v ∈ gap s start stop := by
        rw [hgap]
        simp
      rw [gap] at hmem
      split at hmem <;> simp at hmem

/-- Plain glyphs are merged to one text. -/
theorem merge_map_plain (x : Float) {glyphs : List Glyph} (hne : glyphs ≠ []) :
    merge ((glyphs.map fun glyph => Span.plain glyph.text).map (ofSpan x))
      = [text (glyphs.flatMap Glyph.text)] := by
  obtain ⟨glyph, rest, rfl⟩ := List.exists_cons_of_ne_nil hne
  clear hne
  induction rest generalizing glyph with
  | nil => rw [List.flatMap_singleton]; rfl
  | cons next rest ih =>
    rw [List.map_cons, List.map_cons, ofSpan, merge, ih]
    rfl

/-- Merging neither puts a reading in nor takes one away. -/
theorem any_merge (shards : List Shard) :
    (merge shards).any (fun shard => !shard.isText) = shards.any fun shard => !shard.isText := by
  -- neighbouring texts become one, which changes nothing about readings
  induction shards with
  | nil => rfl
  | cons shard rest ih =>
    cases shard with
    | reading x u => rw [merge, List.any_cons, List.any_cons, ih]
    | text s =>
      rw [merge, List.any_cons, ← ih]
      cases merge rest with
      | nil => rfl
      | cons other others => cases other <;> rfl

/-- A name was found if a reading was put in for it. -/
theorem any_search (mode : Matching) (name : Text) (x : Float) (s : Text) :
    (search mode name x (text s)).any (fun shard => !shard.isText)
      = (mode.spans name s).any Span.isHit := by
  rw [search, any_merge, List.any_map]
  congr 1
  funext span
  cases span <;> rfl

end Shard

/-! ### The loop -/

namespace Matching

open Shard (gap sources)

variable {mode : Matching} {name s : Text} {x : Float} {cursor : Nat} {shards : List Shard}

/-- **What a cursor leaves of a text** from its place on, when it goes from one occurrence to the
next until there is none. -/
inductive Cuts (mode : Matching) (name : Text) (x : Float) (s : Text) : Nat → List Shard → Prop
  /-- Nothing is found any more, and the rest is kept. -/
  | last {cursor : Nat} (hfind : mode.find? name s cursor = none) :
      Cuts mode name x s cursor (gap s cursor s.length)
  /-- The text up to an occurrence is kept, a reading is put in for the occurrence, and the
  cursor goes behind it. -/
  | next {cursor start stop : Nat} {shards : List Shard}
      (hfind : mode.find? name s cursor = some (start, stop))
      (rest : Cuts mode name x s stop shards) :
      Cuts mode name x s cursor
        (gap s cursor start ++ .reading x (s.between start stop) :: shards)

/-- **The loop comes to an end**, wherever it begins: what is found ends behind the cursor and not
behind the text. -/
theorem exists_cuts (mode : Matching) (hname : name ≠ []) (x : Float) (s : Text) (cursor : Nat) :
    ∃ shards, mode.Cuts name x s cursor shards := by
  -- on what is left of the text
  induction hleft : s.length - cursor using Nat.strongRecOn generalizing cursor with
  | ind left ih =>
    subst hleft
    cases hfind : mode.find? name s cursor with
    | none => exact ⟨_, .last hfind⟩
    | some found =>
      obtain ⟨start, stop⟩ := found
      obtain ⟨hcursor, hlt, hle, -⟩ := find?_spec hname hfind
      obtain ⟨shards, hshards⟩ := ih (s.length - stop) (by omega) stop rfl
      exact ⟨_, .next hfind hshards⟩

/-- **Nothing is lost**: the shards stand for the text from the cursor on. -/
theorem Cuts.sources_eq (h : mode.Cuts name x s cursor shards) (hname : name ≠ []) :
    sources shards = s.drop cursor := by
  induction h with
  | @last cursor hfind =>
    rw [Shard.sources_gap, Text.between]
    exact List.take_of_length_le (by rw [List.length_drop])
  | @next cursor start stop shards hfind rest ih =>
    obtain ⟨hcursor, hlt, -⟩ := find?_spec hname hfind
    rw [Shard.sources_append, Shard.sources_gap, Shard.sources_cons, ih, Shard.source,
      Text.between_append_drop s (Nat.le_of_lt hlt), Text.between_append_drop s hcursor]

/-- No text is kept that is empty. -/
theorem Cuts.ne_nil_of_text_mem (h : mode.Cuts name x s cursor shards) (hname : name ≠ [])
    {t : Text} (ht : .text t ∈ shards) : t ≠ [] := by
  induction h with
  | last hfind => exact Shard.ne_nil_of_text_mem_gap (Nat.le_refl _) ht
  | @next cursor start stop shards hfind rest ih =>
    obtain ⟨-, hlt, hle, -⟩ := find?_spec hname hfind
    rcases List.mem_append.1 ht with ht | ht
    · exact Shard.ne_nil_of_text_mem_gap (by omega) ht
    · rcases List.mem_cons.1 ht with ht | ht
      · cases ht
      · exact ih ht

/-- **A reading stands for an occurrence** at its place in the whole text. -/
theorem Cuts.of_eq_append (h : mode.Cuts name x s cursor shards) (hname : name ≠ [])
    {front back : List Shard} {y : Float} {u : Text}
    (hshards : shards = front ++ .reading y u :: back) :
    y = x ∧ u ≠ [] ∧
      s.isAloneAt name (cursor + (sources front).length)
        (cursor + (sources front).length + u.length) = true ∧
      (mode.Divides s → mode.key u = mode.key name) := by
  -- on the turns of the cursor, with the place counted from where this turn began
  induction h generalizing front with
  | last hfind =>
    -- there is only text behind the last occurrence
    rw [gap] at hshards
    split at hshards
    · cases (Shard.eq_of_singleton_eq hshards).2.1
    · exact absurd hshards.symm (by simp)
  | @next cursor start stop shards hfind rest ih =>
    obtain ⟨hcursor, hlt, hle, halone, hkey⟩ := find?_spec hname hfind
    have hgap := Text.length_between hcursor (Nat.le_of_lt (Nat.lt_of_lt_of_le hlt hle))
    have hhit := Text.length_between (Nat.le_of_lt hlt) hle
    rcases Shard.gap_append_eq hshards with ⟨rfl, rfl, rfl, -⟩ | ⟨front, rfl, hrest⟩
    · -- the reading is the first one, at the end of this gap
      rw [Shard.sources_gap, hgap, hhit, Nat.add_sub_cancel' hcursor,
        Nat.add_sub_cancel' (Nat.le_of_lt hlt)]
      exact ⟨rfl, List.ne_nil_of_length_pos (by omega), halone, hkey⟩
    · -- the reading comes later, and its place is counted from behind the first one
      have hplace : cursor + (sources (gap s cursor start
          ++ .reading x (s.between start stop) :: front)).length
            = stop + (sources front).length := by
        rw [Shard.sources_append, Shard.sources_gap, Shard.sources_cons, Shard.source,
          List.length_append, List.length_append, hgap, hhit]
        omega
      rw [hplace]
      exact ih hrest

/-! ### The loop is what replacing does -/

/-- **Plain glyphs are merged** to the text between the places where they begin and end. -/
theorem merge_map_plain (x : Float) {front plain rest : List Glyph}
    (hglyphs : mode.glyphs s = front ++ (plain ++ rest)) :
    Shard.merge ((plain.map fun glyph => Span.plain glyph.text).map (Shard.ofSpan x))
      = gap s (front.flatMap Glyph.text).length ((front ++ plain).flatMap Glyph.text).length := by
  rw [gap, List.flatMap_append, List.length_append, between_of_glyphs hglyphs]
  -- a gap without any glyph is left out
  by_cases hne : plain = []
  · subst hne
    simp [Shard.merge]
  · obtain ⟨glyph, others, rfl⟩ := List.exists_cons_of_ne_nil hne
    have hsolid := isSolid_of_mem_glyphs mode s glyph (by rw [hglyphs]; simp)
    have hpos := List.length_pos_iff.2 hsolid.text_ne_nil
    rw [Shard.merge_map_plain x hne, if_pos]
    rw [List.flatMap_cons, List.length_append]
    omega

/-- **The loop takes off what the glyphs say**, from any place between two of them on. -/
theorem Cuts.eq_merge (h : mode.Cuts name x s cursor shards) (hname : name ≠ [])
    {front behind : List Glyph} (hglyphs : mode.glyphs s = front ++ behind)
    (hcursor : (front.flatMap Glyph.text).length = cursor) :
    shards = Shard.merge ((Target.spans ⟨name, mode.key name⟩
      (front.flatMap Glyph.text).getLast? behind).map (Shard.ofSpan x)) := by
  -- the cursor stands between two glyphs in every turn, so that both walks go over the same glyphs
  induction h generalizing front behind with
  | @last cursor hfind =>
    subst hcursor
    have hplain : mode.glyphs s = front ++ (behind ++ []) := by rw [hglyphs, List.append_nil]
    rw [spans_of_find?_eq_none hglyphs hfind, merge_map_plain x hplain, ← hglyphs,
      flatMap_text_glyphs]
  | @next cursor start stop shards hfind rest ih =>
    subst hcursor
    obtain ⟨plain, used, after, rfl, rfl, rfl, hspans⟩ := exists_spans_of_find? hname hglyphs hfind
    have hused : mode.glyphs s = front ++ plain ++ (used ++ after) := by
      rw [hglyphs, List.append_assoc]
    have hafter : mode.glyphs s = front ++ plain ++ used ++ after := by
      rw [hused, List.append_assoc (front ++ plain)]
    have hrest := ih hafter (by rw [List.flatMap_append, List.length_append])
    rw [hspans, List.map_append, List.map_cons, Shard.ofSpan, Shard.merge_append_reading,
      merge_map_plain x hglyphs, between_of_glyphs hused, hrest]

/-- **The loop over a whole text** comes to what replacing makes of it, and to nothing else. -/
theorem cuts_iff (hname : name ≠ []) :
    mode.Cuts name x s 0 shards ↔ shards = Shard.search mode name x (.text s) := by
  have hglyphs : mode.glyphs s = [] ++ mode.glyphs s := rfl
  have heq : ∀ {shards}, mode.Cuts name x s 0 shards →
      shards = Shard.search mode name x (.text s) := fun h => h.eq_merge hname hglyphs rfl
  refine ⟨heq, ?_⟩
  rintro rfl
  obtain ⟨shards, hshards⟩ := exists_cuts mode hname x s 0
  exact heq hshards ▸ hshards

/-- **An account of what became of a text** in which a name was replaced. -/
structure Accounts (mode : Matching) (name : Text) (x : Float) (s : Text) (shards : List Shard) :
    Prop where
  /-- The loop ends with these shards, and only with them. -/
  ends : ∀ others, mode.Cuts name x s 0 others ↔ others = shards
  /-- Nothing of the text is lost. -/
  sources_eq : sources shards = s
  /-- No text is left that is empty. -/
  text_ne_nil : ∀ t, .text t ∈ shards → t ≠ []
  /-- What is put in is the reading, for an occurrence at its place in the text. -/
  reading : ∀ front y u back, shards = front ++ .reading y u :: back →
    y = x ∧ u ≠ [] ∧
      s.isAloneAt name (sources front).length ((sources front).length + u.length) = true ∧
      (mode.Divides s → mode.key u = mode.key name)

theorem accounts_search (mode : Matching) (hname : name ≠ []) (x : Float) (s : Text) :
    mode.Accounts name x s (Shard.search mode name x (.text s)) := by
  have hcuts : mode.Cuts name x s 0 (Shard.search mode name x (.text s)) :=
    (cuts_iff hname).2 rfl
  refine ⟨fun others => cuts_iff hname, hcuts.sources_eq hname,
    fun t => hcuts.ne_nil_of_text_mem hname, fun front y u back hshards => ?_⟩
  have hreading := hcuts.of_eq_append hname hshards
  rwa [Nat.zero_add] at hreading

end Matching

/-! ### Replacing in pieces -/

/-- **Replacing a name accounts for every piece.** -/
theorem replaceName_accounts (mode : Matching) {name : Text} (hname : name ≠ []) (x : Float)
    (pieces : List Piece) :
    let outcome : Piece → Replacement := Piece.replaceName mode name x
    replaceName mode name x pieces
        = ⟨pieces.flatMap fun piece => (outcome piece).pieces,
          pieces.any fun piece => (outcome piece).found⟩ ∧
      (∀ y, outcome (.value y) = ⟨[.value y], false⟩) ∧
      ∀ s, ∃ shards, mode.Accounts name x s shards ∧
        outcome (.text s)
          = ⟨shards.map Shard.piece, shards.any fun shard => !shard.isText⟩ := by
  intro outcome
  refine ⟨?_, fun y => rfl, fun s => ⟨_, Matching.accounts_search mode hname x s, ?_⟩⟩
  · induction pieces with
    | nil => rfl
    | cons piece rest ih =>
      rw [replaceName, ih]
      rfl
  · rw [Shard.map_piece_search, Shard.any_search]
    rfl

/-- A capital of two bytes that is folded to one, and the name as a part of another, which is left
alone. -/
theorem replaceName_accounts_of_dotted_capital :
    utf8 "iyot" ≠ [] ∧
      replaceName .folded (utf8 "iyot") 2.0 [.text (utf8 "2*İYOT+iyot2"), .value 7.0, .text []]
        = ⟨[.text (utf8 "2*"), .value 2.0, .text (utf8 "+iyot2"), .value 7.0], true⟩ ∧
      ∃ shards, Matching.folded.Accounts (utf8 "iyot") 2.0 (utf8 "2*İYOT+iyot2") shards ∧
        shards.map Shard.piece = [.text (utf8 "2*"), .value 2.0, .text (utf8 "+iyot2")] := by
  have hname : utf8 "iyot" ≠ [] := by decide
  obtain ⟨hpieces, -, htexts⟩ := replaceName_accounts .folded hname 2.0
    [.text (utf8 "2*İYOT+iyot2"), .value 7.0, .text []]
  obtain ⟨shards, haccounts, hshards⟩ := htexts (utf8 "2*İYOT+iyot2")
  have hleft := congrArg Replacement.pieces hshards
  exact ⟨hname, hpieces.trans (by decide +kernel), shards, haccounts,
    hleft.symm.trans (by decide +kernel)⟩

end AssayRules
