import AssayRules.Proofs.Runs

/-!
# Settled shards

All has gone well with a run when exactly its references are replaced: every reading stands for
a whole reference, and no reference is left in a shard of text. Then the shards are **settled**
(`Settled`), and how they lie is determined by the text (`Settled.alike`), so that over any two
readings that settle a run it evaluates or not.

A name may be found in a text where it is not referred to: in a literal, across an operator, or
as some of the words of a longer name. If it is only found within references (`FoundWithin`),
what can go wrong is that it tears one. Shards that are not torn although names took turns that
might have torn them are settled if no bare name is left (`settled_of_not_torn`). And turns
settle a run if each reference is recorded, and a name that is part of one has its turn when
that one is gone (`settled_of_anticipates`).
-/

namespace AssayRules

open Shard

/-! ### References in a text -/

variable {s t a y b : Text}

/-- What is behind a text in which no word goes on has its names still. -/
theorem bareNames_append_ne_nil (hs : runsOn s.reverse = false) (ht : Name.bareNames t ≠ []) :
    Name.bareNames (s ++ t) ≠ [] := by
  -- byte by byte from behind, as it is the end of the text that could run on into a name
  induction s using List.reverseRecOn generalizing t with
  | nil => exact ht
  | append_singleton s c ih =>
    rw [List.append_assoc, List.singleton_append]
    by_cases hc : Name.continuesName c = true
    · rw [List.reverse_append, List.reverse_singleton, List.singleton_append, runsOn_cons, hc,
        Bool.true_and, Bool.or_eq_false_iff] at hs
      refine ih hs.2 ?_
      rwa [Name.bareNames_cons_of_not_isWord hs.1]
    · rw [Name.bareNames_append_cons (Bool.eq_false_of_not_eq_true hc)]
      exact fun hnil => ht (List.append_eq_nil_iff.1 hnil).2

namespace IsReference

/-- No character is divided at the ends of a reference. -/
theorem isUtf8 (h : IsReference a y b) (hs : (a ++ (y ++ b)).IsUtf8) : y.IsUtf8 ∧ b.IsUtf8 := by
  -- a cut inside a character would have a word byte on both sides of it
  have hfirst : (y ++ b).head?.any isContinuation = false := by
    by_contra hcut
    obtain ⟨hword, -⟩ := hs.isWord_of_isContinuation (Bool.not_eq_false _ ▸ hcut)
    have hbefore := isWord_head_of_runsOn h.before
    rw [List.head?_reverse, hword] at hbefore
    cases hbefore
  have hrest := (hs.of_append hfirst).2
  refine hrest.of_append ?_
  by_contra hcut
  obtain ⟨-, hword⟩ := hrest.isWord_of_isContinuation (Bool.not_eq_false _ ▸ hcut)
  rw [isWord_head_of_runsOn h.behind] at hword
  cases hword

/-- A reference is found as a bare name. -/
theorem bareNames_ne_nil (h : IsReference a y b) : Name.bareNames (a ++ (y ++ b)) ≠ [] := by
  refine bareNames_append_ne_nil h.before ?_
  rw [Name.bareNames_append_of_isBare h.isBare]
  · exact List.cons_ne_nil _ _
  · intro c hc
    refine Name.isSpace_of_continuesName (List.mem_takeWhile_imp hc) ?_
    exact Bool.eq_false_of_not_eq_true (List.any_eq_false.1 h.behind c hc)

/-- A reference is one in a part of the text as well. -/
theorem of_append {a' b' : Text} (h : IsReference (a' ++ a) y (b ++ b')) : IsReference a y b := by
  refine ⟨h.isBare, ?_, ?_⟩
  · by_contra hrun
    have hbefore := h.before
    rw [List.reverse_append, runsOn_append (Bool.not_eq_false _ ▸ hrun)] at hbefore
    cases hbefore
  · by_contra hrun
    have hbehind := h.behind
    rw [runsOn_append (Bool.not_eq_false _ ▸ hrun)] at hbehind
    cases hbehind

/-- **Two references at one place** are the same. -/
theorem eq_of_start {y' b' : Text} (h : IsReference a y b) (h' : IsReference a y' b')
    (heq : y ++ b = y' ++ b') : y = y' := by
  rcases exists_of_append_eq heq with ⟨k, rfl, rfl⟩ | ⟨k, hk, rfl, rfl⟩
  · by_contra hne
    have hk : k ≠ [] := fun hnil => hne (by rw [hnil, List.append_nil])
    have hbehind := h'.behind
    rw [h.isBare.runsOn_append hk] at hbehind
    cases hbehind
  · have hbehind := h.behind
    rw [h'.isBare.runsOn_append hk] at hbehind
    cases hbehind

end IsReference

/-- **A name is found only within references** of a text, and only within such as `P` holds
for. -/
def FoundWithin (P : Text → Prop) (name r : Text) : Prop :=
  ∀ a u t, r = a ++ (u ++ t) → Matching.folded.OccursIn name a.getLast? u t →
    ∃ front m m' back, a = front ++ m ∧ t = m' ++ back ∧
      IsReference front (m ++ (u ++ m')) back ∧ P (m ++ (u ++ m'))

/-- All ways to cut a text in two. -/
def cuts : Text → List (Text × Text)
  | [] => [([], [])]
  | c :: rest => ([], c :: rest) :: (cuts rest).map fun cut => (c :: cut.1, cut.2)

theorem mem_cuts {s a b : Text} : (a, b) ∈ cuts s ↔ s = a ++ b := by
  induction s generalizing a with
  | nil => rw [cuts, List.mem_singleton, Prod.mk.injEq, ← List.append_eq_nil_iff, eq_comm]
  | cons c rest ih =>
    -- the first part is empty, or begins with the first byte
    rw [cuts, List.mem_cons, List.mem_map, Prod.mk.injEq]
    constructor
    · rintro (⟨rfl, rfl⟩ | ⟨⟨a', b'⟩, hcut, heq⟩)
      · rfl
      · cases heq
        rw [ih.1 hcut]
        rfl
    · intro h
      cases a with
      | nil => exact Or.inl ⟨rfl, h.symm⟩
      | cons d a =>
        obtain ⟨rfl, hrest⟩ := List.cons.inj h
        exact Or.inr ⟨(a, b), ih.2 hrest, rfl⟩

instance (a y b : Text) : Decidable (IsReference a y b) :=
  decidable_of_iff (Name.bareNames y = [y] ∧ runsOn a.reverse = false ∧ runsOn b = false)
    ⟨fun h => ⟨h.1, h.2.1, h.2.2⟩, fun h => ⟨h.isBare, h.before, h.behind⟩⟩

/-- Whether a name is found only within references, told from all ways to cut the text. -/
def foundWithin (P : Text → Bool) (name r : Text) : Bool :=
  (cuts r).all fun (a, rest) => (cuts rest).all fun (u, t) =>
    !(u != [] && u.foldCase == name.foldCase && standsAlone name a.getLast? t.head?) ||
      (cuts a).any fun (front, m) => (cuts t).any fun (m', back) =>
        decide (IsReference front (m ++ (u ++ m')) back) && P (m ++ (u ++ m'))

theorem foundWithin_of_eq_true {P : Text → Prop} [DecidablePred P] {name r : Text}
    (h : foundWithin (fun y => decide (P y)) name r = true) : FoundWithin P name r := by
  intro a u t hsplit hoccurs
  -- the cut before the occurrence and the one behind it are among all cuts of the text
  have hpart := List.all_eq_true.1 (List.all_eq_true.1 h _ (mem_cuts.2 hsplit)) _ (mem_cuts.2 rfl)
  have hfound : (u != [] && u.foldCase == name.foldCase
      && standsAlone name a.getLast? t.head?) = true := by
    rw [Bool.and_eq_true, Bool.and_eq_true, bne_iff_ne, beq_iff_eq]
    exact ⟨⟨hoccurs.ne_nil, hoccurs.key_eq⟩, hoccurs.alone⟩
  dsimp only at hpart
  rw [hfound, Bool.not_true, Bool.false_or] at hpart
  -- the one cut that was found to do gives the parts around it
  obtain ⟨⟨front, m⟩, hfront, hpart⟩ := List.any_eq_true.1 hpart
  obtain ⟨⟨m', back⟩, hback, hpart⟩ := List.any_eq_true.1 hpart
  rw [Bool.and_eq_true, decide_eq_true_eq, decide_eq_true_eq] at hpart
  exact ⟨front, m, m', back, mem_cuts.1 hfront, mem_cuts.1 hback, hpart.1, hpart.2⟩

/-- What is found is a reference, or lies within one for which the rest holds. -/
theorem FoundWithin.isReference_or {P : Text → Prop} {name r u : Text}
    (h : FoundWithin (fun y => y.foldCase = name.foldCase ∨ P y) name r)
    (hr : (a ++ (u ++ t)).IsUtf8) (hsplit : r = a ++ (u ++ t))
    (hoccurs : Matching.folded.OccursIn name a.getLast? u t) :
    IsReference a u t ∨ ∃ front m m' back, a = front ++ m ∧ t = m' ++ back ∧
      IsReference front (m ++ (u ++ m')) back ∧ P (m ++ (u ++ m')) := by
  obtain ⟨front, m, m', back, rfl, rfl, hy, hfold | hP⟩ := h a u t hsplit hoccurs
  · -- a part that agrees with the whole is the whole
    left
    have hwhole : front ++ m ++ (u ++ (m' ++ back)) = front ++ ((m ++ (u ++ m')) ++ back) := by
      simp only [List.append_assoc]
    obtain ⟨rfl, rfl⟩ := (Lexeme.infix_of_append (hy.isUtf8 (hwhole ▸ hr)).1 hoccurs.divides
      hoccurs.ne_nil rfl).2 (hoccurs.key_eq.trans hfold.symm)
    simpa only [List.append_nil, List.nil_append] using hy
  · exact Or.inr ⟨front, m, m', back, rfl, rfl, hy, hP⟩

/-! ### Shards that are settled -/

variable {shards others : List Shard}

/-- **Every reading stands for a whole reference.** -/
def Whole (shards : List Shard) : Prop :=
  ∀ front x u back, shards = front ++ .reading x u :: back →
    IsReference (sources front) u (sources back)

theorem Whole.not_torn (h : Whole shards) : ¬ Torn shards := by
  rintro ⟨front, x, u, back, hsplit, hrun⟩
  have hwhole := h front x u back hsplit
  rw [hwhole.before, hwhole.behind] at hrun
  simp at hrun

theorem Whole.singleton (s : Text) : Whole [.text s] := by
  intro front x u back hsplit
  cases (eq_of_singleton_eq hsplit).2.1

/-- A turn that puts readings in for references only. -/
theorem Whole.turn (h : Whole shards) (hsound : Sound shards) (hutf8 : (sources shards).IsUtf8)
    {entry : Text × Float} (hname : entry.1.IsUtf8)
    (hnew : ∀ a u t, sources shards = a ++ (u ++ t) → InText shards a u →
      Matching.folded.OccursIn entry.1 a.getLast? u t → IsReference a u t) :
    Whole (Shard.turn shards entry) := by
  intro front x u back hsplit
  -- a reading was there before, or it is the occurrence that this turn put in
  rcases hsound.exists_of_turn hutf8 hname hsplit with
    ⟨front₀, back₀, hsplit₀, hfront, hback⟩ | ⟨-, hin, hoccurs⟩
  · rw [← hfront, ← hback]
    exact h _ _ _ _ hsplit₀
  · have hsources := sources_turn shards entry
    rw [hsplit, sources_append, sources_cons, source] at hsources
    exact hnew _ _ _ hsources.symm hin hoccurs

/-- **Shards are settled** if the references, and nothing else, have been replaced. -/
structure Settled (shards : List Shard) : Prop where
  sound : Sound shards
  whole : Whole shards
  taken : ∀ a y b, sources shards = a ++ (y ++ b) → IsReference a y b → ¬ InText shards a y

/-- There is a shard at every place of the text. -/
theorem Shard.exists_at {n : Nat} (h : n < (sources shards).length) :
    ∃ front shard back, shards = front ++ shard :: back ∧ (sources front).length ≤ n ∧
      n < (sources front).length + shard.source.length := by
  induction shards generalizing n with
  | nil => exact absurd h (Nat.not_lt_zero n)
  | cons shard rest ih =>
    -- in the first shard, or further on by what that shard covers
    by_cases hlt : n < shard.source.length
    · exact ⟨[], shard, rest, rfl, Nat.zero_le n, by simpa using hlt⟩
    · rw [sources_cons, List.length_append] at h
      have hrest : n - shard.source.length < (sources rest).length := by omega
      obtain ⟨front, other, back, rfl, hle, hlt'⟩ := ih hrest
      refine ⟨shard :: front, other, back, rfl, ?_, ?_⟩ <;>
        rw [sources_cons, List.length_append] <;> omega

namespace Settled

theorem source_ne_nil (h : Settled shards) : ∀ shard ∈ shards, shard.source ≠ [] := by
  intro shard hshard
  obtain ⟨front, back, hsplit⟩ := List.append_of_mem hshard
  cases shard with
  | text s => exact (h.sound front s back hsplit).ne_nil
  | reading x u => exact (h.whole front x u back hsplit).isBare.ne_nil

/-- **Every reference has its reading.** -/
theorem exists_reading (h : Settled shards) (hsources : sources shards = a ++ (y ++ b))
    (hy : IsReference a y b) :
    ∃ front x back, shards = front ++ .reading x y :: back ∧ sources front = a := by
  have hpos := List.length_pos_iff.2 hy.isBare.ne_nil
  have hlength : a.length < (sources shards).length := by
    rw [hsources, List.length_append, List.length_append]
    omega
  obtain ⟨front, shard, back, hshards, hle, hlt⟩ := Shard.exists_at hlength
  -- the shard at the first byte of the reference
  obtain ⟨k, rfl, hk⟩ : ∃ k, a = sources front ++ k ∧
      shard.source ++ sources back = k ++ (y ++ b) := by
    rw [hshards, sources_append, sources_cons] at hsources
    rcases exists_of_append_eq hsources.symm with hcase | ⟨k, hne, hfront, -⟩
    · exact hcase
    · have := List.length_pos_iff.2 hne
      rw [hfront, List.length_append] at hle
      omega
  rw [List.length_append] at hlt
  obtain ⟨k', hne', hshard, hk'⟩ : ∃ k', k' ≠ [] ∧ shard.source = k ++ k' ∧
      k' ++ sources back = y ++ b := by
    rcases exists_of_append_eq hk with ⟨k', hshard, hk'⟩ | ⟨k', hne, rfl, -⟩
    · refine ⟨k', ?_, hshard, hk'.symm⟩
      rintro rfl
      rw [hshard, List.append_nil] at hlt
      omega
    · rw [List.length_append] at hlt
      omega
  cases shard with
  -- a text holds the first byte of the reference, so it holds all of it, or the reference is torn
  | text s =>
    obtain ⟨c, y', rfl⟩ := List.exists_cons_of_ne_nil hy.isBare.ne_nil
    obtain ⟨d, k', rfl⟩ := List.exists_cons_of_ne_nil hne'
    obtain ⟨rfl, -⟩ := List.cons.inj hk'
    have hin : InText shards (sources front ++ k ++ []) [d] :=
      ⟨front, s, back, k, k', hshards, hshard, List.append_nil _⟩
    have hbare : Name.IsBare ([] ++ ([d] ++ y')) := hy.isBare
    rcases h.sound.inText_or_torn hin (List.cons_ne_nil _ _) hsources hbare with hin | htorn
    · exact absurd hin (h.taken _ _ _ hsources hy)
    · exact absurd htorn h.whole.not_torn
  | reading x u =>
    -- a reading stands for a whole reference itself, and the two begin together
    have hu := h.whole front x u back hshards
    have hnil : k = [] := by
      by_contra hne
      have hbare := hu.isBare
      rw [show u = k ++ k' from hshard] at hbare
      have hbefore := hy.before
      rw [hbare.runsOn_reverse hne] at hbefore
      cases hbefore
    subst hnil
    rw [List.append_nil] at hy ⊢
    obtain rfl := hu.eq_of_start hy hk
    exact ⟨front, x, back, hshards, rfl⟩

theorem length_le {p q p' q' : List Shard} {s s' : Text} (h : Settled shards)
    (h' : Settled others) (hshards : shards = p ++ .text s :: q)
    (hothers : others = p' ++ .text s' :: q') (hp : sources p = sources p')
    (hq : s ++ sources q = s' ++ sources q') : s.length ≤ s'.length := by
  by_contra hlt
  rcases exists_of_append_eq hq with ⟨k, rfl, hk⟩ | ⟨k, -, rfl, -⟩
  · -- behind the shorter text is a reading, which would lie within the longer one
    have hnil : q' ≠ [] := by
      rintro rfl
      rw [(List.append_eq_nil_iff.1 hk.symm).1, List.append_nil] at hlt
      exact hlt le_rfl
    obtain ⟨x, u, q'', rfl⟩ := eq_cons_of_next hnil (h'.sound p' s' q' hothers).next
    have hothers' : others = (p' ++ [.text s']) ++ .reading x u :: q'' := by
      rw [hothers, List.append_assoc, List.singleton_append]
    have hu := h'.whole _ x u q'' hothers'
    rw [sources_append, sources_singleton, source, ← hp] at hu
    have hsources : sources shards = (sources p ++ s') ++ (u ++ sources q'') := by
      rw [hshards, sources_append, sources_cons, source, hq, sources_cons, source,
        List.append_assoc]
    obtain ⟨front, y, back, hsplit, hfront⟩ := h.exists_reading hsources hu
    have hpos := List.length_pos_iff.2 hu.isBare.ne_nil
    have hlength := congrArg List.length hfront
    rw [List.length_append] at hlength hlt
    have heq := eq_of_overlap (n := (sources p).length + s'.length)
      (hshards.symm.trans hsplit) (by omega) (by rw [source, List.length_append]; omega)
      (by omega) (by rw [source]; omega)
    cases heq
  · -- the other text is the longer one
    rw [List.length_append] at hlt
    omega

/-- A reading in one row of settled shards is in the other. -/
theorem eq_reading {p q p' q' : List Shard} {x : Float} {u : Text} {shard : Shard}
    (h : Settled shards) (h' : Settled others) (hshards : shards = p ++ .reading x u :: q)
    (hothers : others = p' ++ shard :: q') (hp : sources p = sources p')
    (hq : u ++ sources q = shard.source ++ sources q') : ∃ y, shard = .reading y u := by
  have hu := h.whole p x u q hshards
  -- the reading stands for a reference, which the other list has a reading for at that place
  rw [hp] at hu
  have hsources : sources others = sources p' ++ (u ++ sources q) := by
    rw [hothers, sources_append, sources_cons, hq]
  obtain ⟨front, y, back, hsplit, hfront⟩ := h'.exists_reading hsources hu
  have hpos := List.length_pos_iff.2 hu.isBare.ne_nil
  have hpos' := List.length_pos_iff.2
    (h'.source_ne_nil shard (hothers ▸ List.mem_append_right _ List.mem_cons_self))
  -- two shards that both hold the first byte of the reference are one
  refine ⟨y, eq_of_overlap (n := (sources p').length) (hothers.symm.trans hsplit) ?_ ?_ ?_ ?_⟩
  · exact le_rfl
  · omega
  · rw [hfront]
  · rw [hfront, source]
    omega

/-- **Settled shards are determined by the text**, up to the numbers in them. -/
theorem alike (h : Settled shards) (h' : Settled others)
    (hsources : sources shards = sources others) :
    List.Forall₂ (Piece.Alike fun _ _ => True) (shards.map piece) (others.map piece) := by
  -- shard by shard, what has been passed over being the same text
  suffices hmain : ∀ q p p' q', shards = p ++ q → others = p' ++ q' → sources p = sources p' →
      sources q = sources q' →
      List.Forall₂ (Piece.Alike fun _ _ => True) (q.map piece) (q'.map piece) from
    hmain shards [] [] others rfl rfl rfl hsources
  intro q
  induction q with
  | nil =>
    intro p p' q' hshards hothers hp hq
    cases q' with
    | nil => exact .nil
    | cons shard' q' =>
      -- the two end together, as no shard stands for the empty text
      have hne := h'.source_ne_nil shard' (hothers ▸ List.mem_append_right _ List.mem_cons_self)
      exact absurd (List.append_eq_nil_iff.1 hq.symm).1 hne
  | cons shard q ih =>
    intro p p' q' hshards hothers hp hq
    cases q' with
    | nil =>
      have hne := h.source_ne_nil shard (hshards ▸ List.mem_append_right _ List.mem_cons_self)
      exact absurd (List.append_eq_nil_iff.1 hq).1 hne
    | cons shard' q' =>
      rw [sources_cons, sources_cons] at hq
      -- once the two shards stand for one text, the lists behind them can be compared
      have hrest : shard.source = shard'.source →
          List.Forall₂ (Piece.Alike fun _ _ => True) (q.map piece) (q'.map piece) := by
        intro heq
        refine ih (p ++ [shard]) (p' ++ [shard']) q' ?_ ?_ ?_ ?_
        · rw [hshards, List.append_assoc, List.singleton_append]
        · rw [hothers, List.append_assoc, List.singleton_append]
        · rw [sources_append, sources_append, sources_cons, sources_cons, heq, hp]
        · rw [heq] at hq
          exact List.append_cancel_left hq
      cases shard with
      | reading x u =>
        obtain ⟨y, rfl⟩ := eq_reading h h' hshards hothers hp hq
        exact .cons (.value trivial) (hrest rfl)
      | text s =>
        cases shard' with
        | reading y u =>
          obtain ⟨x, heq⟩ := eq_reading h' h hothers hshards hp.symm hq.symm
          cases heq
        | text s' =>
          -- neither text can be the longer one
          have hlength : s.length = s'.length := Nat.le_antisymm
            (length_le h h' hshards hothers hp hq)
            (length_le h' h hothers hshards hp.symm hq.symm)
          obtain ⟨rfl, -⟩ := List.append_inj hq hlength
          exact .cons (.text s) (hrest rfl)

end Settled

/-! ### Runs that settle -/

namespace Readings

variable {readings : Readings} {r : Text}

@[simp] theorem sources_shards (readings : Readings) (r : Text) :
    sources (readings.shards r) = r := by
  rw [shards, sources_foldl_turn, sources_singleton, source]

theorem sound_shards (hne : r ≠ []) (hr : r.IsUtf8) : Sound (readings.shards r) :=
  (Sound.singleton hne hr).foldl_turn _

theorem mem_spellings_iff {name : Text} :
    name ∈ readings.spellings ↔ ∃ x, (name, x) ∈ readings.entriesLongestFirst := by
  rw [spellings, List.mem_map]
  simp only [(perm_entriesLongestFirst readings).mem_iff]
  constructor
  · rintro ⟨e, he, rfl⟩
    exact ⟨e.2, he⟩
  · rintro ⟨x, h⟩
    exact ⟨_, h, rfl⟩

/-- **A name is anticipated**: what agrees with `y` up to letter case is recorded in a spelling
that has its turn before the name. -/
def Anticipates (readings : Readings) (name y : Text) : Prop :=
  ∃ spelling ∈ readings.spellings,
    spelling.foldCase = y.foldCase ∧ spelling ≠ name ∧ longestFirst spelling name = true

instance (readings : Readings) (name : Text) : DecidablePred (readings.Anticipates name) :=
  fun y => inferInstanceAs (Decidable (∃ spelling ∈ readings.spellings,
    spelling.foldCase = y.foldCase ∧ spelling ≠ name ∧ longestFirst spelling name = true))

/-- A reading in a run was put in for an occurrence of a spelling. -/
theorem occursIn_of_shards (hne : r ≠ []) (hr : r.IsUtf8)
    (hnames : ∀ name ∈ readings.spellings, name.IsUtf8) {front back : List Shard} {x : Float}
    {u : Text} (hsplit : readings.shards r = front ++ .reading x u :: back) :
    r = sources front ++ (u ++ sources back) ∧ ∃ name ∈ readings.spellings,
      Matching.folded.OccursIn name (sources front).getLast? u (sources back) := by
  have hsources := sources_shards readings r
  rw [hsplit, sources_append, sources_cons, source] at hsources
  have hsingle : (sources [Shard.text r]).IsUtf8 := by rwa [sources_singleton]
  refine ⟨hsources.symm, ?_⟩
  -- turn by turn, the last one that changed anything here being the one that put it in
  rcases (Sound.singleton hne hr).exists_of_foldl_turn hsingle
    (fun e he => hnames e.1 (mem_spellings_iff.2 ⟨e.2, he⟩)) hsplit with
    ⟨front₀, back₀, hsplit₀, -, -⟩ | ⟨e, he, -, hoccurs⟩
  · -- there was no reading to begin with
    cases (eq_of_singleton_eq hsplit₀).2.1
  · exact ⟨e.1, mem_spellings_iff.2 ⟨e.2, he⟩, hoccurs⟩

/-- A reference is gone when a name that agrees with it has had its turn. -/
theorem not_inText_of_mem (hne : r ≠ []) (hr : r.IsUtf8) (hsplit : r = a ++ (y ++ b))
    (hy : IsReference a y b) {entries : List (Text × Float)} {e : Text × Float}
    (he : e ∈ entries) (hfold : e.1.foldCase = y.foldCase) :
    ¬ InText (entries.foldl Shard.turn [.text r]) a y := by
  obtain ⟨hy', hb⟩ := hy.isUtf8 (hsplit ▸ hr)
  have hsources : sources [Shard.text r] = a ++ (y ++ b) := by rwa [sources_singleton]
  refine (Sound.singleton hne hr).not_inText_foldl_turn he ?_ hsources (hy.occursIn hy' hb hfold)
  intro hnil
  rw [hnil] at hfold
  exact Text.foldCase_ne_nil hy.isBare.ne_nil hfold.symm

/-- **A reference is gone before the turn** of a name that is anticipated. -/
theorem not_inText_of_anticipates (hne : r ≠ []) (hr : r.IsUtf8)
    {before after : List (Text × Float)} {e : Text × Float}
    (hentries : readings.entriesLongestFirst = before ++ e :: after) (hsplit : r = a ++ (y ++ b))
    (hy : IsReference a y b) (h : readings.Anticipates e.1 y) :
    ¬ InText (before.foldl Shard.turn [.text r]) a y := by
  obtain ⟨spelling, hspelling, hfold, hother, hfirst⟩ := h
  obtain ⟨x, hx⟩ := mem_spellings_iff.1 hspelling
  -- no two spellings are tied, so the other one is listed in front of the name
  have hbefore : (spelling, x) ∈ before := by
    have hsorted := readings.pairwise_longestFirst
    rw [hentries, List.pairwise_append, List.pairwise_cons] at hsorted
    rw [hentries, List.mem_append, List.mem_cons] at hx
    rcases hx with hx | rfl | hx
    · exact hx
    · exact absurd rfl hother
    · exact absurd (longestFirst_antisymm hfirst (hsorted.2.1.1 _ hx)) hother
  exact not_inText_of_mem hne hr hsplit hy hbefore hfold

/-- **A run in which no bare name is left** is settled, unless it is torn. -/
theorem settled_of_not_torn (hne : r ≠ []) (hr : r.IsUtf8)
    (hspelling : ∀ name ∈ readings.spellings, name.IsUtf8 ∧ FoundWithin (fun _ => True) name r)
    (hleft : ((readings.shards r).map piece).flatMap Piece.bareNames = [])
    (htorn : ¬ Torn (readings.shards r)) : Settled (readings.shards r) := by
  refine ⟨sound_shards hne hr, fun front x u back hsplit => ?_, fun a y b hsources hy hin => ?_⟩
  · -- what was put in is all of the reference it lies within
    obtain ⟨hsources, name, hname, hoccurs⟩ :=
      occursIn_of_shards hne hr (fun name hname => (hspelling name hname).1) hsplit
    obtain ⟨a, m, m', b, hfront, hback, hy, -⟩ :=
      (hspelling name hname).2 _ _ _ hsources hoccurs
    by_cases hpart : m ≠ [] ∨ m' ≠ []
    · exact absurd (Torn.of_proper_part hsplit hfront hback hy.isBare hpart) htorn
    · rw [not_or, not_ne_iff, not_ne_iff] at hpart
      obtain ⟨rfl, rfl⟩ := hpart
      rw [List.append_nil] at hfront
      rw [List.nil_append] at hback
      rw [List.nil_append, List.append_nil] at hy
      rwa [hfront, hback]
  · -- a reference that is left would be found as a bare name
    obtain ⟨front, s, back, f, t, hsplit, rfl, rfl⟩ := hin
    have hb : b = t ++ sources back := by
      rw [hsplit, sources_append, sources_cons, source] at hsources
      simp only [List.append_assoc] at hsources
      exact (List.append_cancel_left (List.append_cancel_left
        (List.append_cancel_left hsources))).symm
    rw [hb] at hy
    have hfound := hy.of_append.bareNames_ne_nil
    rw [hsplit, List.map_append, List.flatMap_append, List.append_eq_nil_iff, List.map_cons,
      List.flatMap_cons, List.append_eq_nil_iff] at hleft
    exact hfound hleft.2.1

/-- **A run of which every reference is recorded** is settled if names are found within
references only, each of which agrees with the name or is taken before it. -/
theorem settled_of_anticipates (hne : r ≠ []) (hr : r.IsUtf8)
    (hspelling : ∀ name ∈ readings.spellings, name.IsUtf8 ∧
      FoundWithin (fun y => y.foldCase = name.foldCase ∨ readings.Anticipates name y) name r)
    (hall : ∀ a y b, r = a ++ (y ++ b) → IsReference a y b →
      ∃ name ∈ readings.spellings, name.foldCase = y.foldCase) : Settled (readings.shards r) := by
  -- after any number of turns, every reading stands for a whole reference
  have hwhole : ∀ before after, readings.entriesLongestFirst = before ++ after →
      Whole (before.foldl Shard.turn [.text r]) := by
    intro before
    induction before using List.reverseRecOn with
    | nil => exact fun _ _ => Whole.singleton r
    | append_singleton before e ih =>
      intro after hentries
      rw [List.append_assoc, List.singleton_append] at hentries
      have hbefore := ih (e :: after) hentries
      have hmem : e ∈ readings.entriesLongestFirst :=
        hentries ▸ List.mem_append_right _ List.mem_cons_self
      obtain ⟨hname, hfound⟩ := hspelling e.1 (mem_spellings_iff.2 ⟨e.2, hmem⟩)
      have hsources : sources (before.foldl Shard.turn [.text r]) = r := by
        rw [sources_foldl_turn, sources_singleton, source]
      rw [List.foldl_append, List.foldl_cons, List.foldl_nil]
      refine hbefore.turn ((Sound.singleton hne hr).foldl_turn before) (by rwa [hsources]) hname ?_
      intro a u t hsplit hin hoccurs
      rw [hsources] at hsplit
      rcases hfound.isReference_or (hsplit ▸ hr) hsplit hoccurs with
        hy | ⟨front, m, m', back, rfl, rfl, hy, hlong⟩
      · exact hy
      · -- the reference was taken before, and nothing of it is left to be found
        have hr' : r = front ++ ((m ++ (u ++ m')) ++ back) := by
          rw [hsplit]
          simp only [List.append_assoc]
        have hnot := not_inText_of_anticipates hne hr hentries hr' hy hlong
        rcases ((Sound.singleton hne hr).foldl_turn before).inText_or_torn hin hoccurs.ne_nil
          (hsources.trans hr') hy.isBare with hin | htorn
        · exact absurd hin hnot
        · exact absurd htorn hbefore.not_torn
  -- and no reference is left when all have had their turn
  refine ⟨sound_shards hne hr, hwhole _ [] (List.append_nil _).symm, ?_⟩
  intro a y b hsources hy
  rw [sources_shards] at hsources
  obtain ⟨name, hname, hfold⟩ := hall a y b hsources hy
  obtain ⟨x, hx⟩ := mem_spellings_iff.1 hname
  exact not_inText_of_mem hne hr hsources hy hx hfold

end Readings

end AssayRules
