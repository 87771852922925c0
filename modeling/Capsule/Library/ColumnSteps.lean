import Capsule.Library.VersionColumn

/-!
# One insertion, seen by one key

A `Column` records which version of a fixed key sits in the memory table, in each run of the
top level (oldest first) and in each level below.  `Column.Put` lists what one insertion into
the tree can do to it; the argument is the inserted version, or `none` when the insertion is
for another key.  `Column.Fail` lists what an insertion that throws can have done: a copy of
the memory table may have joined the top level, and part of a cascade may have happened.

The laws at the end are the ones the correctness of the tree rests on: both kinds of step
keep a version at least as new as any there was and invent none, they preserve `Ordered` and
`Shadowed`, and under those two a reader sees the newest version (`top_newest`), notices a
compaction only if it merges a tie of that version (`Cascaded.top_eq_iff`), and notices no
failed insertion where there are no ties (`Fail.top_eq`).
-/

set_option autoImplicit false

namespace Capsule.Library

variable {α τ : Type} [LinearOrder τ] {stamp : α → τ}

/-- The versions of one key: in the memory table, in the runs of the top level from the oldest
to the newest, and in the levels below. -/
structure Column (α : Type) where
  /-- the version in the memory table -/
  mem : Option α
  /-- the versions in the runs of the top level, oldest run first -/
  l0 : List (Option α)
  /-- the versions in the sorted levels, topmost level first -/
  lv : ℕ → Option α

namespace Column

/-- The version is stored in some place. -/
def Holds (c : Column α) (x : α) : Prop :=
  c.mem = some x ∨ some x ∈ c.l0 ∨ ∃ i, c.lv i = some x

/-- What a reader finds: memory table first, then the runs of the top level in storage order,
then the levels from the top. -/
noncomputable def top (c : Column α) : Option α :=
  c.mem.or ((c.l0.findSome? id).or (firstSome c.lv))

/-- Every version stands in the relation `r` to those in places read before its own.  (In the top
level the newest run is the last one.) -/
structure OrderedBy (r : α → α → Prop) (c : Column α) : Prop where
  /-- the top level against the memory table -/
  mem_l0 : ∀ x y, c.mem = some x → some y ∈ c.l0 → r y x
  /-- an earlier run of the top level against a later one -/
  l0 : c.l0.Pairwise fun a b => ∀ x y, a = some x → b = some y → r x y
  /-- the levels against memory table and top level -/
  tops : ∀ x i y, (c.mem = some x ∨ some x ∈ c.l0) → c.lv i = some y → r y x
  /-- a level against those above -/
  levels : ∀ i j x y, i < j → c.lv i = some x → c.lv j = some y → r y x

/-- A place read before another holds a version at least as new. -/
abbrev Ordered (stamp : α → τ) (c : Column α) : Prop := OrderedBy (fun y x => stamp y ≤ stamp x) c

/-- A place read before another holds a newer version. -/
abbrev StrictlyOrdered (stamp : α → τ) (c : Column α) : Prop :=
  OrderedBy (fun y x => stamp y < stamp x) c

/-- Of the runs of the top level only the first may hold a version that the memory table does
not shadow. -/
def Shadowed (c : Column α) : Prop := c.mem = none → ∀ a ∈ c.l0.tail, a = none

/-- Equally stamped versions are the same version. -/
def TieFree (stamp : α → τ) (c : Column α) : Prop :=
  ∀ x y, c.Holds x → c.Holds y → stamp x = stamp y → x = y

/-- The version a compaction pushes into the levels: the merge of the runs of the top level
with the memory table, which has just been written out as their last run. -/
def source (stamp : α → τ) (c : Column α) : Option α := pickAll stamp (c.l0 ++ [c.mem])

/-- What one insertion does to the column of a key.  `p` is the inserted version when the
insertion is for this key. -/
inductive Put (stamp : α → τ) (p : Option α) : Column α → Column α → Prop
  /-- the memory table has a version at least as new -/
  | discard {c : Column α} {x q : α} (hp : p = some x) (hmem : c.mem = some q)
      (hle : stamp x ≤ stamp q) : Put stamp p c c
  /-- the memory table has an older version -/
  | overwrite {c : Column α} {x q : α} (hp : p = some x) (hmem : c.mem = some q)
      (hlt : stamp q < stamp x) : Put stamp p c { c with mem := some x }
  /-- the memory table has no version of the inserted key and room for one -/
  | insert {c : Column α} (hp : p.isSome → c.mem = none) :
      Put stamp p c { c with mem := p.or c.mem }
  /-- the memory table is written out as the only run of the top level -/
  | flush {c : Column α} (hp : p.isSome → c.mem = none) (h0 : c.l0 = []) :
      Put stamp p c { c with mem := p, l0 := [c.mem] }
  /-- the memory table is written out and the top level pushed into the levels -/
  | compact {c : Column α} {down keep : ℕ → Option α} (hp : p.isSome → c.mem = none)
      (hsp : ∀ i, Splits (c.lv i) (down i) (keep i)) :
      Put stamp p c ⟨p, [], cascade stamp (c.source stamp) down keep⟩

/-- What making room in the memory table does to the column of any key. -/
inductive Reorg (stamp : α → τ) : Column α → Column α → Prop
  /-- there is room -/
  | idle {c : Column α} : Reorg stamp c c
  /-- the memory table is written out as the only run of the top level -/
  | flush {c : Column α} (h0 : c.l0 = []) : Reorg stamp c { c with mem := none, l0 := [c.mem] }
  /-- the memory table is written out and the top level pushed into the levels -/
  | compact {c : Column α} {down keep : ℕ → Option α}
      (hsp : ∀ i, Splits (c.lv i) (down i) (keep i)) :
      Reorg stamp c ⟨none, [], cascade stamp (c.source stamp) down keep⟩

/-- A compaction in which the levels hand down the versions `down`. -/
def Cascaded (stamp : α → τ) (down : ℕ → Option α) (c c' : Column α) : Prop :=
  ∃ keep : ℕ → Option α, (∀ i, Splits (c.lv i) (down i) (keep i)) ∧
    c' = ⟨none, [], cascade stamp (c.source stamp) down keep⟩

/-- A compaction in which the levels hand down `down` merges the visible version with an equally
stamped, different one. -/
inductive MergesTie (stamp : α → τ) (down : ℕ → Option α) (c : Column α) : Prop
  /-- the visible version is in the memory table or the top level, and the first level keeps a
  version -/
  | source {x y : α} (hx : c.source stamp = some x) (hy : c.lv 0 = some y) (hkeep : down 0 = none)
      (hst : stamp x = stamp y) (hne : x ≠ y)
  /-- the visible version is in a level that hands it down, and the level below keeps a version -/
  | level {i : ℕ} {x y : α} (hs : c.source stamp = none) (habove : ∀ j < i, c.lv j = none)
      (hx : down i = some x) (hy : c.lv (i + 1) = some y) (hkeep : down (i + 1) = none)
      (hst : stamp x = stamp y) (hne : x ≠ y)

/-- What an insertion that throws leaves of the column. -/
inductive Fail (stamp : α → τ) : Column α → Column α → Prop
  /-- the memory table may have been written out, and the levels partly pushed down -/
  | intro {c : Column α} {l0 : List (Option α)} {down keep : ℕ → Option α}
      (h0 : l0 = c.l0 ∨ l0 = c.l0 ++ [c.mem])
      (hsp : ∀ i, Splits (c.lv i) (down i) (keep i)) :
      Fail stamp c ⟨c.mem, l0, cascade stamp none down keep⟩

variable {c c' : Column α} {p : Option α}

/-- Making room and filing the new version is an insertion. -/
theorem Reorg.put (h : Reorg stamp c c') (hp : p.isSome → c.mem = none) :
    Put stamp p c { c' with mem := p.or c'.mem } := by
  cases h with
  | idle => exact Put.insert hp
  | flush h0 =>
    rw [Option.or_none]
    exact Put.flush hp h0
  | compact hsp =>
    rw [Option.or_none]
    exact Put.compact hp hsp

/-- Nothing happening counts as a failure. -/
theorem Fail.refl (c : Column α) : Fail stamp c c := by
  have hsp : ∀ i, Splits (c.lv i) ((fun _ => none) i) (c.lv i) := fun i => Or.inl ⟨rfl, rfl⟩
  have h : Fail stamp c ⟨c.mem, c.l0, cascade stamp none (fun _ => none) c.lv⟩ :=
    Fail.intro (Or.inl rfl) hsp
  have hlv : cascade stamp none (fun _ => none) c.lv = c.lv := by
    funext i
    cases i <;> simp [cascade]
  rwa [hlv] at h

/-! ## The source of a compaction -/

/-- The source of a flush is in the memory table or in L0. -/
theorem source_mem {x : α} (h : c.source stamp = some x) : c.mem = some x ∨ some x ∈ c.l0 := by
  have := pickAll_mem h
  simp only [List.mem_append, List.mem_singleton] at this
  exact this.symm.imp_left Eq.symm

/-- The source of a flush is a version that the column holds. -/
theorem source_holds {x : α} (h : c.source stamp = some x) : c.Holds x :=
  (source_mem h).imp_right Or.inl

variable (stamp) in
/-- No version in the memory table or in L0 is newer than the source. -/
theorem source_retains {x : α} (h : c.mem = some x ∨ some x ∈ c.l0) :
    ∃ y, c.source stamp = some y ∧ stamp x ≤ stamp y := by
  apply pickAll_retains
  simp only [List.mem_append, List.mem_singleton]
  exact h.symm.imp_right Eq.symm

/-- Under the two invariants the source is what a reader finds above the levels. -/
theorem source_eq (ho : c.Ordered stamp) (hs : c.Shadowed) :
    c.source stamp = c.mem.or (c.l0.findSome? id) := by
  unfold source
  cases hm : c.mem with
  | some x =>
    rw [Option.some_or]
    exact pickAll_concat_newest fun y hy => ho.mem_l0 x y hm hy
  | none =>
    rw [Option.none_or, pickAll_concat, pick_none_right]
    have htail := hs hm
    cases hl : c.l0 with
    | nil => rfl
    | cons a l =>
      rw [hl, List.tail_cons] at htail
      -- every run after the first is empty at this key
      have hrest : ∀ b : Option α, l.foldl (pick stamp) b = b := by
        clear hl
        induction l with
        | nil => exact fun b => rfl
        | cons d l ih =>
          intro b
          rw [List.foldl_cons, htail d (by simp), pick_none_right]
          exact ih (fun e he => htail e (List.mem_cons_of_mem _ he)) b
      have hfind : l.findSome? id = none := by
        rw [List.findSome?_eq_none_iff]
        exact htail
      rw [pickAll, List.foldl_cons, hrest, pick_none_left, List.findSome?_cons]
      cases a with
      | none => simp [hfind]
      | some x => rfl

/-- In an ordered column the source stands over the levels. -/
theorem descendingBy {r : α → α → Prop} (ho : c.OrderedBy r) :
    DescendingBy r (c.source stamp) c.lv :=
  ⟨fun x i y hx hy => ho.tops x i y (source_mem hx) hy, ho.levels⟩

/-! ## No version is lost and none is invented -/

/-- **An insertion invents no version.** -/
theorem Put.source (h : Put stamp p c c') {y : α} (hy : c'.Holds y) :
    c.Holds y ∨ p = some y := by
  cases h with
  | discard => exact Or.inl hy
  | @overwrite x q hp hmem hlt =>
    rcases hy with hy | hy
    · exact Or.inr (hp.trans hy)
    · exact Or.inl (Or.inr hy)
  | insert hp =>
    rcases hy with hy | hy
    · cases p with
      | none => exact Or.inl (Or.inl (by simpa using hy))
      | some x => exact Or.inr (by simpa using hy)
    · exact Or.inl (Or.inr hy)
  | flush hp h0 =>
    rcases hy with hy | hy | hy
    · exact Or.inr hy
    · exact Or.inl (Or.inl (List.mem_singleton.mp hy).symm)
    · exact Or.inl (Or.inr (Or.inr hy))
  | compact hp hsp =>
    rcases hy with hy | hy | ⟨i, hy⟩
    · exact Or.inr hy
    · simp at hy
    · rcases cascade_source hsp hy with h | ⟨j, h⟩
      · exact Or.inl (source_holds h)
      · exact Or.inl (Or.inr (Or.inr ⟨j, h⟩))

/-- **An insertion loses no newest version**: whatever was stored, something at least as new
is stored afterwards. -/
theorem Put.retains (h : Put stamp p c c') {x : α} (hx : c.Holds x) :
    ∃ y, c'.Holds y ∧ stamp x ≤ stamp y := by
  cases h with
  | discard => exact ⟨x, hx, le_rfl⟩
  | @overwrite z q hp hmem hlt =>
    rcases hx with hx | hx
    · rw [hmem] at hx
      obtain rfl := Option.some.inj hx
      exact ⟨z, Or.inl rfl, hlt.le⟩
    · exact ⟨x, Or.inr hx, le_rfl⟩
  | insert hp =>
    rcases hx with hx | hx
    · cases p with
      | none => exact ⟨x, Or.inl (by simpa using hx), le_rfl⟩
      | some z => simp [hp rfl] at hx
    · exact ⟨x, Or.inr hx, le_rfl⟩
  | flush hp h0 =>
    rcases hx with hx | hx | hx
    · exact ⟨x, Or.inr (Or.inl (by simp [hx])), le_rfl⟩
    · simp [h0] at hx
    · exact ⟨x, Or.inr (Or.inr hx), le_rfl⟩
  | @compact down keep hp hsp =>
    have htops : ∀ x, c.mem = some x ∨ some x ∈ c.l0 →
        ∃ y, Holds ⟨p, [], cascade stamp (c.source stamp) down keep⟩ y ∧ stamp x ≤ stamp y := by
      intro x hx
      obtain ⟨y, hy, hle⟩ := source_retains stamp hx
      obtain ⟨i, z, hz, hle'⟩ :=
        cascade_retains_source stamp down keep hy
      exact ⟨z, Or.inr (Or.inr ⟨i, hz⟩), hle.trans hle'⟩
    rcases hx with hx | hx | ⟨i, hx⟩
    · exact htops x (Or.inl hx)
    · exact htops x (Or.inr hx)
    · obtain ⟨j, y, hy, hle⟩ := cascade_retains stamp (c.source stamp) hsp hx
      exact ⟨y, Or.inr (Or.inr ⟨j, hy⟩), hle⟩

/-- The inserted version, or one at least as new, is stored afterwards. -/
theorem Put.retains_new (h : Put stamp p c c') {x : α} (hx : p = some x) :
    ∃ y, c'.Holds y ∧ stamp x ≤ stamp y := by
  cases h with
  | @discard z q hp hmem hle =>
    rw [hx] at hp
    obtain rfl := Option.some.inj hp
    exact ⟨q, Or.inl hmem, hle⟩
  | @overwrite z q hp hmem hlt =>
    rw [hx] at hp
    exact ⟨z, Or.inl rfl, by rw [Option.some.inj hp]⟩
  | insert hp => exact ⟨x, Or.inl (by simp [hx]), le_rfl⟩
  | flush hp h0 => exact ⟨x, Or.inl hx, le_rfl⟩
  | compact hp hsp => exact ⟨x, Or.inl hx, le_rfl⟩

/-- A failed put adds no version. -/
theorem Fail.source (h : Fail stamp c c') {y : α} (hy : c'.Holds y) : c.Holds y := by
  cases h with
  | intro h0 hsp =>
    rcases hy with hy | hy | ⟨i, hy⟩
    · exact Or.inl hy
    · rcases h0 with rfl | rfl
      · exact Or.inr (Or.inl hy)
      · rcases List.mem_append.mp hy with hy | hy
        · exact Or.inr (Or.inl hy)
        · exact Or.inl (List.mem_singleton.mp hy).symm
    · rcases cascade_source hsp hy with h | h
      · simp at h
      · exact Or.inr (Or.inr h)

/-! ## The invariants are kept -/

/-- A put keeps what shadows the levels. -/
theorem Put.shadowed (h : Put stamp p c c') (hs : c.Shadowed) : c'.Shadowed := by
  cases h with
  | discard => exact hs
  | overwrite hp hmem hlt => exact fun h => by simp at h
  | insert hp =>
    intro h a ha
    rw [Option.or_eq_none_iff] at h
    exact hs h.2 a ha
  | flush hp h0 => exact fun _ a ha => by simp at ha
  | compact hp hsp => exact fun _ a ha => by simp at ha

/-- A failed put keeps what shadows the levels. -/
theorem Fail.shadowed (h : Fail stamp c c') (hs : c.Shadowed) : c'.Shadowed := by
  cases h with
  | intro h0 hsp =>
    intro hm a ha
    rcases h0 with rfl | rfl
    · exact hs hm a ha
    · cases hl : c.l0 with
      | nil => simp [hl] at ha
      | cons b l =>
        simp only [hl, List.cons_append, List.tail_cons, List.mem_append,
          List.mem_singleton] at ha
        rcases ha with ha | rfl
        · exact hs hm a (by simpa [hl] using ha)
        · exact hm

/-- **The order of the places is kept** by inserting a version that stands above everything
stored, unless the memory table compares it with its own version. -/
theorem Put.orderedBy (h : Put stamp p c c') {r : α → α → Prop}
    (htrans : ∀ x y z, r x y → r y z → r x z) (hlt : ∀ x y, stamp x < stamp y → r x y)
    (ho : c.OrderedBy r) (hnew : ∀ x, p = some x → c.mem = none → ∀ y, c.Holds y → r y x) :
    c'.OrderedBy r := by
  cases h with
  | discard => exact ho
  | @overwrite x q hp hmem hover =>
    refine ⟨fun a b ha hb => ?_, ho.l0, fun a i b ha hb => ?_, ho.levels⟩
    · rw [← Option.some.inj ha]
      exact htrans _ _ _ (ho.mem_l0 q b hmem hb) (hlt _ _ hover)
    · rcases ha with ha | ha
      · rw [← Option.some.inj ha]
        exact htrans _ _ _ (ho.tops q i b (Or.inl hmem) hb) (hlt _ _ hover)
      · exact ho.tops a i b (Or.inr ha) hb
  | insert hp =>
    cases p with
    | none => simpa using ho
    | some x =>
      have hx := hnew x rfl (hp rfl)
      refine ⟨fun a b ha hb => ?_, ho.l0, fun a i b ha hb => ?_, ho.levels⟩
      · rw [← Option.some.inj ha]
        exact hx b (Or.inr (Or.inl hb))
      · rcases ha with ha | ha
        · rw [← Option.some.inj ha]
          exact hx b (Or.inr (Or.inr ⟨i, hb⟩))
        · exact ho.tops a i b (Or.inr ha) hb
  | flush hp h0 =>
    refine ⟨fun a b ha hb => ?_, by simp, fun a i b ha hb => ?_, ho.levels⟩
    · exact hnew a ha (hp (Option.isSome_of_eq_some ha)) b (Or.inl (List.mem_singleton.mp hb).symm)
    · rcases ha with ha | ha
      · exact hnew a ha (hp (Option.isSome_of_eq_some ha)) b (Or.inr (Or.inr ⟨i, hb⟩))
      · exact ho.tops a i b (Or.inl (List.mem_singleton.mp ha).symm) hb
  | compact hp hsp =>
    refine ⟨by simp, by simp, fun a i b ha hb => ?_,
      ((descendingBy ho).cascade hsp).levels⟩
    rcases ha with ha | ha
    · have hb' : c.Holds b := by
        rcases cascade_source hsp hb with h | ⟨j, h⟩
        · exact source_holds h
        · exact Or.inr (Or.inr ⟨j, h⟩)
      exact hnew a ha (hp (Option.isSome_of_eq_some ha)) b hb'
    · simp at ha

/-- A put keeps a column ordered, if its version is not older than what it cannot see. -/
theorem Put.ordered (h : Put stamp p c c') (ho : c.Ordered stamp)
    (hnew : ∀ x, p = some x → c.mem = none → ∀ y, c.Holds y → stamp y ≤ stamp x) :
    c'.Ordered stamp :=
  h.orderedBy (fun _ _ _ => le_trans) (fun _ _ => le_of_lt) ho hnew

/-- A put keeps a column strictly ordered, if its version is newer than what it cannot see. -/
theorem Put.strictlyOrdered (h : Put stamp p c c') (ho : c.StrictlyOrdered stamp)
    (hnew : ∀ x, p = some x → c.mem = none → ∀ y, c.Holds y → stamp y < stamp x) :
    c'.StrictlyOrdered stamp :=
  h.orderedBy (fun _ _ _ => lt_trans) (fun _ _ hlt => hlt) ho hnew

/-- A failed put keeps a column ordered. -/
theorem Fail.ordered (h : Fail stamp c c') (ho : c.Ordered stamp) : c'.Ordered stamp := by
  cases h with
  | @intro l0 down keep h0 hsp =>
    have hl0 : ∀ x, some x ∈ l0 → c.mem = some x ∨ some x ∈ c.l0 := by
      intro x hx
      rcases h0 with rfl | rfl
      · exact Or.inr hx
      · rcases List.mem_append.mp hx with hx | hx
        · exact Or.inr hx
        · exact Or.inl (List.mem_singleton.mp hx).symm
    have hd : Descending stamp none c.lv := ⟨by simp, ho.levels⟩
    refine ⟨fun x y hx hy => ?_, ?_, fun x i y hx hy => ?_, (hd.cascade hsp).levels⟩
    · rcases hl0 y hy with hy | hy
      · rw [show c.mem = some x from hx] at hy
        rw [Option.some.inj hy]
      · exact ho.mem_l0 x y hx hy
    · rcases h0 with rfl | rfl
      · exact ho.l0
      · refine List.pairwise_append.mpr ⟨ho.l0, by simp, fun a ha b hb x y hx hy => ?_⟩
        rw [List.mem_singleton] at hb
        exact ho.mem_l0 y x (hb ▸ hy) (hx ▸ ha)
    · obtain ⟨j, hj⟩ := (cascade_source hsp hy).resolve_left (by simp)
      exact ho.tops x j y (hx.elim Or.inl (hl0 x)) hj

/-! ## What a reader sees -/

/-- The top of a column is a version that it holds. -/
theorem top_holds {x : α} (h : c.top = some x) : c.Holds x := by
  unfold top at h
  rcases Option.or_eq_some_iff.mp h with h | ⟨_, h⟩
  · exact Or.inl h
  · rcases Option.or_eq_some_iff.mp h with h | ⟨_, h⟩
    · obtain ⟨a, ha, hx⟩ := List.exists_of_findSome?_eq_some h
      exact Or.inr (Or.inl (by simpa [show a = some x from hx] using ha))
    · obtain ⟨i, hi, _⟩ := firstSome_eq_some_iff.mp h
      exact Or.inr (Or.inr ⟨i, hi⟩)

/-- A reader finds something if anything is stored. -/
theorem top_isSome {y : α} (hy : c.Holds y) : ∃ x, c.top = some x := by
  rw [← Option.ne_none_iff_exists']
  intro hnone
  simp only [top, Option.or_eq_none_iff, List.findSome?_eq_none_iff, firstSome_eq_none_iff] at hnone
  obtain ⟨hm, h0, hlv⟩ := hnone
  rcases hy with hy | hy | ⟨i, hy⟩
  · simp [hm] at hy
  · simpa using h0 _ hy
  · simp [hlv i] at hy

/-- **A reader finds the newest version.** -/
theorem top_newest (ho : c.Ordered stamp) (hs : c.Shadowed) {x y : α} (hx : c.top = some x)
    (hy : c.Holds y) : stamp y ≤ stamp x := by
  have hsrc := source_eq ho hs
  rw [top, ← Option.or_assoc, ← hsrc] at hx
  rcases Option.or_eq_some_iff.mp hx with hx | ⟨hnone, hx⟩
  · rcases hy with hy | hy | ⟨i, hy⟩
    · obtain ⟨z, hz, hle⟩ := source_retains stamp (Or.inl hy)
      rw [hx] at hz
      rwa [Option.some.inj hz]
    · obtain ⟨z, hz, hle⟩ := source_retains stamp (Or.inr hy)
      rw [hx] at hz
      rwa [Option.some.inj hz]
    · exact (descendingBy ho).source x i y hx hy
  · obtain ⟨i, hi, hlt⟩ := firstSome_eq_some_iff.mp hx
    have habsent : ¬ (c.mem = some y ∨ some y ∈ c.l0) := fun h => by
      obtain ⟨z, hz, _⟩ := source_retains stamp h
      simp [hnone] at hz
    rcases hy with hy | hy | ⟨j, hy⟩
    · exact absurd (Or.inl hy) habsent
    · exact absurd (Or.inr hy) habsent
    · rcases Nat.lt_trichotomy i j with h | rfl | h
      · exact ho.levels i j x y h hi hy
      · rw [hi] at hy
        rw [Option.some.inj hy]
      · simp [hlt j h] at hy

omit [LinearOrder τ] in
/-- Without ties no push meets one. -/
theorem TieFree.noTie (ht : c.TieFree stamp) {s : Option α} {down keep : ℕ → Option α}
    (hs : ∀ x, s = some x → c.Holds x) (hsp : ∀ i, Splits (c.lv i) (down i) (keep i)) :
    NoTie stamp s c.lv down keep :=
  ⟨fun x y hx hy => ht x y (hs x hx) (Or.inr (Or.inr ⟨0, ((hsp 0).keep_eq hy).1⟩)),
    fun i x y _ _ hx hy => ht x y (Or.inr (Or.inr ⟨i, ((hsp i).down_eq hx).1⟩))
      (Or.inr (Or.inr ⟨i + 1, ((hsp (i + 1)).keep_eq hy).1⟩))⟩

/-- A cascade of merges is a reorganisation of the column. -/
theorem Cascaded.reorg {down : ℕ → Option α} (h : Cascaded stamp down c c') :
    Reorg stamp c c' := by
  obtain ⟨keep, hsp, rfl⟩ := h
  exact Reorg.compact hsp

omit [LinearOrder τ] in
/-- What stays of a level is what it holds and does not hand down. -/
theorem keep_eq_some_iff {r down keep : Option α} (h : Splits r down keep) {y : α} :
    keep = some y ↔ r = some y ∧ down = none := by
  refine ⟨fun hy => h.keep_eq hy, fun ⟨hr, hdown⟩ => ?_⟩
  rcases h with ⟨-, hkeep⟩ | ⟨hd, -⟩
  · rw [hkeep, hr]
  · rw [hdown, hr] at hd
    simp at hd

/-- No merge on the way meets a tie exactly if no tie is merged. -/
theorem noTie_iff {down keep : ℕ → Option α} (hsp : ∀ i, Splits (c.lv i) (down i) (keep i)) :
    NoTie stamp (c.source stamp) c.lv down keep ↔ ¬ MergesTie stamp down c := by
  constructor
  · rintro ht (⟨hx, hy, hkeep, hst, hne⟩ | ⟨hs, habove, hx, hy, hkeep, hst, hne⟩)
    · exact hne (ht.source _ _ hx ((keep_eq_some_iff (hsp 0)).mpr ⟨hy, hkeep⟩) hst)
    · exact hne (ht.moved _ _ _ hs habove hx ((keep_eq_some_iff (hsp _)).mpr ⟨hy, hkeep⟩) hst)
  · intro h
    refine ⟨fun x y hx hy hst => ?_, fun i x y hs habove hx hy hst => ?_⟩ <;> by_contra hne
    · obtain ⟨hy, hkeep⟩ := (keep_eq_some_iff (hsp 0)).mp hy
      exact h (MergesTie.source hx hy hkeep hst hne)
    · obtain ⟨hy, hkeep⟩ := (keep_eq_some_iff (hsp (i + 1))).mp hy
      exact h (MergesTie.level hs habove hx hy hkeep hst hne)

/-- **When a compaction is invisible**: exactly when it does not merge a tie of the visible
version. -/
theorem Cascaded.top_eq_iff {down : ℕ → Option α} (h : Cascaded stamp down c c')
    (ho : c.Ordered stamp) (hs : c.Shadowed) : c'.top = c.top ↔ ¬ MergesTie stamp down c := by
  obtain ⟨keep, hsp, rfl⟩ := h
  have htop : c.top = (c.source stamp).or (firstSome c.lv) := by
    rw [source_eq ho hs, top, Option.or_assoc]
  have htop' : top ⟨none, [], cascade stamp (c.source stamp) down keep⟩ =
      firstSome (cascade stamp (c.source stamp) down keep) := by
    simp [top]
  rw [htop, htop', ← noTie_iff hsp]
  exact ⟨noTie_of_firstSome_cascade hsp, firstSome_cascade hsp (descendingBy ho)⟩

omit [LinearOrder τ] in
/-- Writing the memory table out into an empty top level is invisible. -/
theorem top_flush (h0 : c.l0 = []) : top { c with mem := none, l0 := [c.mem] } = c.top := by
  unfold top
  rw [h0, List.findSome?_cons]
  cases c.mem <;> rfl

/-- A version that the memory table does not have yet gets there. -/
theorem Put.mem_new (h : Put stamp p c c') {x : α} (hx : p = some x) (hm : c.mem = none) :
    c'.mem = some x := by
  subst hx
  cases h with
  | discard hp hmem => simp [hm] at hmem
  | overwrite hp => exact hp.symm
  | insert => rfl
  | flush => rfl
  | compact => rfl

/-- A version no newer than the one in the memory table changes nothing. -/
theorem Put.eq_of_le (h : Put stamp p c c') {x q : α} (hx : p = some x) (hm : c.mem = some q)
    (hle : stamp x ≤ stamp q) : c' = c := by
  subst hx
  cases h with
  | discard => rfl
  | overwrite hp hmem hlt =>
    rw [hm] at hmem
    obtain rfl := Option.some.inj hp
    obtain rfl := Option.some.inj hmem
    exact absurd hle hlt.not_ge
  | insert hp => simp [hp rfl] at hm
  | flush hp => simp [hp rfl] at hm
  | compact hp => simp [hp rfl] at hm

/-- **A failed insertion is invisible**, in a column without ties. -/
theorem Fail.top_eq (h : Fail stamp c c') (ho : c.Ordered stamp) (ht : c.TieFree stamp) :
    c'.top = c.top := by
  cases h with
  | @intro l0 down keep h0 hsp =>
    have hd : Descending stamp none c.lv := ⟨by simp, ho.levels⟩
    have hlv : firstSome (cascade stamp none down keep) = firstSome c.lv := by
      rw [firstSome_cascade hsp hd (ht.noTie (by simp) hsp), Option.none_or]
    unfold top
    simp only [hlv]
    cases hm : c.mem with
    | some x => rfl
    | none =>
      rcases h0 with rfl | rfl
      · rfl
      · simp [hm, List.findSome?_append]

end Column

end Capsule.Library
