import Mathlib

/-!
# Splitting at a delimiter

`split d s` cuts `s` at the leftmost occurrence of the delimiter `d`, and goes on behind it.  The
pieces in front of a delimiter are those in which the delimiter cannot show up too early:
`Separable d f` says that `f ++ d` holds `d` at its end only.  `split_spec` describes what is
split off, and `split_terminated` that terminated separable fields are found again.
-/

set_option autoImplicit false

namespace Capsule.Library

variable {α : Type}

/-- Fields that each end in a delimiter. -/
def terminated (d : List α) (fs : List (List α)) : List α := fs.flatMap fun f => f ++ d

/-- The first field, its delimiter, and the rest. -/
theorem terminated_cons (d f : List α) (fs : List (List α)) :
    terminated d (f :: fs) = f ++ d ++ terminated d fs := rfl

/-- The text of two lists of fields is that of one after the other. -/
theorem terminated_append (d : List α) (fs gs : List (List α)) :
    terminated d (fs ++ gs) = terminated d fs ++ terminated d gs := List.flatMap_append

/-- The delimiter occurs behind the field and nowhere before that. -/
def Separable (d f : List α) : Prop := ∀ u v, f ++ d = u ++ d ++ v → v = []

/-- A suffix of a separable field is separable. -/
theorem Separable.tail {d f : List α} {c : α} (h : Separable d (c :: f)) : Separable d f :=
  fun u v huv => h (c :: u) v (by simp [huv])

/-- A delimiter in front of a separable field and its delimiter needs an empty field. -/
theorem Separable.eq_nil_of_isPrefix {d f r : List α} (h : Separable d f) (hp : d <+: f ++ d ++ r) :
    f = [] := by
  have hfd : d <+: f ++ d := List.prefix_of_prefix_length_le hp (List.prefix_append _ _) (by simp)
  obtain ⟨v, hv⟩ := hfd
  have hnil : v = [] := h [] v (by simp [hv])
  have hlen := congrArg List.length hv
  rw [hnil] at hlen
  simp only [List.append_nil, List.length_append] at hlen
  exact List.eq_nil_of_length_eq_zero (by omega)

/-- For a delimiter of equal symbols: the field does not hold it, and does not end in its
symbol. -/
theorem separable_replicate_iff {n : ℕ} {c : α} {f : List α} :
    Separable (List.replicate (n + 1) c) f ↔
      ¬ List.replicate (n + 1) c <:+: f ∧ f.getLast? ≠ some c := by
  constructor
  · intro h
    refine ⟨?_, fun hlast => ?_⟩
    · rintro ⟨u, v, huv⟩
      have := h u (v ++ List.replicate (n + 1) c) (by rw [← huv]; simp)
      simp at this
    · obtain ⟨g, rfl⟩ := List.getLast?_eq_some_iff.mp hlast
      have := h g [c] (by simp [← List.replicate_succ', List.replicate_succ])
      simp at this
  · rintro ⟨hin, hlast⟩ u v huv
    by_contra hv
    have hlen := congrArg List.length huv
    have hpos := List.length_pos_of_ne_nil hv
    simp only [List.length_append] at hlen
    rw [List.append_assoc] at huv
    obtain ⟨x, hu, -⟩ | ⟨x, hf, hx⟩ := List.append_eq_append_iff.mp huv
    · -- a delimiter that starts behind the field is the one at the end
      have hulen := congrArg List.length hu
      simp only [List.length_append] at hulen
      omega
    · obtain ⟨y, hxy, -⟩ | ⟨y, hxy, hyv⟩ := List.append_eq_append_iff.mp hx
      · exact hin ⟨u, y, by rw [hf, hxy]; simp⟩
      · -- one that reaches over the end of the field makes it end in the symbol
        have hxne : x ≠ [] := by
          rintro rfl
          rw [hxy] at hyv
          simp at hyv
          exact hv hyv
        have hmem : x.getLast hxne ∈ List.replicate (n + 1) c := by
          rw [hxy]
          exact List.mem_append_left y (List.getLast_mem hxne)
        apply hlast
        rw [hf, List.getLast?_append, List.getLast?_eq_some_getLast hxne,
          List.eq_of_mem_replicate hmem]
        rfl

variable [DecidableEq α]

/-- What lies before the first delimiter and what lies behind it. -/
def cutFirst (d : List α) : List α → Option (List α × List α)
  | [] => none
  | c :: s =>
    if d.isPrefixOf (c :: s) then some ([], (c :: s).drop d.length)
    else (cutFirst d s).map fun r => (c :: r.1, r.2)

/-- The pieces, with fuel. -/
def splitFuel (d : List α) : ℕ → List α → List (List α)
  | 0, s => [s]
  | n + 1, s =>
    match cutFirst d s with
    | none => [s]
    | some (piece, rest) => piece :: splitFuel d n rest

/-- The pieces between the delimiters. -/
def split (d s : List α) : List (List α) := splitFuel d s.length s

variable {d s f piece rest : List α}

/-- **The first delimiter**: the piece in front of it is separable. -/
theorem cutFirst_spec (h : cutFirst d s = some (piece, rest)) :
    s = piece ++ d ++ rest ∧ Separable d piece := by
  induction s generalizing piece with
  | nil => exact absurd h (by simp [cutFirst])
  | cons c s ih =>
    rw [cutFirst] at h
    split at h
    · rename_i hp
      obtain ⟨r, hr⟩ := List.isPrefixOf_iff_prefix.mp hp
      rw [← hr, List.drop_left] at h
      cases h
      refine ⟨by rw [← hr]; rfl, fun u v huv => ?_⟩
      have hlen := congrArg List.length huv
      simp only [List.nil_append, List.length_append] at hlen
      exact List.eq_nil_of_length_eq_zero (by omega)
    · rename_i hp
      obtain ⟨⟨p, r⟩, hcut, hpr⟩ := Option.map_eq_some_iff.mp h
      cases hpr
      obtain ⟨rfl, hsep⟩ := ih hcut
      refine ⟨rfl, fun u v huv => ?_⟩
      cases u with
      | nil =>
        -- a delimiter at the very front would have been found
        have hfront : d <+: c :: (p ++ d ++ r) := ⟨v ++ r, by
          rw [← List.append_assoc, ← List.nil_append (d ++ v), ← List.append_assoc, ← huv]
          simp⟩
        exact absurd (List.isPrefixOf_iff_prefix.mpr hfront) hp
      | cons e u =>
        simp only [List.cons_append, List.cons.injEq] at huv
        exact hsep u v (by simpa using huv.2)

/-- A separable field ends at the first delimiter. -/
theorem cutFirst_separable (hd : d ≠ []) (hf : Separable d f) (r : List α) :
    cutFirst d (f ++ d ++ r) = some (f, r) := by
  induction f with
  | nil =>
    obtain ⟨c, d', rfl⟩ := List.exists_cons_of_ne_nil hd
    show cutFirst (c :: d') (c :: (d' ++ r)) = _
    have hp : (c :: d').isPrefixOf (c :: (d' ++ r)) = true :=
      List.isPrefixOf_iff_prefix.mpr ⟨r, rfl⟩
    rw [cutFirst, if_pos hp]
    simp
  | cons c f ih =>
    have hp : ¬ d.isPrefixOf (c :: (f ++ d ++ r)) = true := by
      rw [List.isPrefixOf_iff_prefix]
      intro hp
      exact absurd (hf.eq_nil_of_isPrefix hp) (by simp)
    show cutFirst d (c :: (f ++ d ++ r)) = _
    rw [cutFirst, if_neg hp, ih hf.tail]
    rfl

/-- Enough fuel is as good as more. -/
theorem splitFuel_eq (hd : d ≠ []) {n m : ℕ} (hn : s.length ≤ n) (hm : s.length ≤ m) :
    splitFuel d n s = splitFuel d m s := by
  induction n generalizing m s with
  | zero =>
    have hs : s = [] := List.eq_nil_of_length_eq_zero (by omega)
    subst hs
    cases m <;> rfl
  | succ n ih =>
    cases m with
    | zero =>
      have hs : s = [] := List.eq_nil_of_length_eq_zero (by omega)
      subst hs
      rfl
    | succ m =>
      rw [splitFuel, splitFuel]
      cases hcut : cutFirst d s with
      | none => rfl
      | some r =>
        obtain ⟨piece, rest⟩ := r
        have hlen := congrArg List.length (cutFirst_spec hcut).1
        have hpos := List.length_pos_of_ne_nil hd
        simp only [List.length_append] at hlen
        simp only
        rw [ih (m := m) (by omega) (by omega)]

/-- A text without a delimiter is one piece. -/
theorem split_of_none (h : cutFirst d s = none) : split d s = [s] := by
  unfold split
  cases hs : s.length with
  | zero => rfl
  | succ n => rw [splitFuel, h]

/-- The first piece, and the pieces of what follows its delimiter. -/
theorem split_of_some (hd : d ≠ []) (h : cutFirst d s = some (piece, rest)) :
    split d s = piece :: split d rest := by
  have hlen := congrArg List.length (cutFirst_spec h).1
  have hpos := List.length_pos_of_ne_nil hd
  simp only [List.length_append] at hlen
  unfold split
  obtain ⟨n, hn⟩ : ∃ n, s.length = n + 1 := ⟨s.length - 1, by omega⟩
  rw [hn, splitFuel, h]
  simp only
  rw [splitFuel_eq hd (by omega) (Nat.le_refl rest.length)]

/-- **Terminated separable fields are split off.** -/
theorem split_terminated (hd : d ≠ []) {fs : List (List α)} (hfs : ∀ f ∈ fs, Separable d f)
    (s : List α) : split d (terminated d fs ++ s) = fs ++ split d s := by
  induction fs with
  | nil => rfl
  | cons f fs ih =>
    have hf := hfs f List.mem_cons_self
    rw [terminated_cons, List.append_assoc, split_of_some hd (cutFirst_separable hd hf _),
      ih fun g hg => hfs g (List.mem_cons_of_mem f hg)]
    rfl

/-- The empty text is one empty piece. -/
theorem split_nil : split d [] = [[]] := rfl

/-- **What splitting finds**: separable fields, each ended by a delimiter, and a rest. -/
theorem split_spec (hd : d ≠ []) (s : List α) :
    ∃ fs last, split d s = fs ++ [last] ∧ (∀ f ∈ fs, Separable d f) ∧
      s = terminated d fs ++ last := by
  induction hn : s.length using Nat.strong_induction_on generalizing s with
  | _ n ih =>
    cases hcut : cutFirst d s with
    | none => exact ⟨[], s, split_of_none hcut, by simp, rfl⟩
    | some r =>
      obtain ⟨piece, rest⟩ := r
      obtain ⟨hs, hsep⟩ := cutFirst_spec hcut
      have hlen := congrArg List.length hs
      have hpos := List.length_pos_of_ne_nil hd
      simp only [List.length_append] at hlen
      obtain ⟨fs, last, hsplit, hfs, hrest⟩ := ih rest.length (by omega) rest rfl
      refine ⟨piece :: fs, last, by rw [split_of_some hd hcut, hsplit]; rfl, ?_, ?_⟩
      · exact List.forall_mem_cons.mpr ⟨hsep, hfs⟩
      · rw [terminated_cons, List.append_assoc, ← hrest]
        exact hs

end Capsule.Library
