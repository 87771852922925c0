import Capsule.Program.PayloadCodec

/-!
# What the payload list codec carries

The encoder joins the fields of the payloads with a delimiter, and the decoder finds them again
where no field lets the delimiter show up too early.  `payload_l_round_trip_iff` says which lists
survive, `decodes_soundly_iff` which texts are decoded to what they were made from.
-/

set_option autoImplicit false

namespace Capsule.Analysis

open Library Program

/-! ## The fields of a text -/

/-- The four texts of a payload. -/
def fieldsOf (p : KvsPayload) : List Str :=
  [stdToString p.txn_timestamp.toInt, p.txn_msgType, p.key, p.value]

/-- Four pieces of a text, as the decoder takes them. -/
structure Pieces where
  txn_timestamp : Str
  txn_msgType : Str
  key : Str
  value : Str

/-- The pieces in their order. -/
def Pieces.list (r : Pieces) : List Str := [r.txn_timestamp, r.txn_msgType, r.key, r.value]

/-- The pieces that the encoder makes of a payload. -/
def Pieces.of (p : KvsPayload) : Pieces :=
  ⟨stdToString p.txn_timestamp.toInt, p.txn_msgType, p.key, p.value⟩

/-- The fields of a list of payloads, four for each. -/
theorem flatMap_fieldsOf (l : List KvsPayload) :
    l.flatMap fieldsOf = (l.map Pieces.of).flatMap Pieces.list := by
  rw [List.flatMap_map]
  rfl

/-- The encoder terminates the fields one after the other. -/
theorem serialize_eq (l : List KvsPayload) :
    serializePayloadL l = terminated delimStr (l.flatMap fieldsOf) := by
  have hacc : ∀ acc : Str, l.foldl (fun payload_l_s payload => payload_l_s ++
      (stdToString payload.txn_timestamp.toInt ++ delimStr ++ payload.txn_msgType ++ delimStr
        ++ payload.key ++ delimStr ++ payload.value ++ delimStr)) acc =
      acc ++ terminated delimStr (l.flatMap fieldsOf) := by
    induction l with
    | nil => exact fun acc => (List.append_nil acc).symm
    | cons p l ih =>
      intro acc
      rw [List.foldl_cons, ih, List.flatMap_cons, terminated_append]
      simp [terminated, fieldsOf]
  exact hacc []

/-- Every record has four pieces. -/
theorem length_flatMap_list (rs : List Pieces) :
    (rs.flatMap Pieces.list).length = 4 * rs.length := by
  induction rs with
  | nil => rfl
  | cons r rs ih =>
    rw [List.flatMap_cons, List.length_append, ih, List.length_cons]
    simp only [Pieces.list, List.length_cons, List.length_nil]
    omega

/-- Pieces whose number is a multiple of four. -/
theorem exists_pieces {n : ℕ} {fs : List Str} (h : fs.length = 4 * n) :
    ∃ rs : List Pieces, fs = rs.flatMap Pieces.list ∧ rs.length = n := by
  induction n generalizing fs with
  | zero => exact ⟨[], List.eq_nil_of_length_eq_zero (by omega), rfl⟩
  | succ n ih =>
    match fs, h with
    | a :: b :: c :: d :: fs, h =>
      have hfs : fs.length = 4 * n := by
        simp only [List.length_cons] at h
        omega
      obtain ⟨rs, rfl, hn⟩ := ih hfs
      exact ⟨⟨a, b, c, d⟩ :: rs, rfl, by rw [List.length_cons, hn]⟩
    | [], h | [_], h | [_, _], h | [_, _, _], h =>
      simp only [List.length_cons, List.length_nil] at h
      omega

/-- The pieces determine the records. -/
theorem flatMap_list_injective {rs rs' : List Pieces}
    (h : rs.flatMap Pieces.list = rs'.flatMap Pieces.list) : rs = rs' := by
  induction rs generalizing rs' with
  | nil =>
    have hlen := length_flatMap_list rs'
    rw [← h] at hlen
    exact (List.eq_nil_of_length_eq_zero (by simpa using hlen.symm)).symm
  | cons r rs ih =>
    cases rs' with
    | nil => exact absurd h (by simp [Pieces.list])
    | cons r' rs' =>
      obtain ⟨a, b, c, d⟩ := r
      obtain ⟨a', b', c', d'⟩ := r'
      simp only [List.flatMap_cons, Pieces.list, List.cons_append, List.nil_append,
        List.cons.injEq] at h
      obtain ⟨rfl, rfl, rfl, rfl, hrest⟩ := h
      rw [ih hrest]

/-- Every fourth piece is a timestamp. -/
theorem getElem?_flatMap_list (rs : List Pieces) (last : Str) {i : ℕ} (hi : i < rs.length) :
    (rs.flatMap Pieces.list ++ [last])[4 * i]? = some rs[i].txn_timestamp := by
  induction rs generalizing i with
  | nil => exact absurd hi (by simp)
  | cons r rs ih =>
    cases i with
    | zero => rfl
    | succ i => exact ih (Nat.lt_of_succ_lt_succ hi)

/-! ## Numbers -/

/-- A text is read as a number exactly if it starts with one in the range of an `int`. -/
theorem stoi_eq_ok_iff {s : Str} {n : Int} :
    stoi s = .ok n ↔ readInt s = some n ∧ -(2 ^ 31) ≤ n ∧ n < 2 ^ 31 := by
  unfold stoi
  cases readInt s with
  | none => simp
  | some m =>
    simp only [Option.some.injEq]
    split
    · simp only [Except.ok.injEq]
      constructor
      · rintro rfl
        exact ⟨rfl, ‹_›⟩
      · exact fun h => h.1
    · simp only [reduceCtorEq, false_iff]
      rintro ⟨rfl, h⟩
      contradiction

/-- **Round trip** of a number in the range of an `int`. -/
theorem stoi_stdToString {n : Int} (h : -(2 ^ 31) ≤ n ∧ n < 2 ^ 31) :
    stoi (stdToString n) = .ok n :=
  stoi_eq_ok_iff.mpr ⟨readInt_intText n, h⟩

/-- The text of a number cannot bring the delimiter forward. -/
theorem separable_stdToString (n : Int) : Separable delimStr (stdToString n) := by
  have hnot : (64 : UInt8) ∉ stdToString n := by
    intro h
    rcases mem_intText h with h | h
    · exact absurd h (by decide)
    · exact absurd h (by decide)
  refine (separable_replicate_iff (n := 2)).mpr ⟨?_, ?_⟩
  · intro hin
    exact hnot (hin.subset (by simp))
  · intro hlast
    exact hnot (List.mem_of_getLast? hlast)

/-! ## The decoder -/

/-- What the decoder makes of four pieces. -/
structure Reads (r : Pieces) (p : KvsPayload) : Prop where
  timestamp : stoi r.txn_timestamp = .ok p.txn_timestamp.toInt
  msgType : p.txn_msgType = r.txn_msgType
  key : p.key = r.key
  value : p.value = r.value

/-- A record is read exactly if its timestamp is. -/
theorem reads_iff {r : Pieces} {p : KvsPayload} : Reads r p ↔
    ∃ n, stoi r.txn_timestamp = .ok n ∧
      p = kvToPayload r.key r.value (Int64.ofInt n) r.txn_msgType := by
  obtain ⟨key, value, txn_timestamp, txn_msgType⟩ := p
  constructor
  · rintro ⟨ht, rfl, rfl, rfl⟩
    exact ⟨_, ht, by rw [kvToPayload, Int64.ofInt_toInt]⟩
  · rintro ⟨n, hn, hp⟩
    rw [kvToPayload, KvsPayload.mk.injEq] at hp
    obtain ⟨rfl, rfl, rfl, rfl⟩ := hp
    have hrange := (stoi_eq_ok_iff.mp hn).2
    refine ⟨?_, rfl, rfl, rfl⟩
    rw [Int64.toInt_ofInt_of_le (by omega) (by omega)]
    exact hn

/-- The loop of the decoder, by induction on the records. -/
theorem readRecords_eq_ok_iff {rs : List Pieces} {last : Str} {i : ℕ} {l : List KvsPayload}
    (hi : i < 2 ^ 31) : readRecords i (rs.flatMap Pieces.list ++ [last]) = .ok l ↔
      i + 4 * rs.length < 2 ^ 31 ∧ List.Forall₂ Reads rs l := by
  induction rs generalizing i l with
  | nil =>
    have h : readRecords i ([] ++ [last]) = .ok [] := rfl
    rw [List.flatMap_nil, h, List.forall₂_nil_left_iff, Except.ok.injEq]
    exact ⟨fun h => ⟨hi, h.symm⟩, fun h => h.2.symm⟩
  | cons r rs ih =>
    have hstep : readRecords i ((r :: rs).flatMap Pieces.list ++ [last]) = (do
        let timer ← stoi r.txn_timestamp
        if i + 4 < 2 ^ 31 then do
          let payload_l ← readRecords (i + 4) (rs.flatMap Pieces.list ++ [last])
          pure (kvToPayload r.key r.value (Int64.ofInt timer) r.txn_msgType :: payload_l)
        else .error .overflow) := rfl
    rw [hstep, List.forall₂_cons_left_iff, List.length_cons]
    cases hn : stoi r.txn_timestamp with
    | error e =>
      refine ⟨fun h => absurd h (by simp [bind, Except.bind]), ?_⟩
      rintro ⟨-, p, l', hp, -⟩
      rw [reads_iff, hn] at hp
      obtain ⟨n, hn', -⟩ := hp
      cases hn'
    | ok n =>
      have hread : ∀ p, Reads r p ↔
          p = kvToPayload r.key r.value (Int64.ofInt n) r.txn_msgType := by
        intro p
        rw [reads_iff, hn]
        constructor
        · rintro ⟨m, hm, rfl⟩
          cases hm
          rfl
        · exact fun hp => ⟨n, rfl, hp⟩
      simp only [bind, Except.bind, hread]
      by_cases hlt : i + 4 < 2 ^ 31
      · rw [if_pos hlt]
        cases hrest : readRecords (i + 4) (rs.flatMap Pieces.list ++ [last]) with
        | error e =>
          refine ⟨fun h => absurd h (by simp), ?_⟩
          rintro ⟨hle, p, l', -, hl', -⟩
          have := (ih hlt (l := l')).mpr ⟨by omega, hl'⟩
          rw [hrest] at this
          cases this
        | ok l' =>
          obtain ⟨hle, hl'⟩ := (ih hlt).mp hrest
          constructor
          · intro h
            cases h
            exact ⟨by omega, _, _, rfl, hl', rfl⟩
          · rintro ⟨-, p, l'', rfl, hl'', rfl⟩
            have := (ih hlt (l := l'')).mpr ⟨by omega, hl''⟩
            rw [hrest] at this
            cases this
            rfl
      · rw [if_neg hlt]
        exact ⟨fun h => absurd h (by simp), fun h => absurd h.1 (by omega)⟩

/-- **What the decoder does**: it either drops a text by the number of its pieces, or runs its loop
over records of separable pieces. -/
theorem deserialize_spec (s : Str) :
    ((split delimStr s).length - 1) % 4 ≠ 0 ∧ deserializePayloadL s = .ok [] ∨
    ∃ rs last, split delimStr s = rs.flatMap Pieces.list ++ [last] ∧
      (∀ r ∈ rs, ∀ f ∈ r.list, Separable delimStr f) ∧
      ∀ l, deserializePayloadL s = .ok l ↔ 4 * rs.length < 2 ^ 31 ∧ List.Forall₂ Reads rs l := by
  obtain ⟨fs, last, hsplit, hsep, -⟩ := split_spec (d := delimStr) (by decide) s
  have hlen : (split delimStr s).length - 1 = fs.length := by simp [hsplit]
  unfold deserializePayloadL
  dsimp only
  by_cases hmod : ((split delimStr s).length - 1) % 4 = 0
  · have hfs : fs.length = 4 * (fs.length / 4) := by omega
    obtain ⟨rs, rfl, -⟩ := exists_pieces hfs
    rw [if_neg (not_not.mpr hmod), hsplit]
    refine Or.inr ⟨rs, last, rfl, ?_, fun l => ?_⟩
    · intro r hr f hf
      exact hsep f (List.mem_flatMap.mpr ⟨r, hr, hf⟩)
    · rw [readRecords_eq_ok_iff (by omega), Nat.zero_add]
  · exact Or.inl ⟨hmod, if_pos hmod⟩

/-! ## Which lists survive -/

/-- A text that neither holds the delimiter nor ends in its character. -/
def Undelimited (f : Str) : Prop := ¬ delimStr <:+: f ∧ f.getLast? ≠ some 64

/-- A field can be told from the delimiter exactly if it neither holds it nor ends in its byte. -/
theorem separable_delim_iff {f : Str} : Separable delimStr f ↔ Undelimited f :=
  separable_replicate_iff (n := 2)

/-- A payload that the codec carries. -/
structure Carried (p : KvsPayload) : Prop where
  timestamp : -(2 ^ 31) ≤ p.txn_timestamp.toInt ∧ p.txn_timestamp.toInt < 2 ^ 31
  msgType : Undelimited p.txn_msgType
  key : Undelimited p.key
  value : Undelimited p.value

/-- The pieces of the text of a list whose fields are separable. -/
theorem split_serialize {l : List KvsPayload}
    (h : ∀ p ∈ l, ∀ f ∈ fieldsOf p, Separable delimStr f) :
    split delimStr (serializePayloadL l) = l.flatMap fieldsOf ++ [[]] := by
  have hall : ∀ f ∈ l.flatMap fieldsOf, Separable delimStr f := by
    intro f hf
    obtain ⟨p, hp, hfp⟩ := List.mem_flatMap.mp hf
    exact h p hp f hfp
  rw [serialize_eq, ← List.append_nil (terminated _ _), split_terminated (by decide) hall,
    split_nil]

/-- The records of a text that is cut into the fields of a list. -/
theorem pieces_eq_of_split {s last : Str} {rs : List Pieces} {l : List KvsPayload}
    (hsplit : split delimStr s = rs.flatMap Pieces.list ++ [last])
    (h : split delimStr s = l.flatMap fieldsOf ++ [[]]) : rs = l.map Pieces.of := by
  rw [flatMap_fieldsOf] at h
  exact flatMap_list_injective (List.append_inj' (hsplit.symm.trans h) rfl).1

/-- The fields of a payload that the codec carries can be told from the delimiter. -/
theorem Carried.separable {p : KvsPayload} (hp : Carried p) :
    ∀ f ∈ fieldsOf p, Separable delimStr f := by
  intro f hf
  simp only [fieldsOf, List.mem_cons, List.not_mem_nil, or_false] at hf
  rcases hf with rfl | rfl | rfl | rfl
  · exact separable_stdToString _
  · exact separable_delim_iff.mpr hp.msgType
  · exact separable_delim_iff.mpr hp.key
  · exact separable_delim_iff.mpr hp.value

/-- What is read from separable pieces can be sent again. -/
theorem Reads.carried {r : Pieces} {p : KvsPayload} (hread : Reads r p)
    (hsep : ∀ f ∈ r.list, Separable delimStr f) : Carried p := by
  refine ⟨(stoi_eq_ok_iff.mp hread.timestamp).2, ?_, ?_, ?_⟩
  · rw [hread.msgType]
    exact separable_delim_iff.mp (hsep _ (by simp [Pieces.list]))
  · rw [hread.key]
    exact separable_delim_iff.mp (hsep _ (by simp [Pieces.list]))
  · rw [hread.value]
    exact separable_delim_iff.mp (hsep _ (by simp [Pieces.list]))

/-- **A list comes back as it was sent** if and only if it has fewer than `2 ^ 29` payloads, all of
which the codec carries. -/
theorem payload_l_round_trip_iff (l : List KvsPayload) :
    deserializePayloadL (serializePayloadL l) = .ok l ↔
      l.length < 2 ^ 29 ∧ ∀ p ∈ l, Carried p := by
  have hfields : (∀ p ∈ l, Carried p) →
      split delimStr (serializePayloadL l) = l.flatMap fieldsOf ++ [[]] := by
    intro hl
    exact split_serialize fun p hp => (hl p hp).separable
  rcases deserialize_spec (serializePayloadL l) with
    ⟨hmod, hnil⟩ | ⟨rs, last, hsplit, hsep, hdec⟩
  · constructor
    · intro h
      rw [hnil, Except.ok.injEq] at h
      rw [← h]
      exact ⟨by simp, by simp⟩
    · rintro ⟨-, hl⟩
      rw [hfields hl, flatMap_fieldsOf, List.length_append, length_flatMap_list] at hmod
      simp at hmod
  · rw [hdec]
    constructor
    · rintro ⟨hlen, hreads⟩
      have hrel := List.forall₂_iff_get.mp hreads
      refine ⟨by omega, ?_⟩
      intro p hp
      obtain ⟨i, hi, rfl⟩ := List.getElem_of_mem hp
      have hi' : i < rs.length := by omega
      have hread : Reads rs[i] l[i] := hrel.2 i hi' hi
      exact hread.carried (hsep rs[i] (List.getElem_mem hi'))
    · rintro ⟨hlen, hl⟩
      rw [pieces_eq_of_split hsplit (hfields hl), List.length_map, List.forall₂_map_left_iff,
        List.forall₂_same]
      exact ⟨by omega, fun p hp => ⟨stoi_stdToString (hl p hp).timestamp, rfl, rfl, rfl⟩⟩

/-- A key that ends in `@` loses it to the value, and a timestamp in milliseconds does not fit. -/
theorem payload_l_changes :
    deserializePayloadL (serializePayloadL [⟨[107, 64], [1], 5, [71]⟩]) ≠
      .ok [⟨[107, 64], [1], 5, [71]⟩] ∧
    deserializePayloadL (serializePayloadL [⟨[107], [1], 1638000000000, [71]⟩]) ≠
      .ok [⟨[107], [1], 1638000000000, [71]⟩] := by
  decide +kernel

/-! ## Which texts are decoded to what they were made from -/

/-- A text of complete records: their fields, each with its delimiter, and nothing behind them. -/
def CompleteRecords (s : Str) (l : List KvsPayload) : Prop :=
  split delimStr s = l.flatMap fieldsOf ++ [[]]

/-- **The decoder accepts well-formed texts only and does not throw**: it returns a list of
payloads that the text consists of and that encodes to the text, or it returns the empty list and
the text does not consist of records. -/
def DecodesSoundly (s : Str) : Prop :=
  ∃ l, deserializePayloadL s = .ok l ∧
    (l ≠ [] ∧ CompleteRecords s l ∧ serializePayloadL l = s ∨
      l = [] ∧ ∀ l', l' ≠ [] → ¬ CompleteRecords s l')

/-- The texts that the decoder treats as it should: those that it drops by the number of their
pieces, those without a delimiter, and those with nothing behind the last delimiter in which every
fourth piece is the decimal text of a 32-bit number. -/
def Decodable (s : Str) : Prop :=
  let pieces := split delimStr s
  (pieces.length - 1) % 4 ≠ 0 ∨ pieces.length = 1 ∨
    (pieces.length ≤ 2 ^ 31 ∧ pieces.getLast? = some [] ∧
      ∀ i, 4 * i + 1 < pieces.length → ∃ n : Int, -(2 ^ 31) ≤ n ∧ n < 2 ^ 31 ∧
        pieces[4 * i]? = some (stdToString n))

/-- The number of pieces of a text of complete records. -/
theorem CompleteRecords.length {s : Str} {l : List KvsPayload} (h : CompleteRecords s l) :
    (split delimStr s).length = 4 * l.length + 1 := by
  rw [h, flatMap_fieldsOf, List.length_append, length_flatMap_list, List.length_map]
  rfl

/-- A text is what the encoder makes of its records. -/
theorem CompleteRecords.serialize {s : Str} {l : List KvsPayload} (h : CompleteRecords s l) :
    serializePayloadL l = s := by
  obtain ⟨fs, last, hsplit, -, hs⟩ := split_spec (d := delimStr) (by decide) s
  obtain ⟨rfl, hlast⟩ := List.append_inj' (hsplit.symm.trans h) rfl
  cases hlast
  rw [serialize_eq, ← List.append_nil (terminated _ _), ← hs]

/-- Pieces with proper timestamps are the fields of payloads that are read from them. -/
theorem exists_reads {rs : List Pieces}
    (h : ∀ r ∈ rs, ∃ n : Int, (-(2 ^ 31) ≤ n ∧ n < 2 ^ 31) ∧ r.txn_timestamp = stdToString n) :
    ∃ l, List.Forall₂ Reads rs l ∧ rs.flatMap Pieces.list = l.flatMap fieldsOf := by
  induction rs with
  | nil => exact ⟨[], List.Forall₂.nil, rfl⟩
  | cons r rs ih =>
    obtain ⟨l, hreads, hl⟩ := ih fun r' hr' => h r' (List.mem_cons_of_mem r hr')
    obtain ⟨n, hn, ht⟩ := h r List.mem_cons_self
    have hint : (Int64.ofInt n).toInt = n := Int64.toInt_ofInt_of_le (by omega) (by omega)
    refine ⟨⟨r.key, r.value, Int64.ofInt n, r.txn_msgType⟩ :: l, ?_, ?_⟩
    · refine List.Forall₂.cons ⟨?_, rfl, rfl, rfl⟩ hreads
      rw [ht, hint]
      exact stoi_stdToString hn
    · rw [List.flatMap_cons, List.flatMap_cons, hl, Pieces.list, ht, fieldsOf, hint]

/-- Complete records that are decoded have decimal timestamps. -/
theorem CompleteRecords.decodable {s last : Str} {rs : List Pieces} {l : List KvsPayload}
    (hsplit : split delimStr s = rs.flatMap Pieces.list ++ [last]) (hsize : 4 * rs.length < 2 ^ 31)
    (hreads : List.Forall₂ Reads rs l) (hrec : CompleteRecords s l) : Decodable s := by
  have hlen := hrec.length
  have hrs := pieces_eq_of_split hsplit hrec
  have heq : rs.length = l.length := by rw [hrs, List.length_map]
  refine Or.inr (Or.inr ⟨by omega, ?_, ?_⟩)
  · rw [hrec, List.getLast?_append]
    rfl
  · intro i hi
    have hi' : i < rs.length := by omega
    have hil : i < l.length := by omega
    have hread : Reads rs[i] l[i] := (List.forall₂_iff_get.mp hreads).2 i hi' hil
    have hrange := (stoi_eq_ok_iff.mp hread.timestamp).2
    refine ⟨l[i].txn_timestamp.toInt, hrange.1, hrange.2, ?_⟩
    rw [hsplit, getElem?_flatMap_list rs last hi']
    simp only [hrs, List.getElem_map, Pieces.of]

/-- A text that is decoded to its records is decoded soundly. -/
theorem CompleteRecords.decodesSoundly {s : Str} {l : List KvsPayload} (hrec : CompleteRecords s l)
    (hok : deserializePayloadL s = .ok l) : DecodesSoundly s := by
  refine ⟨l, hok, ?_⟩
  by_cases hne : l = []
  · refine Or.inr ⟨hne, ?_⟩
    intro l' hne' hl'
    have hpos := List.length_pos_of_ne_nil hne'
    have hlen := hl'.length
    rw [hrec.length, hne, List.length_nil] at hlen
    omega
  · exact Or.inl ⟨hne, hrec, hrec.serialize⟩

/-- **The decoder is sound on exactly the decodable texts.** -/
theorem decodes_soundly_iff (s : Str) : DecodesSoundly s ↔ Decodable s := by
  rcases deserialize_spec s with ⟨hmod, hnil⟩ | ⟨rs, last, hsplit, -, hdec⟩
  · refine ⟨fun _ => Or.inl hmod, fun _ => ⟨[], hnil, Or.inr ⟨rfl, ?_⟩⟩⟩
    intro l _ hl
    rw [hl.length] at hmod
    omega
  have hlen : (split delimStr s).length = 4 * rs.length + 1 := by
    rw [hsplit, List.length_append, length_flatMap_list]
    rfl
  constructor
  · rintro ⟨l, hl, h⟩
    obtain ⟨hsize, hreads⟩ := (hdec l).mp hl
    rcases h with ⟨-, hrec, -⟩ | ⟨rfl, -⟩
    · exact hrec.decodable hsplit hsize hreads
    · have hrs : rs = [] := by simpa using hreads
      exact Or.inr (Or.inl (by rw [hlen, hrs]; rfl))
  · rintro (hmod | hone | ⟨hsize, hlast, htime⟩)
    · omega
    · have hrs : rs = [] := List.eq_nil_of_length_eq_zero (by omega)
      refine ⟨[], (hdec []).mpr ⟨by simp [hrs], by simp [hrs]⟩, Or.inr ⟨rfl, ?_⟩⟩
      intro l hne hl
      have hpos := List.length_pos_of_ne_nil hne
      have hlen' := hl.length
      omega
    · have htimes : ∀ r ∈ rs, ∃ n : Int, (-(2 ^ 31) ≤ n ∧ n < 2 ^ 31) ∧
          r.txn_timestamp = stdToString n := by
        intro r hr
        obtain ⟨i, hi, rfl⟩ := List.getElem_of_mem hr
        obtain ⟨n, hn, hn', hget⟩ := htime i (by omega)
        rw [hsplit, getElem?_flatMap_list rs last hi, Option.some.injEq] at hget
        exact ⟨n, ⟨hn, hn'⟩, hget⟩
      obtain ⟨l, hreads, hl⟩ := exists_reads htimes
      have hrec : CompleteRecords s l := by
        rw [hsplit, List.getLast?_append] at hlast
        cases hlast
        rw [CompleteRecords, hsplit, hl]
      exact hrec.decodesSoundly ((hdec l).mpr ⟨by omega, hreads⟩)

/-- A text with something behind its last delimiter is accepted, and one whose first field is no
number makes the decoder throw. -/
theorem decoder_not_sound :
    ¬ DecodesSoundly [53, 64, 64, 64, 64, 64, 64, 107, 64, 64, 64, 49, 64, 64, 64, 120] ∧
    ¬ DecodesSoundly [120, 64, 64, 64, 64, 64, 64, 107, 64, 64, 64, 49, 64, 64, 64] := by
  refine ⟨?_, ?_⟩
  · rintro ⟨l, hl, h⟩
    have hdec : deserializePayloadL [53, 64, 64, 64, 64, 64, 64, 107, 64, 64, 64, 49, 64, 64, 64,
        120] = .ok [⟨[107], [49], 5, []⟩] := by decide +kernel
    rw [hdec] at hl
    cases hl
    rcases h with ⟨-, -, hs⟩ | ⟨hnil, -⟩
    · exact absurd hs (by decide +kernel)
    · exact absurd hnil (by decide)
  · rintro ⟨l, hl, -⟩
    have hthrow : deserializePayloadL [120, 64, 64, 64, 64, 64, 64, 107, 64, 64, 64, 49, 64, 64,
        64] = .error .invalidArgument := by decide +kernel
    rw [hthrow] at hl
    cases hl

end Capsule.Analysis
