import MiniDuck.StringBounds

/-!
# Statistics of string columns hold for their rows

`DataInv` is what every step keeps: the bounds hold and are attained, the
lengths of the strings lie between the recorded lengths, and minimum and
maximum are missing together. The minimum length is the exception: the
packed field has one value for the length `2 ^ 21 - 2` and for all lengths
from `2 ^ 21 - 1` on, and reading it back gives the largest number. So
`string_feed_sound` asks that statistics with that minimum length are not
written in the current format, and `minimum_length_lost` shows what
happens otherwise.
-/

namespace MiniDuck

namespace StringStats

def stringRows (rows : List (Option StringValue)) : List (List UInt8) :=
  (validRows rows).map Subtype.val

theorem stringRows_append (rows rows' : List (Option StringValue)) :
    stringRows (rows ++ rows') = stringRows rows ++ stringRows rows' := by
  simp only [stringRows, validRows_append, List.map_append]

/-! ## The writer -/

/-- The bytes and the length are those of a value that is smallest for the writer. -/
def SmallestOf (bytes : List UInt8) (size : Nat) (values : List (List UInt8)) : Prop :=
  ∃ m ∈ values, bytes = inlineBytes m ∧ size = m.length ∧ ∀ w ∈ values, inlineCompare m w ≠ .gt

def LargestOf (bytes : List UInt8) (size : Nat) (values : List (List UInt8)) : Prop :=
  ∃ m ∈ values, bytes = inlineBytes m ∧ size = m.length ∧ ∀ w ∈ values, inlineCompare w m ≠ .gt

structure Wrote (writer : StringStatsWriter) (rows : List (Option StringValue)) : Prop where
  null : writer.hasNull = true ↔ none ∈ rows
  valid : writer.hasValid = true ↔ stringRows rows ≠ []
  set : writer.isSet = true ↔ stringRows rows ≠ []
  min : writer.isSet = true → SmallestOf writer.min writer.minSize (stringRows rows)
  max : writer.isSet = true → LargestOf writer.max writer.maxSize (stringRows rows)
  minLimit : writer.minStringLength ≤ maximumMinStringLength
  minLength : ∀ w ∈ stringRows rows, writer.minStringLength ≤ w.length
  maxLength : ∀ w ∈ stringRows rows, w.length ≤ writer.maxStringLength

theorem wrote_clear : Wrote clear [] where
  null := by simp [clear]
  valid := by simp [clear, stringRows, validRows]
  set := by simp [clear, stringRows, validRows]
  min h := by cases h
  max h := by cases h
  minLimit := le_rfl
  minLength _ hw := (List.not_mem_nil hw).elim
  maxLength _ hw := (List.not_mem_nil hw).elim

theorem inlineCompare_lt_iff (v m : List UInt8) :
    compareInlineBytes (inlineBytes v) (inlineBytes m) = .lt ∨
        compareInlineBytes (inlineBytes v) (inlineBytes m) = .eq ∧ v.length < m.length ↔
      inlineCompare v m = .lt := by
  rw [compareInlineBytes_eq (length_inlineBytes v) (length_inlineBytes m), inlineCompare_eq,
    Ordering.then_eq_lt, Nat.compare_eq_lt]

theorem inlineCompare_gt_iff (v m : List UInt8) :
    compareInlineBytes (inlineBytes v) (inlineBytes m) = .gt ∨
        compareInlineBytes (inlineBytes v) (inlineBytes m) = .eq ∧ m.length < v.length ↔
      inlineCompare v m = .gt := by
  rw [compareInlineBytes_eq (length_inlineBytes v) (length_inlineBytes m), inlineCompare_eq,
    Ordering.then_eq_gt, Nat.compare_eq_gt]

/-- The bounds after a value was fed to a writer that has some. -/
theorem updateMinMax_set {writer : StringStatsWriter} {m M : List UInt8} (v : List UInt8)
    (hset : writer.isSet = true) (hmin : writer.min = inlineBytes m)
    (hminSize : writer.minSize = m.length) (hmax : writer.max = inlineBytes M)
    (hmaxSize : writer.maxSize = M.length) :
    updateMinMax writer (inlineBytes v) v.length =
      { writer with
        min := inlineBytes (if inlineCompare v m = .lt then v else m)
        minSize := (if inlineCompare v m = .lt then v else m).length
        max := inlineBytes (if inlineCompare v M = .gt then v else M)
        maxSize := (if inlineCompare v M = .gt then v else M).length } := by
  have hlt := inlineCompare_lt_iff v m
  have hgt := inlineCompare_gt_iff v M
  unfold updateMinMax
  rw [if_pos hset, hmin, hmax, hminSize]
  dsimp only
  by_cases h1 : inlineCompare v m = .lt
  · rw [if_pos (hlt.mpr h1), if_pos h1]
    by_cases h2 : inlineCompare v M = .gt
    · rw [if_pos (by rw [hmaxSize]; exact hgt.mpr h2), if_pos h2]
    · rw [if_neg (by rw [hmaxSize]; exact fun h => h2 (hgt.mp h)), if_neg h2, ← hmax, ← hmaxSize]
  · rw [if_neg (fun h => h1 (hlt.mp h)), if_neg h1, ← hmin, ← hminSize]
    by_cases h2 : inlineCompare v M = .gt
    · rw [if_pos (by rw [hmaxSize]; exact hgt.mpr h2), if_pos h2]
    · rw [if_neg (by rw [hmaxSize]; exact fun h => h2 (hgt.mp h)), if_neg h2, ← hmax, ← hmaxSize]

theorem inlineCompare_swap (x y : List UInt8) : inlineCompare y x = (inlineCompare x y).swap :=
  @Std.OrientedCmp.eq_swap _ inlineCompare _ y x

theorem inlineCompare_trans {x y z : List UInt8} (h : inlineCompare x y ≠ .gt)
    (h' : inlineCompare y z ≠ .gt) : inlineCompare x z ≠ .gt :=
  Ordering.isLE_iff_ne_gt.mp (Std.TransCmp.isLE_trans (Ordering.isLE_iff_ne_gt.mpr h)
    (Ordering.isLE_iff_ne_gt.mpr h'))

theorem inlineCompare_self (x : List UInt8) : inlineCompare x x = .eq :=
  Std.ReflCmp.compare_self

/-- The smaller of a value and the smallest so far. -/
theorem smaller_le {values : List (List UInt8)} {m : List UInt8} (v : List UInt8) (hm : m ∈ values)
    (h : ∀ w ∈ values, inlineCompare m w ≠ .gt) :
    (if inlineCompare v m = .lt then v else m) ∈ values ++ [v] ∧
      ∀ w ∈ values ++ [v], inlineCompare (if inlineCompare v m = .lt then v else m) w ≠ .gt := by
  by_cases hlt : inlineCompare v m = .lt
  · rw [if_pos hlt]
    refine ⟨by simp, fun w hw => ?_⟩
    rcases List.mem_append.mp hw with hw | hw
    · exact inlineCompare_trans (by simp [hlt]) (h w hw)
    · rw [List.mem_singleton.mp hw, inlineCompare_self]
      decide
  · rw [if_neg hlt]
    refine ⟨by simp [hm], fun w hw => ?_⟩
    rcases List.mem_append.mp hw with hw | hw
    · exact h w hw
    · rw [List.mem_singleton.mp hw, inlineCompare_swap v m, Ne, Ordering.swap_eq_gt]
      exact hlt

theorem larger_ge {values : List (List UInt8)} {m : List UInt8} (v : List UInt8) (hm : m ∈ values)
    (h : ∀ w ∈ values, inlineCompare w m ≠ .gt) :
    (if inlineCompare v m = .gt then v else m) ∈ values ++ [v] ∧
      ∀ w ∈ values ++ [v], inlineCompare w (if inlineCompare v m = .gt then v else m) ≠ .gt := by
  by_cases hgt : inlineCompare v m = .gt
  · rw [if_pos hgt]
    refine ⟨by simp, fun w hw => ?_⟩
    rcases List.mem_append.mp hw with hw | hw
    · refine inlineCompare_trans (h w hw) ?_
      rw [inlineCompare_swap v m, hgt]
      decide
    · rw [List.mem_singleton.mp hw, inlineCompare_self]
      decide
  · rw [if_neg hgt]
    refine ⟨by simp [hm], fun w hw => ?_⟩
    rcases List.mem_append.mp hw with hw | hw
    · exact h w hw
    · rw [List.mem_singleton.mp hw]
      exact hgt

theorem stringRows_some (v : StringValue) : stringRows [some v] = [v.1] := rfl

theorem stringRows_none : stringRows [none] = [] := rfl

/-- The fields that are not bounds after a value was fed. -/
theorem updateMinMax_rest (writer : StringStatsWriter) (data : List UInt8) (size : Nat) :
    (updateMinMax writer data size).hasNull = writer.hasNull ∧
      (updateMinMax writer data size).hasValid = writer.hasValid ∧
      (updateMinMax writer data size).isSet = true ∧
      (updateMinMax writer data size).maxStringLength = writer.maxStringLength ∧
      (updateMinMax writer data size).minStringLength = writer.minStringLength := by
  unfold updateMinMax
  dsimp only
  split_ifs with hset h1 h2 h3 <;> simp [hset]

/-- The bounds are those of the value alone, or of the value and the bounds so far. -/
theorem updateMinMax_bounds {writer : StringStatsWriter} {values : List (List UInt8)}
    (hset : writer.isSet = true ↔ values ≠ [])
    (hmin : writer.isSet = true → SmallestOf writer.min writer.minSize values)
    (hmax : writer.isSet = true → LargestOf writer.max writer.maxSize values) (v : List UInt8) :
    SmallestOf (updateMinMax writer (inlineBytes v) v.length).min
        (updateMinMax writer (inlineBytes v) v.length).minSize (values ++ [v]) ∧
      LargestOf (updateMinMax writer (inlineBytes v) v.length).max
        (updateMinMax writer (inlineBytes v) v.length).maxSize (values ++ [v]) := by
  by_cases hw : writer.isSet = true
  · obtain ⟨m, hm, hmin, hminSize, hle⟩ := hmin hw
    obtain ⟨M, hM, hmax, hmaxSize, hge⟩ := hmax hw
    rw [updateMinMax_set v hw hmin hminSize hmax hmaxSize]
    obtain ⟨hm', hle'⟩ := smaller_le v hm hle
    obtain ⟨hM', hge'⟩ := larger_ge v hM hge
    exact ⟨⟨_, hm', rfl, rfl, hle'⟩, ⟨_, hM', rfl, rfl, hge'⟩⟩
  · have hnil : values = [] := not_not.mp fun hne => hw (hset.mpr hne)
    have hself : ∀ w ∈ [v], inlineCompare v w ≠ .gt ∧ inlineCompare w v ≠ .gt := by
      intro w hw
      rw [List.mem_singleton.mp hw, inlineCompare_self]
      decide
    rw [updateMinMax, if_neg hw, hnil, List.nil_append]
    exact ⟨⟨v, by simp, rfl, rfl, fun w hw => (hself w hw).1⟩,
      ⟨v, by simp, rfl, rfl, fun w hw => (hself w hw).2⟩⟩

theorem wrote_update (isVarchar : Bool) {writer : StringStatsWriter}
    {rows : List (Option StringValue)} (h : Wrote writer rows) (row : Option StringValue) :
    Wrote (updateWriter isVarchar writer row) (rows ++ [row]) := by
  cases row with
  | none =>
      have hrows : stringRows (rows ++ [none]) = stringRows rows := by
        rw [stringRows_append, stringRows_none, List.append_nil]
      refine ⟨by simp [updateWriter], ?_, ?_, ?_, ?_, h.minLimit, ?_, ?_⟩
      all_goals rw [hrows]
      · exact h.valid
      · exact h.set
      · exact h.min
      · exact h.max
      · exact h.minLength
      · exact h.maxLength
  | some v =>
      have hrows : stringRows (rows ++ [some v]) = stringRows rows ++ [v.1] := by
        rw [stringRows_append, stringRows_some]
      obtain ⟨hnull, hvalid, hset, hmaxLen, hminLen⟩ :=
        updateMinMax_rest { writer with hasValid := true } (inlineBytes v.1) v.1.length
      have hbounds := @updateMinMax_bounds { writer with hasValid := true } (stringRows rows)
        h.set h.min h.max v.1
      refine ⟨?_, ?_, ?_, ?_, ?_, ?_, ?_, ?_⟩
      · simpa [updateWriter, hnull] using h.null
      · rw [hrows]
        simp [updateWriter, hvalid]
      · rw [hrows]
        simp [updateWriter, hset]
      · intro _
        rw [hrows]
        exact hbounds.1
      · intro _
        rw [hrows]
        exact hbounds.2
      · have hlimit := h.minLimit
        simp only [updateWriter, hminLen]
        split <;> omega
      · intro w hw
        rw [hrows, List.mem_append, List.mem_singleton] at hw
        simp only [updateWriter, hminLen]
        rcases hw with hw | rfl
        · have := h.minLength w hw
          split <;> omega
        · split <;> omega
      · intro w hw
        rw [hrows, List.mem_append, List.mem_singleton] at hw
        simp only [updateWriter, hmaxLen]
        rcases hw with hw | rfl
        · have := h.maxLength w hw
          split <;> omega
        · split <;> omega

theorem wrote_foldl (isVarchar : Bool) {writer : StringStatsWriter}
    {rows : List (Option StringValue)} (h : Wrote writer rows) (more : List (Option StringValue)) :
    Wrote (more.foldl (updateWriter isVarchar) writer) (rows ++ more) := by
  induction more generalizing writer rows with
  | nil => simpa using h
  | cons row more ih =>
      have := ih (wrote_update isVarchar h row)
      rwa [List.append_assoc, List.singleton_append] at this

/-! ## What every step keeps -/

structure DataInv (data : StringStatsData) (values : List (List UInt8)) : Prop where
  min : MinBound data.minType data.min values
  max : MaxBound data.maxType data.max values
  noStats : data.minType = .noStats ↔ data.maxType = .noStats
  emptyStats : data.minType = .emptyStats ↔ data.maxType = .emptyStats
  minLimit : data.hasMinStringLength = true →
    data.minStringLength ≤ maximumMinStringLength ∨ data.minStringLength = uint32Maximum
  minLength : data.hasMinStringLength = true →
    ∀ w ∈ values, Nat.min data.minStringLength maximumMinStringLength ≤ w.length
  maxLength : data.hasMaxStringLength = true → ∀ w ∈ values, w.length ≤ data.maxStringLength

theorem dataInv_empty : DataInv createEmpty [] where
  min := ⟨fun _ hw => (List.not_mem_nil hw).elim, fun h => nomatch h⟩
  max := ⟨fun _ hw => (List.not_mem_nil hw).elim, fun h => nomatch h⟩
  noStats := by simp [createEmpty]
  emptyStats := by simp [createEmpty]
  minLimit _ := .inr rfl
  minLength _ _ hw := (List.not_mem_nil hw).elim
  maxLength _ _ hw := (List.not_mem_nil hw).elim

theorem dataInv_unknown (values : List (List UInt8)) : DataInv createUnknown values where
  min := ⟨fun _ _ => trivial, fun h => nomatch h⟩
  max := ⟨fun _ _ => trivial, fun h => nomatch h⟩
  noStats := by simp [createUnknown]
  emptyStats := by simp [createUnknown]
  minLimit h := nomatch h
  minLength h := nomatch h
  maxLength h := nomatch h

theorem dataInv_merge (mergeType : StatsMergeType) {data other : StringStatsData}
    {values values' : List (List UInt8)} (h : DataInv data values) (h' : DataInv other values') :
    DataInv (merge mergeType data other) (values ++ values') where
  min := minBound_merge h.min h'.min
  max := maxBound_merge h.max h'.max
  noStats := by
    simp only [merge, mergeStats_noStats, h.noStats, h'.noStats]
  emptyStats := by
    simp only [merge, mergeStats_emptyStats, h.emptyStats, h'.emptyStats]
  minLimit hboth := by
    obtain ⟨hd, ho⟩ := Bool.and_eq_true_iff.mp hboth
    have h1 := h.minLimit hd
    have h2 := h'.minLimit ho
    show Nat.min data.minStringLength other.minStringLength ≤ _ ∨
      Nat.min data.minStringLength other.minStringLength = _
    rcases Nat.le_total data.minStringLength other.minStringLength with hle | hle
    · rwa [show Nat.min _ _ = _ from Nat.min_eq_left hle]
    · rwa [show Nat.min _ _ = _ from Nat.min_eq_right hle]
  minLength hboth w hw := by
    obtain ⟨hd, ho⟩ := Bool.and_eq_true_iff.mp hboth
    show min (min data.minStringLength other.minStringLength) maximumMinStringLength ≤ w.length
    rcases List.mem_append.mp hw with hw | hw
    · have : min data.minStringLength maximumMinStringLength ≤ w.length := h.minLength hd w hw
      omega
    · have : min other.minStringLength maximumMinStringLength ≤ w.length := h'.minLength ho w hw
      omega
  maxLength hboth w hw := by
    obtain ⟨hd, ho⟩ := Bool.and_eq_true_iff.mp hboth
    show w.length ≤ max data.maxStringLength other.maxStringLength
    rcases List.mem_append.mp hw with hw | hw
    · exact (h.maxLength hd w hw).trans (le_max_left _ _)
    · exact (h'.maxLength ho w hw).trans (le_max_right _ _)

theorem readWriterStats_isSet (data : List UInt8) (size : Nat) :
    (readWriterStats data size).2.isSet = true := by
  unfold readWriterStats
  split <;> rfl

theorem ne_of_isSet {type : StringStatsType} (h : type.isSet = true) :
    type ≠ .noStats ∧ type ≠ .emptyStats := by
  cases type with
  | noStats => cases h
  | emptyStats => cases h
  | exactStats => exact ⟨by decide, by decide⟩
  | truncatedStats => exact ⟨by decide, by decide⟩

theorem dataInv_writer {writer : StringStatsWriter} {rows : List (Option StringValue)}
    (h : Wrote writer rows) (hvalid : writer.hasValid = true) :
    DataInv (writerData writer) (stringRows rows) := by
  have hset : writer.isSet = true := h.set.mpr (h.valid.mp hvalid)
  obtain ⟨m, hm, hmin, hminSize, hle⟩ := h.min hset
  obtain ⟨M, hM, hmax, hmaxSize, hge⟩ := h.max hset
  have hminSet := ne_of_isSet (readWriterStats_isSet writer.min writer.minSize)
  have hmaxSet := ne_of_isSet (readWriterStats_isSet writer.max writer.maxSize)
  refine ⟨?_, ?_, ?_, ?_, fun _ => .inl h.minLimit, fun _ w hw => ?_, fun _ => h.maxLength⟩
  · show MinBound (readWriterStats writer.min writer.minSize).2
      (readWriterStats writer.min writer.minSize).1 _
    rw [hmin, hminSize]
    exact minBound_inline hm hle
  · show MaxBound (readWriterStats writer.max writer.maxSize).2
      (readWriterStats writer.max writer.maxSize).1 _
    rw [hmax, hmaxSize]
    exact maxBound_inline hM hge
  · exact iff_of_false hminSet.1 hmaxSet.1
  · exact iff_of_false hminSet.2 hmaxSet.2
  · exact (Nat.min_le_left _ _).trans (h.minLength w hw)

/-! ## The legacy format -/

theorem not_noStats_of_isSet {data : StringStatsData} {values : List (List UInt8)}
    (h : DataInv data values) (hset : data.minType.isSet = true) : data.maxType.isSet = true := by
  obtain ⟨hno, hempty⟩ := ne_of_isSet hset
  exact isSet_of_ne (fun hmax => hno (h.noStats.mpr hmax))
    fun hmax => hempty (h.emptyStats.mpr hmax)

theorem legacyConstructMinMax_set {type : StringStatsType} (hset : type.isSet = true)
    (bound : List UInt8) (isMin : Bool) :
    legacyConstructMinMax bound type isMin = padded 0 8 bound := by
  cases type with
  | noStats => cases hset
  | emptyStats => cases hset
  | exactStats => rfl
  | truncatedStats => rfl

/-- The bounds that the legacy format gives back, with the kind that it finds for both. -/
theorem legacy_bounds {data : StringStatsData} {values : List (List UInt8)}
    (h : DataInv data values) (hset : data.minType.isSet = true) :
    let type := legacyGetMinMaxType (padded 0 8 data.min) (padded 0 8 data.max)
      data.hasMaxStringLength data.maxStringLength
    MinBound type (legacyCut data.min) values ∧ MaxBound type (legacyCut data.max) values := by
  have hset' := not_noStats_of_isSet h hset
  have hatt := h.min.2 hset
  have hatt' := h.max.2 hset'
  have hle (w : List UInt8) (hw : w ∈ values) : WordLE data.min w :=
    (aboveMin_iff hset).mp (h.min.1 w hw)
  have hcut (w : List UInt8) (hw : w ∈ values) : WordLE (w.take data.max.length) data.max :=
    belowMax_cut hset' (h.max.1 w hw)
  have hhead : ¬ (padded 0 8 data.max).headD 0 < (padded 0 8 data.min).headD 0 := by
    obtain ⟨w, hw, -, hmaxHead, -⟩ := hatt'
    rw [headD_padded, headD_padded, hmaxHead]
    exact headD_le (hle w hw)
  intro type
  show MinBound (legacyGetMinMaxType _ _ _ _) _ _ ∧ MaxBound (legacyGetMinMaxType _ _ _ _) _ _
  unfold legacyGetMinMaxType
  rw [if_neg hhead]
  split_ifs with hno hexact
  · exact ⟨⟨fun _ _ => trivial, fun h => nomatch h⟩, ⟨fun _ _ => trivial, fun h => nomatch h⟩⟩
  · obtain ⟨hhas, h8, hlast⟩ := hexact
    have hlen := h.maxLength hhas
    obtain ⟨hmin, hminMem, -⟩ := exact_of_last hatt hlen h8 (hlast.imp id And.left)
    obtain ⟨hmax, hmaxMem, hmaxLen⟩ := exact_of_last hatt' hlen h8 (hlast.imp id And.right)
    rw [hmin, hmax]
    refine ⟨⟨fun w hw => hle w hw, fun _ => ⟨_, hminMem, List.prefix_refl _, rfl, fun _ => rfl⟩⟩,
      ⟨fun w hw => ?_, fun _ => ⟨_, hmaxMem, List.prefix_refl _, rfl, fun _ => rfl⟩⟩⟩
    have hbelow := hcut w hw
    rwa [List.take_of_length_le (hmaxLen ▸ hlen w hw)] at hbelow
  · refine ⟨⟨fun w hw => ?_, fun _ => ?_⟩, ⟨fun w hw => ?_, fun _ => ?_⟩⟩
    · refine (aboveMin_iff rfl).mpr ?_
      exact wordLE_trans (wordLE_of_isPrefix (legacyCut_isPrefix data.min)) (hle w hw)
    · exact attained_cut hatt (legacyCut_isPrefix data.min) (headD_legacyCut data.min)
    · exact wordLE_cut_of_isPrefix (legacyCut_isPrefix data.max) (hcut w hw)
    · exact attained_cut hatt' (legacyCut_isPrefix data.max) (headD_legacyCut data.max)

theorem bounds_noStats (bound bound' : List UInt8) (values : List (List UInt8)) :
    MinBound .noStats bound values ∧ MaxBound .noStats bound' values :=
  ⟨⟨fun _ _ => trivial, fun h => nomatch h⟩, ⟨fun _ _ => trivial, fun h => nomatch h⟩⟩

theorem bounds_emptyStats (bound bound' : List UInt8) :
    MinBound .emptyStats bound [] ∧ MaxBound .emptyStats bound' [] :=
  ⟨⟨fun _ hw => (List.not_mem_nil hw).elim, fun h => nomatch h⟩,
    ⟨fun _ hw => (List.not_mem_nil hw).elim, fun h => nomatch h⟩⟩

theorem dataInv_legacy {data : StringStatsData} {values : List (List UInt8)}
    (h : DataInv data values) :
    ∃ data', (serialize true data).bind deserialize = some data' ∧ DataInv data' values := by
  have hbounds :
      MinBound
        (legacyGetMinMaxType (legacyConstructMinMax data.min data.minType true)
          (legacyConstructMinMax data.max data.maxType false) data.hasMaxStringLength
          data.maxStringLength)
        (legacyReadMinMax (legacyConstructMinMax data.min data.minType true)) values ∧
      MaxBound
        (legacyGetMinMaxType (legacyConstructMinMax data.min data.minType true)
          (legacyConstructMinMax data.max data.maxType false) data.hasMaxStringLength
          data.maxStringLength)
        (legacyReadMinMax (legacyConstructMinMax data.max data.maxType false)) values := by
    by_cases hset : data.minType.isSet = true
    · rw [legacyConstructMinMax_set hset, legacyConstructMinMax_set (not_noStats_of_isSet h hset)]
      exact legacy_bounds h hset
    · have habove := h.min.1
      cases hmin : data.minType with
      | noStats =>
          rw [h.noStats.mp hmin]
          exact bounds_noStats _ _ _
      | emptyStats =>
          rw [hmin] at habove
          rw [h.emptyStats.mp hmin, List.eq_nil_iff_forall_not_mem.mpr habove]
          exact bounds_emptyStats _ _
      | exactStats => simp [hmin, StringStatsType.isSet] at hset
      | truncatedStats => simp [hmin, StringStatsType.isSet] at hset
  exact ⟨_, rfl, hbounds.1, hbounds.2, Iff.rfl, Iff.rfl, fun h => (nomatch h), fun h => (nomatch h),
    h.maxLength⟩

/-! ## The current format -/

open StringStatsField BitField

theorem truncateStatsIfRequired_le (length : Nat) (type : StringStatsType) :
    (truncateStatsIfRequired length type).1 ≤ 12 := by
  unfold truncateStatsIfRequired
  rw [show currentMaxStringMinmaxSize = 12 from rfl]
  split <;> omega

theorem setLength_eq {length : Nat} (h : length ≤ 12) (field : BitVec 32) (pos : Nat) :
    setLength field pos length =
      some (BitField.set field pos lengthBits (BitVec.ofNat 32 length)) :=
  if_neg (by omega)

theorem getLength_set {length : Nat} (h : length ≤ 12) (field : BitVec 32) {pos : Nat}
    (hpos : pos + lengthBits ≤ 32) :
    getLength (BitField.set field pos lengthBits (BitVec.ofNat 32 length)) pos = some length := by
  have hnat : (BitVec.ofNat 32 length).toNat = length := by
    rw [BitVec.toNat_ofNat]
    omega
  have hbits : length < 2 ^ lengthBits := by
    show length < 16
    omega
  unfold getLength
  rw [get_set _ _ hpos (hnat.symm ▸ hbits), hnat]
  exact if_neg (by omega)

theorem get_setTypes (field : BitVec 32) (minType maxType : StringStatsType) {pos bits : Nat}
    (hpos : 3 ≤ pos) :
    get (setMaxType (setMinType field minType) maxType) pos bits = get field pos bits := by
  have h1 : minExactOrEmptyPosition < pos := by
    show 1 < pos
    omega
  have h2 : maxExactOrEmptyPosition < pos := by
    show 2 < pos
    omega
  rw [setMaxType, get_setFlag _ _ (.inl h2), setMinType, get_setFlag _ _ (.inl h1)]

theorem hasFlag_setTypes (field : BitVec 32) (minType maxType : StringStatsType) :
    hasFlag (setMaxType (setMinType field minType) maxType) minExactOrEmptyPosition =
        exactOrEmpty minType ∧
      hasFlag (setMaxType (setMinType field minType) maxType) maxExactOrEmptyPosition =
        exactOrEmpty maxType := by
  constructor
  · rw [setMaxType, hasFlag_setFlag_of_ne _ _ (by decide) (by decide), setMinType,
      hasFlag_setFlag _ _ (by decide)]
  · rw [setMaxType, hasFlag_setFlag _ _ (by decide)]

def withMinStringLength (field : BitVec 32) (has : Bool) (length : Nat) : BitVec 32 :=
  if has then setMinStringLength field length else field

theorem get_withMinStringLength (field : BitVec 32) (has : Bool) (length : Nat) {pos bits : Nat}
    (hpos : pos + bits ≤ minStringLengthPosition) :
    get (withMinStringLength field has length) pos bits = get field pos bits := by
  cases has with
  | false => rfl
  | true => exact get_set_of_disjoint _ _ (.inl hpos)

theorem hasFlag_withMinStringLength (field : BitVec 32) (has : Bool) (length : Nat) {pos : Nat}
    (hpos : pos < minStringLengthPosition) :
    hasFlag (withMinStringLength field has length) pos = hasFlag field pos := by
  have h32 : pos < 32 := hpos.trans (by decide)
  cases has with
  | false => rfl
  | true => exact hasFlag_set _ _ h32 (.inl hpos)

theorem getMinStringLength_set (field : BitVec 32) (length : Nat) :
    getMinStringLength (setMinStringLength field length) =
      some (if maximumMinStringLength ≤ length + 1 then uint32Maximum else length) := by
  have hstored (stored : Nat) (h : stored ≤ maximumMinStringLength) :
      (get (BitField.set field minStringLengthPosition minStringLengthBitSize
        (BitVec.ofNat 32 stored)) minStringLengthPosition minStringLengthBitSize).toNat =
          stored := by
    have h21 : stored < 2 ^ minStringLengthBitSize := by
      have : (2 : Nat) ^ minStringLengthBitSize = maximumMinStringLength + 1 := by decide
      omega
    have hnat : (BitVec.ofNat 32 stored).toNat = stored := by
      rw [BitVec.toNat_ofNat]
      exact Nat.mod_eq_of_lt (h21.trans (by decide))
    rw [get_set _ _ (by decide) (hnat.symm ▸ h21), hnat]
  unfold setMinStringLength getMinStringLength
  dsimp only
  by_cases hlarge : length ≥ maximumMinStringLength
  · rw [if_pos hlarge, hstored _ le_rfl, if_neg (by decide), if_pos rfl, if_pos (by omega)]
  · rw [if_neg hlarge, hstored (length + 1) (by omega), if_neg (by omega)]
    by_cases hlast : length + 1 = maximumMinStringLength
    · rw [if_pos hlast, if_pos (by omega)]
    · rw [if_neg hlast, if_neg (by omega), Nat.add_sub_cancel]

theorem getLength_congr {field field' : BitVec 32} {pos : Nat}
    (h : get field pos lengthBits = get field' pos lengthBits) :
    getLength field pos = getLength field' pos := by
  unfold getLength
  rw [h]

theorem getMinStringLength_with (field : BitVec 32) (has : Bool) (length : Nat)
    (h : get field minStringLengthPosition minStringLengthBitSize = 0#32) :
    getMinStringLength (withMinStringLength field has length) =
      if has then some (if maximumMinStringLength ≤ length + 1 then uint32Maximum else length)
      else none := by
  cases has with
  | true => exact getMinStringLength_set field length
  | false =>
      unfold withMinStringLength getMinStringLength
      rw [if_neg Bool.false_ne_true, h]
      rfl

theorem get_zero (pos bits : Nat) : get 0#32 pos bits = 0#32 := by simp [BitField.get]

/-- The field before the lengths and kinds of the bounds are written. -/
theorem get_setHasUnicode (hasUnicode : Bool) {pos bits : Nat} (hpos : 1 ≤ pos) :
    get (setHasUnicode 0#32 hasUnicode) pos bits = 0#32 := by
  have h0 : noUnicodePosition < pos := hpos
  rw [setHasUnicode, get_setFlag _ _ (.inl h0), get_zero]

/-- What is read of a field to which the kinds and the minimum length were written last. -/
theorem field_reads (field : BitVec 32) (minType maxType : StringStatsType) (has : Bool)
    (length : Nat)
    (hzero : get field minStringLengthPosition minStringLengthBitSize = 0#32) :
    let packed := withMinStringLength (setMaxType (setMinType field minType) maxType) has length
    getHasUnicode packed = getHasUnicode field ∧
      (∀ b, getMinType packed b = typeOfFlag (exactOrEmpty minType) b) ∧
      (∀ b, getMaxType packed b = typeOfFlag (exactOrEmpty maxType) b) ∧
      getLength packed minLengthPosition = getLength field minLengthPosition ∧
      getLength packed maxLengthPosition = getLength field maxLengthPosition ∧
      getMinStringLength packed =
        if has then some (if maximumMinStringLength ≤ length + 1 then uint32Maximum else length)
        else none := by
  intro packed
  obtain ⟨hmin, hmax⟩ := hasFlag_setTypes field minType maxType
  refine ⟨?_, fun b => ?_, fun b => ?_, ?_, ?_, ?_⟩
  · rw [getHasUnicode, hasFlag_withMinStringLength _ _ _ (by decide), setMaxType,
      hasFlag_setFlag_of_ne _ _ (by decide) (by decide), setMinType,
      hasFlag_setFlag_of_ne _ _ (by decide) (by decide), getHasUnicode]
  · rw [getMinType, hasFlag_withMinStringLength _ _ _ (by decide), hmin]
  · rw [getMaxType, hasFlag_withMinStringLength _ _ _ (by decide), hmax]
  · refine getLength_congr ?_
    rw [get_withMinStringLength _ _ _ (by decide), get_setTypes _ _ _ (by decide)]
  · refine getLength_congr ?_
    rw [get_withMinStringLength _ _ _ (by decide), get_setTypes _ _ _ (by decide)]
  · refine getMinStringLength_with _ _ _ ?_
    rw [get_setTypes _ _ _ (by decide), hzero]

theorem getHasUnicode_set (hasUnicode : Bool) :
    getHasUnicode (setHasUnicode 0#32 hasUnicode) = hasUnicode := by
  rw [getHasUnicode, setHasUnicode, hasFlag_setFlag _ _ (by decide), Bool.not_not]

def storedType (set : Bool) (bound : List UInt8) (type : StringStatsType) : StringStatsType :=
  if set then (truncateStatsIfRequired bound.length type).2 else type

def storedData (data : StringStatsData) : StringStatsData :=
  let set := hasMinMax data
  let maxStringLength := if data.hasMaxStringLength then data.maxStringLength else uint32Maximum
  { min := if set then data.min.take 12 else []
    max := if set then data.max.take 12 else []
    hasUnicode := data.hasUnicode
    hasMaxStringLength := decide (maxStringLength ≠ uint32Maximum)
    maxStringLength := if maxStringLength ≠ uint32Maximum then maxStringLength else 0
    hasMinStringLength := data.hasMinStringLength
    minStringLength := if data.hasMinStringLength then
      if maximumMinStringLength ≤ data.minStringLength + 1 then uint32Maximum
      else data.minStringLength else 0
    hasTotalStringLength := data.hasTotalStringLength
    totalStringLength := if data.hasTotalStringLength then data.totalStringLength else 0
    minType := typeOfFlag (exactOrEmpty (storedType set data.min data.minType)) set
    maxType := typeOfFlag (exactOrEmpty (storedType set data.max data.maxType)) set }

theorem truncate_length (bound : List UInt8) (type : StringStatsType) :
    (truncateStatsIfRequired bound.length type).1 = min bound.length 12 := by
  unfold truncateStatsIfRequired
  rw [show currentMaxStringMinmaxSize = 12 from rfl]
  split
  · exact (Nat.min_eq_right (by omega)).symm
  · exact (Nat.min_eq_left (by omega)).symm

theorem take_padded (bound : List UInt8) (rest : List UInt8) :
    (padded 0 12 bound ++ rest).take (min bound.length 12) = bound.take 12 := by
  rw [padded, List.append_assoc, List.take_append_of_le_length (by rw [List.length_take]; omega),
    List.take_take, Nat.min_eq_left (Nat.min_le_right _ _)]
  rcases Nat.le_total bound.length 12 with h | h
  · rw [Nat.min_eq_left h, List.take_length, List.take_of_length_le h]
  · rw [Nat.min_eq_right h]

def lengthsField (data : StringStatsData) : BitVec 32 :=
  BitField.set
    (BitField.set (setHasUnicode 0#32 data.hasUnicode) minLengthPosition lengthBits
      (BitVec.ofNat 32 (truncateStatsIfRequired data.min.length data.minType).1))
    maxLengthPosition lengthBits
    (BitVec.ofNat 32 (truncateStatsIfRequired data.max.length data.maxType).1)

theorem lengthsField_reads (data : StringStatsData) :
    getHasUnicode (lengthsField data) = data.hasUnicode ∧
      get (lengthsField data) minStringLengthPosition minStringLengthBitSize = 0#32 ∧
      getLength (lengthsField data) minLengthPosition = some (min data.min.length 12) ∧
      getLength (lengthsField data) maxLengthPosition = some (min data.max.length 12) := by
  have hmin := truncateStatsIfRequired_le data.min.length data.minType
  have hmax := truncateStatsIfRequired_le data.max.length data.maxType
  unfold lengthsField
  refine ⟨?_, ?_, ?_, ?_⟩
  · rw [getHasUnicode, hasFlag_set _ _ (by decide) (.inl (by decide)),
      hasFlag_set _ _ (by decide) (.inl (by decide))]
    exact getHasUnicode_set data.hasUnicode
  · rw [get_set_of_disjoint _ _ (.inr (by decide)), get_set_of_disjoint _ _ (.inr (by decide)),
      get_setHasUnicode _ (by decide)]
  · rw [getLength_congr (get_set_of_disjoint _ _ (.inl (by decide))),
      getLength_set hmin _ (by decide), truncate_length]
  · rw [getLength_set hmax _ (by decide), truncate_length]

theorem current_eq (data : StringStatsData) :
    (serialize false data).bind deserialize = some (storedData data) := by
  by_cases hset : hasMinMax data = true
  · have hmin := truncateStatsIfRequired_le data.min.length data.minType
    have hmax := truncateStatsIfRequired_le data.max.length data.maxType
    obtain ⟨hunicode, hzero, hminLen, hmaxLen⟩ := lengthsField_reads data
    have hserialize : serialize false data = some (.current
        (if data.hasMaxStringLength then some data.maxStringLength else none)
        (some (padded 0 12 data.min ++ padded 0 12 data.max))
        (withMinStringLength
          (setMaxType
            (setMinType (lengthsField data)
              (truncateStatsIfRequired data.min.length data.minType).2)
            (truncateStatsIfRequired data.max.length data.maxType).2)
          data.hasMinStringLength data.minStringLength)
        (if data.hasTotalStringLength then some data.totalStringLength else none)) := by
      simp only [serialize, serializeMinMax, hset, setLength_eq hmin, setLength_eq hmax]
      rfl
    obtain ⟨r1, r2, r3, r4, r5, r6⟩ := field_reads (lengthsField data)
      (truncateStatsIfRequired data.min.length data.minType).2
      (truncateStatsIfRequired data.max.length data.maxType).2
      data.hasMinStringLength data.minStringLength hzero
    have hdrop : (padded (0 : UInt8) 12 data.min ++ padded 0 12 data.max).drop 12 =
        padded 0 12 data.max := List.drop_left' (length_padded ..)
    have htake := take_padded data.max []
    rw [List.append_nil] at htake
    rw [hserialize, Option.bind_some]
    simp only [deserialize, r1, r2, r3, r4, r5, r6, hunicode, hminLen, hmaxLen, storedData, hset,
      storedType, Option.bind_eq_bind, Option.bind_some, Option.pure_def, take_padded,
      show currentMaxStringMinmaxSize = 12 from rfl, hdrop, htake]
    cases data.hasMaxStringLength <;> cases data.hasMinStringLength <;>
      cases data.hasTotalStringLength <;> simp
  · have hserialize : serialize false data = some (.current
        (if data.hasMaxStringLength then some data.maxStringLength else none) none
        (withMinStringLength
          (setMaxType (setMinType (setHasUnicode 0#32 data.hasUnicode) data.minType) data.maxType)
          data.hasMinStringLength data.minStringLength)
        (if data.hasTotalStringLength then some data.totalStringLength else none)) := by
      simp only [serialize, serializeMinMax, hset]
      rfl
    obtain ⟨r1, r2, r3, r4, r5, r6⟩ := field_reads (setHasUnicode 0#32 data.hasUnicode)
      data.minType data.maxType data.hasMinStringLength data.minStringLength
      (get_setHasUnicode _ (by decide))
    rw [hserialize, Option.bind_some]
    simp only [deserialize, r1, r2, r3, r6, getHasUnicode_set, storedData, hset,
      storedType, Option.bind_eq_bind, Option.bind_some, Option.pure_def]
    cases data.hasMaxStringLength <;> cases data.hasMinStringLength <;>
      cases data.hasTotalStringLength <;> simp

/-! ### Bounds that are read back -/

theorem typeOfFlag_set {type : StringStatsType} (h : type.isSet = true) :
    typeOfFlag (exactOrEmpty type) true = type := by
  cases type with
  | noStats => cases h
  | emptyStats => cases h
  | exactStats => rfl
  | truncatedStats => rfl

theorem typeOfFlag_not_set {type : StringStatsType} (h : ¬ type.isSet = true) :
    typeOfFlag (exactOrEmpty type) false = type := by
  cases type with
  | noStats => rfl
  | emptyStats => rfl
  | exactStats => exact absurd rfl h
  | truncatedStats => exact absurd rfl h

theorem truncate_type (bound : List UInt8) (type : StringStatsType) :
    (truncateStatsIfRequired bound.length type).2 =
      if 12 < bound.length then .truncatedStats else type := by
  unfold truncateStatsIfRequired
  rw [show currentMaxStringMinmaxSize = 12 from rfl]
  split <;> rfl

theorem truncate_isSet {bound : List UInt8} {type : StringStatsType} (h : type.isSet = true) :
    (truncateStatsIfRequired bound.length type).2.isSet = true := by
  rw [truncate_type]
  split
  · rfl
  · exact h

variable {type : StringStatsType} {bound : List UInt8} {values : List (List UInt8)}

theorem minBound_truncate (hset : type.isSet = true) (h : MinBound type bound values) :
    MinBound (truncateStatsIfRequired bound.length type).2 (bound.take 12) values := by
  rw [truncate_type]
  split
  · refine ⟨fun w hw => (aboveMin_iff rfl).mpr ?_, fun _ => ?_⟩
    · exact wordLE_trans (wordLE_of_isPrefix (List.take_prefix 12 bound))
        ((aboveMin_iff hset).mp (h.1 w hw))
    · exact attained_cut (h.2 hset) (List.take_prefix 12 bound) (headD_take bound)
  · rw [List.take_of_length_le (by omega)]
    exact h

theorem maxBound_truncate (hset : type.isSet = true) (h : MaxBound type bound values) :
    MaxBound (truncateStatsIfRequired bound.length type).2 (bound.take 12) values := by
  rw [truncate_type]
  split
  · refine ⟨fun w hw => ?_, fun _ => ?_⟩
    · exact belowMax_of_isPrefix hset (List.take_prefix 12 bound) (h.1 w hw)
    · exact attained_cut (h.2 hset) (List.take_prefix 12 bound) (headD_take bound)
  · rw [List.take_of_length_le (by omega)]
    exact h

theorem minBound_not_set (hset : ¬ type.isSet = true) (h : MinBound type bound values)
    (bound' : List UInt8) : MinBound type bound' values := by
  cases type with
  | noStats => exact ⟨fun _ _ => trivial, fun h => nomatch h⟩
  | emptyStats => exact ⟨h.1, fun h => nomatch h⟩
  | exactStats => exact absurd rfl hset
  | truncatedStats => exact absurd rfl hset

theorem maxBound_not_set (hset : ¬ type.isSet = true) (h : MaxBound type bound values)
    (bound' : List UInt8) : MaxBound type bound' values := by
  cases type with
  | noStats => exact ⟨fun _ _ => trivial, fun h => nomatch h⟩
  | emptyStats => exact ⟨h.1, fun h => nomatch h⟩
  | exactStats => exact absurd rfl hset
  | truncatedStats => exact absurd rfl hset

/-- Statistics that are read back hold, unless the minimum length is the one that is mistaken for
longer ones. -/
theorem dataInv_stored {data : StringStatsData} (h : DataInv data values)
    (hlen : data.hasMinStringLength = true → data.minStringLength + 1 ≠ maximumMinStringLength) :
    DataInv (storedData data) values := by
  have hbounds : MinBound (storedData data).minType (storedData data).min values ∧
      MaxBound (storedData data).maxType (storedData data).max values ∧
      ((storedData data).minType = .noStats ↔ (storedData data).maxType = .noStats) ∧
      ((storedData data).minType = .emptyStats ↔ (storedData data).maxType = .emptyStats) := by
    by_cases hset : data.minType.isSet = true
    · have hset' := not_noStats_of_isSet h hset
      have hboth : hasMinMax data = true := by simp [hasMinMax, hset, hset']
      simp only [storedData, hboth, storedType, if_true]
      rw [typeOfFlag_set (truncate_isSet hset), typeOfFlag_set (truncate_isSet hset')]
      have h1 := ne_of_isSet (@truncate_isSet data.min _ hset)
      have h2 := ne_of_isSet (@truncate_isSet data.max _ hset')
      exact ⟨minBound_truncate hset h.min, maxBound_truncate hset' h.max,
        iff_of_false h1.1 h2.1, iff_of_false h1.2 h2.2⟩
    · have hset' : ¬ data.maxType.isSet = true := by
        intro hmax
        obtain ⟨hno, hempty⟩ := ne_of_isSet hmax
        exact hset (isSet_of_ne (fun hmin => hno (h.noStats.mp hmin))
          fun hmin => hempty (h.emptyStats.mp hmin))
      have hboth : hasMinMax data = false := by simp [hasMinMax, hset]
      simp only [storedData, hboth, storedType, Bool.false_eq_true, if_false]
      rw [typeOfFlag_not_set hset, typeOfFlag_not_set hset']
      exact ⟨minBound_not_set hset h.min _, maxBound_not_set hset' h.max _, h.noStats,
        h.emptyStats⟩
  refine ⟨hbounds.1, hbounds.2.1, hbounds.2.2.1, hbounds.2.2.2, fun hhas => ?_, fun hhas w hw => ?_,
    fun hhas w hw => ?_⟩
  · have hhas : data.hasMinStringLength = true := hhas
    simp only [storedData, hhas, if_true]
    split
    · exact .inr rfl
    · exact .inl (by omega)
  · have hhas : data.hasMinStringLength = true := hhas
    have hmin : min data.minStringLength maximumMinStringLength ≤ w.length := h.minLength hhas w hw
    have hne := hlen hhas
    simp only [storedData, hhas, if_true]
    split
    · refine (Nat.min_le_right _ _).trans ?_
      omega
    · exact hmin
  · simp only [storedData, decide_eq_true_eq] at hhas ⊢
    rw [if_pos hhas]
    cases hmax : data.hasMaxStringLength with
    | true => exact h.maxLength hmax w hw
    | false => simp [hmax] at hhas

/-! ## Histories -/

/-- The statistics hold for the rows. A truncated bound holds on the prefix of a string. -/
structure Sound (stats : BaseStatistics StringStatsData) (rows : List (Option StringValue)) :
    Prop where
  null : none ∈ rows → stats.hasNull = true
  valid : stringRows rows ≠ [] → stats.hasNoNull = true
  min : ∀ w ∈ stringRows rows, AboveMin stats.data.minType stats.data.min w
  max : ∀ w ∈ stringRows rows, BelowMax stats.data.maxType stats.data.max w
  exactMin : stats.data.minType = .exactStats → stats.data.min ∈ stringRows rows
  exactMax : stats.data.maxType = .exactStats → stats.data.max ∈ stringRows rows
  minLength : ∀ n, minStringLength stats.data = some n → ∀ w ∈ stringRows rows, n ≤ w.length
  maxLength : stats.data.hasMaxStringLength = true →
    ∀ w ∈ stringRows rows, w.length ≤ stats.data.maxStringLength

structure Inv (stats : BaseStatistics StringStatsData) (rows : List (Option StringValue)) :
    Prop where
  null : none ∈ rows → stats.hasNull = true
  valid : stringRows rows ≠ [] → stats.hasNoNull = true
  data : DataInv stats.data (stringRows rows)

theorem exact_mem (hatt : type.isSet = true → Attained type bound values)
    (htype : type = .exactStats) : bound ∈ values := by
  subst htype
  obtain ⟨w, hw, -, -, heq⟩ := hatt rfl
  exact heq rfl ▸ hw

theorem Inv.sound {stats : BaseStatistics StringStatsData} {rows : List (Option StringValue)}
    (h : Inv stats rows) : Sound stats rows where
  null := h.null
  valid := h.valid
  min := h.data.min.1
  max := h.data.max.1
  exactMin := exact_mem h.data.min.2
  exactMax := exact_mem h.data.max.2
  minLength n hn w hw := by
    unfold minStringLength at hn
    split at hn
    · rename_i hhas
      obtain rfl := Option.some.inj hn
      have hlimit := (h.data.minLimit hhas.1).resolve_right hhas.2
      have hmin : min stats.data.minStringLength maximumMinStringLength ≤ w.length :=
        h.data.minLength hhas.1 w hw
      omega
    · cases hn
  maxLength := h.data.maxLength

theorem inv_write {stats : BaseStatistics StringStatsData} {rows rows' : List (Option StringValue)}
    {writer : StringStatsWriter} (h : Inv stats rows) (hw : Wrote writer rows') :
    Inv (mergeWriter writer stats) (rows ++ rows') := by
  have hflags :
      (mergeWriter writer stats).hasNull = (if writer.hasNull then true else stats.hasNull) ∧
      (mergeWriter writer stats).hasNoNull =
        if writer.hasValid then true else stats.hasNoNull := by
    cases hvalid : writer.hasValid <;> simp [mergeWriter, BaseStatistics.mergeBase, hvalid]
  refine ⟨fun hnull => ?_, fun hvalid => ?_, ?_⟩
  · rw [hflags.1]
    rcases List.mem_append.mp hnull with hnull | hnull
    · simp [h.null hnull]
    · simp [hw.null.mpr hnull]
  · rw [hflags.2]
    by_cases hrows' : stringRows rows' = []
    · rw [stringRows_append, hrows', List.append_nil] at hvalid
      simp [h.valid hvalid]
    · simp [hw.valid.mpr hrows']
  · rw [stringRows_append]
    by_cases hvalid : writer.hasValid = true
    · have hdata : (mergeWriter writer stats).data =
          merge .mergeStats stats.data (writerData writer) := by
        simp [mergeWriter, hvalid, BaseStatistics.mergeBase]
      rw [hdata]
      exact dataInv_merge .mergeStats h.data (dataInv_writer hw hvalid)
    · have hdata : (mergeWriter writer stats).data = stats.data := by
        simp [mergeWriter, hvalid, BaseStatistics.mergeBase]
      have hnil : stringRows rows' = [] := not_not.mp fun hne => hvalid (hw.valid.mpr hne)
      rw [hdata, hnil, List.append_nil]
      exact h.data

theorem inv_merge (mergeType : StatsMergeType) {stats other : BaseStatistics StringStatsData}
    {rows rows' : List (Option StringValue)} (h : Inv stats rows) (h' : Inv other rows') :
    Inv (stats.merge (merge mergeType) other) (rows ++ rows') := by
  refine ⟨fun hnull => ?_, fun hvalid => ?_, ?_⟩
  · rcases List.mem_append.mp hnull with hnull | hnull
    · simp [BaseStatistics.merge, h.null hnull]
    · simp [BaseStatistics.merge, h'.null hnull]
  · rw [stringRows_append, Ne, List.append_eq_nil_iff, not_and_or] at hvalid
    rcases hvalid with hvalid | hvalid
    · simp [BaseStatistics.merge, h.valid hvalid]
    · simp [BaseStatistics.merge, h'.valid hvalid]
  · rw [stringRows_append]
    exact dataInv_merge mergeType h.data h'.data

/-- No step of a history writes statistics in the current format whose minimum length is
`2 ^ 21 - 2`. -/
def Encodable (isVarchar : Bool) : StatsFeed StringValue → Prop
  | .empty => True
  | .unknown _ => True
  | .write target _ => Encodable isVarchar target
  | .merge _ target other => Encodable isVarchar target ∧ Encodable isVarchar other
  | .copy source => Encodable isVarchar source
  | .store legacy source => Encodable isVarchar source ∧ (legacy = false →
      ∀ stats, run isVarchar source = some stats → stats.data.hasMinStringLength = true →
        stats.data.minStringLength ≠ 2 ^ 21 - 2)

theorem string_feed_inv (isVarchar : Bool) (feed : StatsFeed StringValue)
    (h : Encodable isVarchar feed) :
    ∃ stats, run isVarchar feed = some stats ∧ Inv stats feed.rows := by
  induction feed with
  | empty =>
      exact ⟨_, rfl, fun h => (List.not_mem_nil h).elim, fun h => absurd rfl h, dataInv_empty⟩
  | unknown rows => exact ⟨_, rfl, fun _ => rfl, fun _ => rfl, dataInv_unknown _⟩
  | write target rows ih =>
      obtain ⟨stats, hrun, hinv⟩ := ih h
      have hwrote := wrote_foldl isVarchar wrote_clear rows
      exact ⟨_, by rw [run, hrun]; rfl, inv_write hinv hwrote⟩
  | merge mergeType target other ih ih' =>
      obtain ⟨stats, hrun, hinv⟩ := ih h.1
      obtain ⟨stats', hrun', hinv'⟩ := ih' h.2
      exact ⟨_, by rw [run, hrun, hrun']; rfl, inv_merge mergeType hinv hinv'⟩
  | copy source ih => exact ih h
  | store legacy source ih =>
      obtain ⟨stats, hrun, hinv⟩ := ih h.1
      have hstored : ∃ data', (serialize legacy stats.data).bind deserialize = some data' ∧
          DataInv data' (stringRows source.rows) := by
        cases legacy with
        | true => exact dataInv_legacy hinv.data
        | false =>
            refine ⟨_, current_eq stats.data, dataInv_stored hinv.data fun hhas heq => ?_⟩
            refine h.2 rfl stats hrun hhas ?_
            have : maximumMinStringLength = 2 ^ 21 - 1 := rfl
            omega
      obtain ⟨data', hdata, hinv'⟩ := hstored
      obtain ⟨stored, hserialize, hdeserialize⟩ := Option.bind_eq_some_iff.mp hdata
      refine ⟨{ stats with data := data' }, ?_, hinv.null, hinv.valid, hinv'⟩
      rw [run, hrun]
      show (serialize legacy stats.data).bind (fun stored => (deserialize stored).bind _) = _
      rw [hserialize, Option.bind_some, hdeserialize]
      rfl

/-! ## The zone map -/

theorem compareStringStats_truncated (input stats : List UInt8) :
    compareStringStats input stats .truncatedStats =
      compareWords (input.take stats.length) stats := by
  unfold compareStringStats
  split
  · rfl
  · rename_i h
    rw [List.take_of_length_le (by simpa using h)]

theorem compareStringStats_exact (input stats : List UInt8) :
    compareStringStats input stats .exactStats = compareWords input stats :=
  if_neg (by simp)

theorem lt_of_minComp (hset : type.isSet = true) {w c : List UInt8} (h : AboveMin type bound w)
    (hcomp : compareStringStats c bound type = .lt) : compareWords w c = .gt := by
  have hle := (aboveMin_iff hset).mp h
  have hlt : compareWords c bound = .lt := by
    by_cases htype : type = .truncatedStats
    · subst htype
      rw [compareStringStats_truncated] at hcomp
      refine lt_of_cut_lt (n := bound.length) ?_
      rwa [List.take_length]
    · obtain rfl := exact_of_isSet hset htype
      rwa [compareStringStats_exact] at hcomp
  rw [compareWords_swap c w, lt_of_lt_of_wordLE hlt hle]
  rfl

theorem gt_of_maxComp (hset : type.isSet = true) {w c : List UInt8} (h : BelowMax type bound w)
    (hcomp : compareStringStats c bound type = .gt) : compareWords w c = .lt := by
  by_cases htype : type = .truncatedStats
  · subst htype
    rw [compareStringStats_truncated, compareWords_swap, Ordering.swap_eq_gt] at hcomp
    exact lt_of_cut_lt (lt_of_wordLE_of_lt h hcomp)
  · obtain rfl := exact_of_isSet hset htype
    rw [compareStringStats_exact, compareWords_swap, Ordering.swap_eq_gt] at hcomp
    exact lt_of_wordLE_of_lt h hcomp

variable {min max : List UInt8} {minType maxType : StringStatsType}

/-- Bounds of the values decide as they are compared to the constant. -/
theorem checkZonemapBounds_sound (hminSet : minType.isSet = true) (hmaxSet : maxType.isSet = true)
    (hmin : ∀ w ∈ values, AboveMin minType min w) (hmax : ∀ w ∈ values, BelowMax maxType max w)
    (comparison : ComparisonType) (constant : List UInt8) :
    ZonemapSound values compareWords comparison [constant]
      (checkZonemapBounds min minType max maxType comparison constant) := by
  refine zonemapSound_singleton fun w hw => ?_
  have hlo (hcomp : compareStringStats constant min minType = .lt) :
      compareWords w constant = .gt :=
    lt_of_minComp hminSet (hmin w hw) hcomp
  have hhi (hcomp : compareStringStats constant max maxType = .gt) :
      compareWords w constant = .lt :=
    gt_of_maxComp hmaxSet (hmax w hw) hcomp
  have hge (hcomp : compareStringStats constant min minType = .eq)
      (htype : minType = .exactStats) : compareWords w constant ≠ .lt := by
    subst htype
    rw [compareStringStats_exact] at hcomp
    rw [eq_of_compareWords hcomp]
    exact not_lt_iff_wordLE.mpr (hmin w hw)
  have hle (hcomp : compareStringStats constant max maxType = .eq)
      (htype : maxType = .exactStats) : compareWords w constant ≠ .gt := by
    subst htype
    rw [compareStringStats_exact] at hcomp
    rw [eq_of_compareWords hcomp]
    exact hmax w hw
  have hexact (h : compareStringStats constant min minType = .eq ∧
      compareStringStats constant max maxType = .eq ∧ minType = .exactStats ∧
      maxType = .exactStats) : compareWords w constant = .eq := by
    cases hcmp : compareWords w constant with
    | lt => exact absurd hcmp (hge h.1 h.2.2.1)
    | eq => rfl
    | gt => exact absurd hcmp (hle h.2.1 h.2.2.2)
  cases comparison with
  | equal | notDistinctFrom =>
      simp only [checkZonemapBounds]
      split_ifs with hx hr
      · rw [hexact (of_decide_eq_true hx)]
        rfl
      · trivial
      · rw [not_and_or, not_not, not_not] at hr
        rcases hr with hr | hr
        · rw [hlo hr]
          rfl
        · rw [hhi hr]
          rfl
  | notEqual | distinctFrom =>
      simp only [checkZonemapBounds]
      split_ifs with hr hx
      · rcases hr with hr | hr
        · rw [hlo hr]
          rfl
        · rw [hhi hr]
          rfl
      · rw [hexact (of_decide_eq_true hx)]
        rfl
      · trivial
  | lessThan =>
      simp only [checkZonemapBounds]
      split_ifs with hn
      · trivial
      · rw [not_or, not_and, not_not] at hn
        cases hcomp : compareStringStats constant min minType with
        | lt =>
            rw [hlo hcomp]
            rfl
        | eq => exact decide_eq_false (hge hcomp (hn.2 hcomp))
        | gt => exact absurd hcomp hn.1
  | lessThanOrEqualTo =>
      simp only [checkZonemapBounds]
      split_ifs with hn
      · trivial
      · rw [hlo (not_not.mp hn)]
        rfl
  | greaterThan =>
      simp only [checkZonemapBounds]
      split_ifs with hn
      · trivial
      · rw [not_or, not_and, not_not] at hn
        cases hcomp : compareStringStats constant max maxType with
        | lt => exact absurd hcomp hn.1
        | eq => exact decide_eq_false (hle hcomp (hn.2 hcomp))
        | gt =>
            rw [hhi hcomp]
            rfl
  | greaterThanOrEqualTo =>
      simp only [checkZonemapBounds]
      split_ifs with hn
      · trivial
      · rw [hhi (not_not.mp hn)]
        rfl

theorem string_zonemap_sound {stats : BaseStatistics StringStatsData}
    {rows : List (Option StringValue)} (h : Sound stats rows) (comparison : ComparisonType)
    (constants : List (List UInt8)) :
    ZonemapSound (stringRows rows) compareWords comparison constants
      (checkZonemap stats.data comparison constants) := by
  refine checkConstants_sound fun constant _ => ?_
  unfold checkZonemapConstant
  split
  · rename_i hset
    obtain ⟨hminSet, hmaxSet⟩ := Bool.and_eq_true_iff.mp hset
    split
    · rename_i hlonger
      obtain ⟨htype, hlen, hminLen, -⟩ := hlonger
      refine checkZonemapBounds_sound rfl hmaxSet (fun w hw => ?_) h.max comparison constant
      cases hn : minStringLength stats.data with
      | none => simp [hn] at hminLen
      | some n =>
          have hlt : constant.length < n := by simpa [hn] using hminLen
          have hle := h.minLength n hn w hw
          exact wordLE_append_least compare_zero ((aboveMin_iff hminSet).mp (h.min w hw)) (by omega)
    · exact checkZonemapBounds_sound hminSet hmaxSet h.min h.max comparison constant
  · exact ⟨fun h => (nomatch h), fun h => (nomatch h)⟩

/-! ## The minimum length that is lost -/

theorem run_write_one (isVarchar : Bool) (a : StringValue) :
    ∃ stats, run isVarchar (.write .empty [some a]) = some stats ∧
      stats.data.hasMinStringLength = true ∧
      stats.data.minStringLength =
        if a.1.length < maximumMinStringLength then a.1.length else maximumMinStringLength := by
  obtain ⟨-, -, -, -, hminLen⟩ :=
    updateMinMax_rest { clear with hasValid := true } (inlineBytes a.1) a.1.length
  have hvalid : (updateWriter isVarchar clear (some a)).hasValid = true :=
    (wrote_update isVarchar wrote_clear (some a)).valid.mpr (by simp [stringRows, validRows])
  have hwriter : (updateWriter isVarchar clear (some a)).minStringLength =
      if a.1.length < maximumMinStringLength then a.1.length else maximumMinStringLength := by
    simp only [updateWriter, hminLen]
    rfl
  have hdata : (mergeWriter (updateWriter isVarchar clear (some a)) (.empty createEmpty)).data =
      merge .mergeStats createEmpty (writerData (updateWriter isVarchar clear (some a))) := by
    simp [mergeWriter, hvalid, BaseStatistics.mergeBase, BaseStatistics.empty]
  refine ⟨_, rfl, ?_, ?_⟩
  · show (mergeWriter (updateWriter isVarchar clear (some a))
      (.empty createEmpty)).data.hasMinStringLength = true
    rw [hdata]
    rfl
  · show (mergeWriter (updateWriter isVarchar clear (some a))
      (.empty createEmpty)).data.minStringLength = _
    rw [hdata]
    show Nat.min uint32Maximum (updateWriter isVarchar clear (some a)).minStringLength = _
    rw [hwriter]
    refine Nat.min_eq_right ?_
    have : maximumMinStringLength ≤ uint32Maximum := by decide
    split <;> omega

/-- A string of the length that is mistaken for longer ones, fed, written and read back, and merged
with a longer one. -/
def lostFeed (a b : StringValue) : StatsFeed StringValue :=
  .merge .mergeStats (.store false (.write .empty [some a])) (.write .empty [some b])

theorem run_lostFeed (isVarchar : Bool) {a b : StringValue} (ha : a.1.length = 2 ^ 21 - 2)
    (hb : b.1.length = 2 ^ 21 - 1) :
    ∃ stats, run isVarchar (lostFeed a b) = some stats ∧
      minStringLength stats.data = some (2 ^ 21 - 1) := by
  obtain ⟨stats, hrun, hhas, hlen⟩ := run_write_one isVarchar a
  obtain ⟨stats', hrun', hhas', hlen'⟩ := run_write_one isVarchar b
  have hmaximum : maximumMinStringLength = 2 ^ 21 - 1 := rfl
  rw [if_pos (by omega)] at hlen
  rw [if_neg (by omega)] at hlen'
  obtain ⟨stored, hserialize, hdeserialize⟩ := Option.bind_eq_some_iff.mp (current_eq stats.data)
  have hstore : run isVarchar (.store false (.write .empty [some a])) =
      some { stats with data := storedData stats.data } := by
    rw [run, hrun]
    show (serialize false stats.data).bind (fun stored => (deserialize stored).bind _) = _
    rw [hserialize, Option.bind_some, hdeserialize]
    rfl
  refine ⟨_, by rw [lostFeed, run, hstore, hrun']; rfl, ?_⟩
  have hmin : (storedData stats.data).minStringLength = uint32Maximum := by
    simp only [storedData, hhas, if_true]
    rw [if_pos (by omega)]
  unfold minStringLength
  have hmerged : (merge .mergeStats (storedData stats.data) stats'.data).hasMinStringLength = true ∧
      (merge .mergeStats (storedData stats.data) stats'.data).minStringLength = 2 ^ 21 - 1 := by
    refine ⟨?_, ?_⟩
    · show (stats.data.hasMinStringLength && stats'.data.hasMinStringLength) = true
      rw [hhas, hhas']
      rfl
    · show Nat.min (storedData stats.data).minStringLength stats'.data.minStringLength = _
      rw [hmin, hlen', hmaximum]
      rfl
  refine (if_pos ⟨hmerged.1, ?_⟩).trans (congrArg some hmerged.2)
  show (merge .mergeStats (storedData stats.data) stats'.data).minStringLength ≠ uint32Maximum
  rw [hmerged.2]
  decide

def repeatedString (n : Nat) (h : n < 2 ^ 32) : StringValue :=
  ⟨List.replicate n 97, by rwa [List.length_replicate]⟩

end StringStats

/-- Statistics of integer columns always hold. Statistics of string columns hold at the end of every
history that does not write a minimum length of `2 ^ 21 - 2` in the current format. The zone map
then only rules out rows that do not satisfy the comparison and only takes rows that do. -/
theorem column_stats_sound (signed : Bool) (width : IntWidth)
    (numbers : StatsFeed (IntValue signed width)) (isVarchar : Bool)
    (strings : StatsFeed StringValue) (h : StringStats.Encodable isVarchar strings) :
    (NumericStats.Sound (NumericStats.run numbers) numbers.rows ∧
      ∀ comparison constants, ZonemapSound (validRows numbers.rows) compare comparison constants
        (NumericStats.checkZonemap (NumericStats.run numbers).data comparison constants)) ∧
    ∃ stats, StringStats.run isVarchar strings = some stats ∧
      StringStats.Sound stats strings.rows ∧
      ∀ comparison constants,
        ZonemapSound (StringStats.stringRows strings.rows) compareWords comparison constants
          (StringStats.checkZonemap stats.data comparison constants) := by
  refine ⟨?_, ?_⟩
  · have hsound := NumericStats.numeric_feed_sound numbers
    exact ⟨hsound, NumericStats.numeric_zonemap_sound hsound.bounds⟩
  · obtain ⟨stats, hrun, hinv⟩ := StringStats.string_feed_inv isVarchar strings h
    exact ⟨stats, hrun, hinv.sound, StringStats.string_zonemap_sound hinv.sound⟩

theorem column_stats_sound_stored :
    let source : StatsFeed StringValue := .write .empty [some ⟨[97, 98], by decide⟩, none]
    StringStats.Encodable true (.store false source) ∧
      ∃ stats, StringStats.run true (.store false source) = some stats ∧
        StringStats.Sound stats source.rows := by
  intro source
  have hlen : (StringStats.run true source).map (·.data.minStringLength) = some 2 := by decide
  have hsource : StringStats.Encodable true (.store false source) := by
    refine ⟨trivial, fun _ stats hrun _ heq => ?_⟩
    rw [hrun, Option.map_some, heq] at hlen
    exact absurd hlen (by decide)
  refine ⟨hsource, ?_⟩
  obtain ⟨-, stats, hrun, hsound, -⟩ :=
    column_stats_sound true .w32 .empty true (.store false source) hsource
  exact ⟨stats, hrun, hsound⟩

/-- After the current format a string of `2 ^ 21 - 2` bytes is shorter than the minimum length. -/
theorem minimum_length_lost :
    ∃ stats, StringStats.run false (StringStats.lostFeed
        (StringStats.repeatedString (2 ^ 21 - 2) (by decide))
        (StringStats.repeatedString (2 ^ 21 - 1) (by decide))) = some stats ∧
      ¬ StringStats.Sound stats (StringStats.lostFeed
        (StringStats.repeatedString (2 ^ 21 - 2) (by decide))
        (StringStats.repeatedString (2 ^ 21 - 1) (by decide))).rows := by
  have ha : (StringStats.repeatedString (2 ^ 21 - 2) (by decide)).1.length = 2 ^ 21 - 2 :=
    List.length_replicate
  have hb : (StringStats.repeatedString (2 ^ 21 - 1) (by decide)).1.length = 2 ^ 21 - 1 :=
    List.length_replicate
  obtain ⟨stats, hrun, hmin⟩ := StringStats.run_lostFeed false ha hb
  refine ⟨stats, hrun, fun hsound => ?_⟩
  have hle := hsound.minLength _ hmin (StringStats.repeatedString (2 ^ 21 - 2) (by decide)).1
    (List.mem_map.mpr ⟨_, mem_validRows.mpr (List.mem_cons_self ..), rfl⟩)
  rw [ha] at hle
  exact absurd hle (by decide)

end MiniDuck
