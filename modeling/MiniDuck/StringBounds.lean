import MiniDuck.StringStats

/-!
# String bounds stay sound

A lower bound lies below every value, an upper bound above the value cut
to the length of the bound if it is truncated. Every bound is a prefix of
some value and an exact one is a value (`Attained`); the first byte of a
bound, zero if there is none, is the first byte of that value. With this
much the kinds of the bounds can be found again from the legacy format.

`minBound_merge` and `maxBound_merge` are about one merge, `wrote_update`
about one value fed to a writer, and `legacy_bounds` and `current_bounds`
about one round through a format.
-/

namespace MiniDuck

namespace StringStats

theorem compare_zero (a : UInt8) : compare 0 a ≠ .gt := by
  rw [compare_byte, Ne, Nat.compare_eq_gt]
  exact Nat.not_lt_zero _

/-! ## Bounds -/

/-- The bound is a prefix of a value, and exact only if it is one. -/
def Attained (type : StringStatsType) (bound : List UInt8) (values : List (List UInt8)) : Prop :=
  ∃ w ∈ values, bound <+: w ∧ bound.headD 0 = w.headD 0 ∧ (type = .exactStats → bound = w)

def AboveMin (type : StringStatsType) (bound w : List UInt8) : Prop :=
  match type with
  | .noStats => True
  | .emptyStats => False
  | .exactStats => WordLE bound w
  | .truncatedStats => WordLE bound (w.take bound.length)

def BelowMax (type : StringStatsType) (bound w : List UInt8) : Prop :=
  match type with
  | .noStats => True
  | .emptyStats => False
  | .exactStats => WordLE w bound
  | .truncatedStats => WordLE (w.take bound.length) bound

def MinBound (type : StringStatsType) (bound : List UInt8) (values : List (List UInt8)) : Prop :=
  (∀ w ∈ values, AboveMin type bound w) ∧ (type.isSet → Attained type bound values)

def MaxBound (type : StringStatsType) (bound : List UInt8) (values : List (List UInt8)) : Prop :=
  (∀ w ∈ values, BelowMax type bound w) ∧ (type.isSet → Attained type bound values)

variable {type type' : StringStatsType} {bound bound' : List UInt8}
  {values values' : List (List UInt8)}

variable {w : List UInt8}

theorem aboveMin_iff (hset : type.isSet) : AboveMin type bound w ↔ WordLE bound w := by
  cases type with
  | noStats => cases hset
  | emptyStats => cases hset
  | exactStats => exact Iff.rfl
  | truncatedStats => exact ⟨wordLE_of_take, cut_of_wordLE⟩

/-- An upper bound holds on the prefix, whichever kind it is. -/
theorem belowMax_cut (hset : type.isSet) (h : BelowMax type bound w) :
    WordLE (w.take bound.length) bound := by
  cases type with
  | noStats => cases hset
  | emptyStats => cases hset
  | exactStats => exact wordLE_cut h
  | truncatedStats => exact h

theorem belowMax_of_wordLE (hset : type.isSet) (h : WordLE w bound) : BelowMax type bound w := by
  cases type with
  | noStats => cases hset
  | emptyStats => cases hset
  | exactStats => exact h
  | truncatedStats => exact wordLE_cut h

theorem attained_left (h : Attained type bound values) :
    Attained type bound (values ++ values') := by
  obtain ⟨w, hw, hrest⟩ := h
  exact ⟨w, List.mem_append_left _ hw, hrest⟩

theorem attained_right (h : Attained type bound values') :
    Attained type bound (values ++ values') := by
  obtain ⟨w, hw, hrest⟩ := h
  exact ⟨w, List.mem_append_right _ hw, hrest⟩

theorem attained_cut (h : Attained type bound values) (hp : bound' <+: bound)
    (hhead : bound'.headD 0 = bound.headD 0) : Attained .truncatedStats bound' values := by
  obtain ⟨w, hw, hpw, hheadw, -⟩ := h
  exact ⟨w, hw, hp.trans hpw, hhead.trans hheadw, fun h => nomatch h⟩

/-! ## Merging -/

theorem mergeStats_noStats (isMin : Bool) (t s : List UInt8) (tt st : StringStatsType) :
    (mergeStats isMin t tt s st).2 = .noStats ↔ tt = .noStats ∨ st = .noStats := by
  unfold mergeStats
  split_ifs with hno hs ht heq htrunc <;> simp_all

theorem mergeStats_emptyStats (isMin : Bool) (t s : List UInt8) (tt st : StringStatsType) :
    (mergeStats isMin t tt s st).2 = .emptyStats ↔ tt = .emptyStats ∧ st = .emptyStats := by
  unfold mergeStats
  split_ifs with hno hs ht heq htrunc <;> simp_all
  rcases hno with rfl | rfl <;> simp

variable {t s : List UInt8} {tt st : StringStatsType}

theorem isSet_of_ne (hno : type ≠ .noStats) (hempty : type ≠ .emptyStats) : type.isSet = true := by
  cases type with
  | noStats => exact absurd rfl hno
  | emptyStats => exact absurd rfl hempty
  | exactStats => rfl
  | truncatedStats => rfl

theorem exact_of_isSet (hset : type.isSet = true) (hne : type ≠ .truncatedStats) :
    type = .exactStats := by
  cases type with
  | noStats => cases hset
  | emptyStats => cases hset
  | exactStats => rfl
  | truncatedStats => exact absurd rfl hne

/-- The cases of a merge: one side decides alone, or both bounds are set. -/
theorem mergeStats_cases (isMin : Bool) {t s : List UInt8} {tt st : StringStatsType}
    {P : List UInt8 × StringStatsType → Prop} (hno : P (t, .noStats))
    (hs : st = .emptyStats → P (t, tt)) (ht : tt = .emptyStats → P (s, st))
    (hset : tt.isSet = true → st.isSet = true → P (mergeStats isMin t tt s st)) :
    P (mergeStats isMin t tt s st) := by
  by_cases h1 : tt = .noStats ∨ st = .noStats
  · rw [mergeStats, if_pos h1]
    exact hno
  · rw [not_or] at h1
    by_cases h2 : st = .emptyStats
    · rw [mergeStats, if_neg (by simp [h1]), if_pos h2]
      exact hs h2
    · by_cases h3 : tt = .emptyStats
      · rw [mergeStats, if_neg (by simp [h1]), if_neg h2, if_pos h3]
        exact ht h3
      · exact hset (isSet_of_ne h1.1 h3) (isSet_of_ne h1.2 h2)

theorem mergeStats_set (isMin : Bool) (htt : tt.isSet = true) (hst : st.isSet = true) :
    mergeStats isMin t tt s st =
      if compareWords s t = .eq then
        (t, if tt = .truncatedStats ∨ st = .truncatedStats then .truncatedStats else tt)
      else if newIsMoreExtreme isMin t tt s st then (s, st) else (t, tt) := by
  have hno : ¬ (tt = .noStats ∨ st = .noStats) := by
    rintro (rfl | rfl)
    · cases htt
    · cases hst
  have hs : st ≠ .emptyStats := by
    rintro rfl
    cases hst
  have ht : tt ≠ .emptyStats := by
    rintro rfl
    cases htt
  rw [mergeStats, if_neg hno, if_neg hs, if_neg ht]

theorem isSet_equal (htt : tt.isSet = true) :
    (if tt = .truncatedStats ∨ st = .truncatedStats then .truncatedStats else tt).isSet = true := by
  split
  · rfl
  · exact htt

/-- A merged bound is one of the two, and exact only if the values attain it. -/
theorem attained_merge (isMin : Bool) (h : tt.isSet → Attained tt t values)
    (h' : st.isSet → Attained st s values') :
    (mergeStats isMin t tt s st).2.isSet →
      Attained (mergeStats isMin t tt s st).2 (mergeStats isMin t tt s st).1
        (values ++ values') := by
  refine @mergeStats_cases isMin t s tt st (fun r => r.2.isSet → Attained r.2 r.1 (values ++ values'))
    (fun h => nomatch h) (fun _ hset => attained_left (h hset))
    (fun _ hset => attained_right (h' hset)) (fun htt hst => ?_)
  rw [mergeStats_set isMin htt hst]
  split_ifs with heq htrunc hnew
  · exact fun _ => attained_left (attained_cut (h htt) (List.prefix_refl t) rfl)
  · exact fun _ => attained_left (h htt)
  · exact fun _ => attained_right (h' hst)
  · exact fun _ => attained_left (h htt)

/-- What is above one of two minima is above the merged one. -/
theorem aboveMin_merge (h : AboveMin tt t w ∨ AboveMin st s w) :
    AboveMin (mergeStats true t tt s st).2 (mergeStats true t tt s st).1 w := by
  refine @mergeStats_cases true t s tt st (fun r => AboveMin r.2 r.1 w) trivial (fun hs => ?_)
    (fun ht => ?_) (fun htt hst => ?_)
  · subst hs
    exact h.resolve_right id
  · subst ht
    exact h.resolve_left id
  rw [aboveMin_iff htt, aboveMin_iff hst] at h
  rw [mergeStats_set true htt hst]
  by_cases heq : compareWords s t = .eq
  · rw [if_pos heq]
    obtain rfl := eq_of_compareWords heq
    exact (aboveMin_iff (isSet_equal htt)).mpr (h.elim id id)
  · have hnew : newIsMoreExtreme true t tt s st = decide (compareWords s t = .lt) := by
      simp [newIsMoreExtreme]
    rw [if_neg heq, hnew]
    by_cases hlt : compareWords s t = .lt
    · rw [if_pos (decide_eq_true hlt)]
      exact (aboveMin_iff hst).mpr (h.elim (wordLE_trans (wordLE_of_lt hlt)) id)
    · rw [decide_eq_false hlt, if_neg Bool.false_ne_true]
      exact (aboveMin_iff htt).mpr (h.elim id (wordLE_trans (not_lt_iff_wordLE.mp hlt)))

theorem minBound_merge (h : MinBound tt t values) (h' : MinBound st s values') :
    MinBound (mergeStats true t tt s st).2 (mergeStats true t tt s st).1 (values ++ values') := by
  refine ⟨fun w hw => aboveMin_merge ?_, attained_merge true h.2 h'.2⟩
  rcases List.mem_append.mp hw with hw | hw
  · exact .inl (h.1 w hw)
  · exact .inr (h'.1 w hw)

theorem take_eq_iff_isPrefix (s t : List UInt8) :
    s.take (Nat.min s.length t.length) = t.take (Nat.min s.length t.length) ↔
      s <+: t ∨ t <+: s := by
  rcases Nat.le_total s.length t.length with hlen | hlen
  · rw [show Nat.min s.length t.length = s.length from Nat.min_eq_left hlen, List.take_length,
      ← List.prefix_iff_eq_take]
    refine ⟨.inl, fun h => h.elim id fun hts => ?_⟩
    rw [List.IsPrefix.eq_of_length_le hts hlen]
  · rw [show Nat.min s.length t.length = t.length from Nat.min_eq_right hlen, List.take_length,
      eq_comm, ← List.prefix_iff_eq_take]
    refine ⟨.inr, fun h => h.elim (fun hst => ?_) id⟩
    rw [List.IsPrefix.eq_of_length_le hst hlen]

/-- What lies below an upper bound lies below a larger one, if the smaller one is not a truncated
prefix of the larger. -/
theorem belowMax_of_lt (hset : type.isSet = true) (hset' : type'.isSet = true)
    (hlt : WordLE bound bound') (hne : type = .truncatedStats → ¬ bound <+: bound')
    (h : BelowMax type bound w) : BelowMax type' bound' w := by
  refine belowMax_of_wordLE hset' ?_
  by_cases htype : type = .truncatedStats
  · exact wordLE_of_cut (belowMax_cut hset h) hlt (hne htype)
  · obtain rfl := exact_of_isSet hset htype
    exact wordLE_trans h hlt

theorem belowMax_of_isPrefix (hset : type.isSet = true) (hp : bound' <+: bound)
    (h : BelowMax type bound w) : BelowMax .truncatedStats bound' w :=
  wordLE_cut_of_isPrefix hp (belowMax_cut hset h)

/-- What is below one of two maxima is below the merged one. -/
theorem belowMax_merge (h : BelowMax tt t w ∨ BelowMax st s w) :
    BelowMax (mergeStats false t tt s st).2 (mergeStats false t tt s st).1 w := by
  refine @mergeStats_cases false t s tt st (fun r => BelowMax r.2 r.1 w) trivial (fun hs => ?_)
    (fun ht => ?_) (fun htt hst => ?_)
  · subst hs
    exact h.resolve_right id
  · subst ht
    exact h.resolve_left id
  rw [mergeStats_set false htt hst]
  by_cases heq : compareWords s t = .eq
  · rw [if_pos heq]
    obtain rfl := eq_of_compareWords heq
    split
    · exact h.elim (belowMax_cut htt) (belowMax_cut hst)
    · rename_i hno
      rw [not_or] at hno
      obtain rfl := exact_of_isSet htt hno.1
      obtain rfl := exact_of_isSet hst hno.2
      exact h.elim id id
  rw [if_neg heq]
  by_cases hlt : compareWords s t = .lt
  · have hnot : ¬ t <+: s := fun hp => wordLE_of_isPrefix hp (by
      rw [compareWords_swap s t, hlt]
      rfl)
    by_cases hp : s <+: t
    · have hnew : newIsMoreExtreme false t tt s st = decide (st = .truncatedStats) := by
        simp [newIsMoreExtreme, take_eq_iff_isPrefix, hp, hlt]
      rw [hnew]
      by_cases htrunc : st = .truncatedStats
      · -- the truncated prefix stands for larger strings
        rw [if_pos (decide_eq_true htrunc)]
        subst htrunc
        exact h.elim (belowMax_of_isPrefix htt hp) id
      · rw [decide_eq_false htrunc, if_neg Bool.false_ne_true]
        exact h.elim id (belowMax_of_lt hst htt (wordLE_of_lt hlt) fun ht => absurd ht htrunc)
    · have hnew : newIsMoreExtreme false t tt s st = false := by
        simp [newIsMoreExtreme, take_eq_iff_isPrefix, hp, hnot, hlt]
      rw [hnew, if_neg Bool.false_ne_true]
      exact h.elim id (belowMax_of_lt hst htt (wordLE_of_lt hlt) fun _ => hp)
  · have hle : WordLE t s := not_lt_iff_wordLE.mp hlt
    have hgt : compareWords s t = .gt := by
      cases hcmp : compareWords s t with
      | lt => exact absurd hcmp hlt
      | eq => exact absurd hcmp heq
      | gt => rfl
    have hnot : ¬ s <+: t := fun hp => wordLE_of_isPrefix hp hgt
    by_cases hp : t <+: s
    · have hnew : newIsMoreExtreme false t tt s st = decide (tt ≠ .truncatedStats) := by
        simp [newIsMoreExtreme, take_eq_iff_isPrefix, hp, hlt]
      rw [hnew]
      by_cases htrunc : tt = .truncatedStats
      · rw [decide_eq_false (not_not.mpr htrunc), if_neg Bool.false_ne_true]
        subst htrunc
        exact h.elim id (belowMax_of_isPrefix hst hp)
      · rw [if_pos (decide_eq_true htrunc)]
        exact h.elim (belowMax_of_lt htt hst hle fun ht => absurd ht htrunc) id
    · have hnew : newIsMoreExtreme false t tt s st = true := by
        simp [newIsMoreExtreme, take_eq_iff_isPrefix, hp, hnot, hgt]
      rw [hnew, if_pos rfl]
      exact h.elim (belowMax_of_lt htt hst hle fun _ => hp) id

theorem maxBound_merge (h : MaxBound tt t values) (h' : MaxBound st s values') :
    MaxBound (mergeStats false t tt s st).2 (mergeStats false t tt s st).1 (values ++ values') := by
  refine ⟨fun w hw => belowMax_merge ?_, attained_merge false h.2 h'.2⟩
  rcases List.mem_append.mp hw with hw | hw
  · exact .inl (h.1 w hw)
  · exact .inr (h'.1 w hw)

/-! ## The writer -/

variable {x y : List UInt8}

theorem bswap_compare {n : Nat} (hx : x.length = n) (hy : y.length = n)
    (hne : loadWord x ≠ loadWord y) :
    (if bswap n (loadWord x) < bswap n (loadWord y) then Ordering.lt else .gt) =
      compareWords x y := by
  have hbytes : compareWords x y ≠ .eq := fun heq => hne (by rw [eq_of_compareWords heq])
  rw [compare_loadWord_reverse (hx.trans hy.symm)] at hbytes ⊢
  rw [bswap_loadWord hx, bswap_loadWord hy]
  split
  · rename_i hlt
    exact (compare_lt_iff_lt.mpr hlt).symm
  · rename_i hlt
    have hgt : loadWord y.reverse < loadWord x.reverse :=
      lt_of_le_of_ne (not_lt.mp hlt) fun heq => hbytes (compare_eq_iff_eq.mpr heq.symm)
    exact (compare_gt_iff_gt.mpr hgt).symm

theorem loadWord_injective (hlen : x.length = y.length) (h : loadWord x = loadWord y) : x = y := by
  rw [← storeBytes_loadWord x, ← storeBytes_loadWord y, h, hlen]

theorem compareInlineBytes_eq {a b : List UInt8} (ha : a.length = 12) (hb : b.length = 12) :
    compareInlineBytes a b = compareWords a b := by
  have htake (x : List UInt8) (hx : x.length = 12) :
      (x.take 4).length = 4 ∧ (x.drop 4).length = 8 := by
    rw [List.length_take, List.length_drop]
    omega
  obtain ⟨ha4, ha8⟩ := htake a ha
  obtain ⟨hb4, hb8⟩ := htake b hb
  have hsplit := compareWords_append (ha4.trans hb4.symm) (a.drop 4) (b.drop 4)
  rw [List.take_append_drop, List.take_append_drop] at hsplit
  rw [hsplit]
  unfold compareInlineBytes
  dsimp only
  by_cases hprefix : loadWord (a.take 4) = loadWord (b.take 4)
  · rw [if_neg (not_not.mpr hprefix), loadWord_injective (ha4.trans hb4.symm) hprefix,
      compareWords_self]
    by_cases hrest : loadWord (a.drop 4) = loadWord (b.drop 4)
    · rw [if_neg (not_not.mpr hrest), loadWord_injective (ha8.trans hb8.symm) hrest,
        compareWords_self]
      rfl
    · rw [if_pos hrest, bswap_compare ha8 hb8 hrest]
      rfl
  · rw [if_pos hprefix, bswap_compare ha4 hb4 hprefix, then_of_ne]
    exact fun heq => hprefix (by rw [eq_of_compareWords heq])

/-- The order of the writer: the bytes at the start of the strings, then their lengths. -/
def inlineCompare : List UInt8 → List UInt8 → Ordering :=
  compareLex (compareOn inlineBytes) (compareOn List.length)

instance : Std.TransCmp inlineCompare := inferInstanceAs (Std.TransCmp (compareLex _ _))

theorem inlineCompare_eq (x y : List UInt8) :
    inlineCompare x y =
      (compareWords (inlineBytes x) (inlineBytes y)).then (compare x.length y.length) := rfl

theorem length_inlineBytes (x : List UInt8) : (inlineBytes x).length = 12 := length_padded 0 12 x

variable {m : List UInt8}

theorem inlineBytes_of_le (hm : m.length ≤ 12) :
    inlineBytes m = m ++ List.replicate (12 - m.length) 0 := by
  show m.take 12 ++ List.replicate (12 - m.length) 0 = _
  rw [List.take_of_length_le hm]

theorem inlineBytes_of_ge (hm : 12 ≤ m.length) : inlineBytes m = m.take 12 := by
  show m.take 12 ++ List.replicate (12 - m.length) 0 = _
  rw [Nat.sub_eq_zero_of_le hm, List.replicate_zero, List.append_nil]

theorem inlineBytes_compare (x y : List UInt8) :
    (compareWords (inlineBytes x) (inlineBytes y)).then
        (compare (x.take 12).length (y.take 12).length) =
      compareWords (x.take 12) (y.take 12) := by
  have hpad (x : List UInt8) : inlineBytes x =
      x.take 12 ++ List.replicate (12 - (x.take 12).length) 0 := by
    rw [inlineBytes, padded, List.length_take]
    congr 2
    show 12 - x.length = 12 - min 12 x.length
    omega
  rw [hpad x, hpad y]
  exact compareWords_padded compare_zero (by rw [List.length_take]; omega)
    (by rw [List.length_take]; omega)

/-- What the writer orders, the bytes order up to the twelfth. -/
theorem take_wordLE_of_inline (h : inlineCompare x y ≠ .gt) : WordLE (x.take 12) (y.take 12) := by
  rw [WordLE, ← inlineBytes_compare]
  rw [inlineCompare_eq] at h
  cases hcmp : compareWords (inlineBytes x) (inlineBytes y) with
  | lt => simp
  | eq =>
      rw [hcmp, Ordering.eq_then, Ne, Nat.compare_eq_gt] at h
      rw [Ordering.eq_then, Ne, Nat.compare_eq_gt, List.length_take, List.length_take]
      omega
  | gt => simp [hcmp] at h

/-- A string of at most twelve bytes that is largest for the writer is largest. -/
theorem wordLE_of_inline (h : inlineCompare x y ≠ .gt) (hy : y.length ≤ 12) : WordLE x y := by
  have htake := take_wordLE_of_inline h
  rw [List.take_of_length_le hy] at htake
  by_cases heq : x.take 12 = y
  · -- the bytes agree, so the lengths decide
    have hx : x.length ≤ 12 := by
      by_contra hlong
      have hy12 : y.length = 12 := by
        rw [← heq, List.length_take]
        omega
      have hinline : inlineBytes x = inlineBytes y := by
        rw [inlineBytes_of_ge (by omega), inlineBytes_of_ge hy12.ge, heq,
          List.take_of_length_le hy]
      rw [inlineCompare_eq, hinline, compareWords_self, Ordering.eq_then, Ne,
        Nat.compare_eq_gt] at h
      omega
    rw [← heq, List.take_of_length_le hx]
    exact wordLE_refl x
  · refine wordLE_of_lt (lt_of_cut_lt (n := 12) ?_)
    rw [List.take_of_length_le hy, ← not_wordLE]
    exact fun hle => heq (wordLE_antisymm htake hle)

theorem readWriterStats_inlineBytes (m : List UInt8) :
    readWriterStats (inlineBytes m) m.length =
      (m.take 12, if m.length ≤ 12 then .exactStats else .truncatedStats) := by
  unfold readWriterStats
  rw [show currentMaxStringMinmaxSize = 12 from rfl]
  by_cases hm : m.length ≤ 12
  · rw [if_pos hm, if_pos hm, inlineBytes_of_le hm, List.take_left' rfl,
      List.take_of_length_le hm]
  · rw [if_neg hm, if_neg hm, List.take_of_length_le (length_inlineBytes m).le,
      inlineBytes_of_ge (by omega)]

theorem headD_take (m : List UInt8) : (m.take 12).headD 0 = m.headD 0 := by cases m <;> rfl

theorem attained_take (hm : m ∈ values) :
    Attained (if m.length ≤ 12 then .exactStats else .truncatedStats) (m.take 12) values := by
  refine ⟨m, hm, List.take_prefix 12 m, headD_take m, fun htype => ?_⟩
  split at htype
  · rename_i hle
    exact List.take_of_length_le hle
  · cases htype

/-- The bound of a string that is smallest for the writer. -/
theorem minBound_inline (hm : m ∈ values) (h : ∀ w ∈ values, inlineCompare m w ≠ .gt) :
    MinBound (readWriterStats (inlineBytes m) m.length).2
      (readWriterStats (inlineBytes m) m.length).1 values := by
  rw [readWriterStats_inlineBytes]
  refine ⟨fun w hw => (aboveMin_iff ?_).mpr ?_, fun _ => attained_take hm⟩
  · split <;> rfl
  · exact wordLE_of_take (take_wordLE_of_inline (h w hw))

theorem maxBound_inline (hm : m ∈ values) (h : ∀ w ∈ values, inlineCompare w m ≠ .gt) :
    MaxBound (readWriterStats (inlineBytes m) m.length).2
      (readWriterStats (inlineBytes m) m.length).1 values := by
  rw [readWriterStats_inlineBytes]
  refine ⟨fun w hw => ?_, fun _ => attained_take hm⟩
  by_cases hm12 : m.length ≤ 12
  · rw [if_pos hm12, List.take_of_length_le hm12]
    exact wordLE_of_inline (h w hw) hm12
  · rw [if_neg hm12]
    have hlen : (m.take 12).length = 12 := by
      rw [List.length_take]
      omega
    show WordLE (w.take (m.take 12).length) (m.take 12)
    rw [hlen]
    exact take_wordLE_of_inline (h w hw)

/-! ## The legacy format -/

theorem rdropWhile_append_replicate (x : List UInt8) (n : Nat) :
    (x ++ List.replicate n 0).rdropWhile (· = 0) = x.rdropWhile (· = 0) := by
  induction n with
  | zero => simp
  | succ n ih =>
      rw [List.replicate_succ', ← List.append_assoc, List.rdropWhile_concat_pos _ _ _ (by simp), ih]

def legacyCut (bound : List UInt8) : List UInt8 := legacyReadMinMax (padded 0 8 bound)

theorem legacyCut_eq (bound : List UInt8) :
    legacyCut bound = (bound.take 8).rdropWhile (· = 0) :=
  rdropWhile_append_replicate (bound.take 8) (8 - bound.length)

theorem legacyCut_isPrefix (bound : List UInt8) : legacyCut bound <+: bound := by
  rw [legacyCut_eq]
  exact (List.rdropWhile_prefix _ _).trans (List.take_prefix 8 bound)

theorem headD_of_isPrefix (h : x <+: y) (hx : x ≠ []) : x.headD 0 = y.headD 0 := by
  obtain ⟨z, rfl⟩ := h
  cases x with
  | nil => exact absurd rfl hx
  | cons a x => rfl

theorem headD_legacyCut (bound : List UInt8) : (legacyCut bound).headD 0 = bound.headD 0 := by
  by_cases hnil : legacyCut bound = []
  · rw [hnil]
    rw [legacyCut_eq, List.rdropWhile_eq_nil_iff] at hnil
    cases bound with
    | nil => rfl
    | cons a bound =>
        have ha : a = 0 := by simpa using hnil a (by simp)
        exact ha.symm
  · exact headD_of_isPrefix (legacyCut_isPrefix bound) hnil

theorem headD_padded (bound : List UInt8) : (padded 0 8 bound).headD 0 = bound.headD 0 := by
  cases bound <;> rfl

theorem headD_le (h : WordLE x y) : ¬ y.headD 0 < x.headD 0 := by
  cases x with
  | nil => exact UInt8.not_lt_zero
  | cons a x => cases y with
    | nil => exact absurd rfl h
    | cons b y =>
        intro hlt
        refine h ?_
        have hgt : compare a b = .gt := by
          rw [compare_byte]
          exact compare_gt_iff_gt.mpr (UInt8.lt_iff_toNat_lt.mp hlt)
        rw [compareWords_cons, hgt]
        rfl

/-- A bound of bytes up to the maximum length is a value, and is given back as it is. -/
theorem exact_of_last {n : Nat} (h : Attained type bound values)
    (hlen : ∀ w ∈ values, w.length ≤ n) (hn : n ≤ 8)
    (hlast : n = 0 ∨ (padded 0 8 bound).getD (n - 1) 0 ≠ 0) :
    legacyCut bound = bound ∧ bound ∈ values ∧ bound.length = n := by
  obtain ⟨w, hw, hp, -, -⟩ := h
  have hwn := hlen w hw
  have hbw := hp.length_le
  rcases hlast with rfl | hlast
  · have hnil : bound = [] := List.eq_nil_of_length_eq_zero (by omega)
    have hwnil : w = [] := List.eq_nil_of_length_eq_zero (by omega)
    subst hnil
    exact ⟨rfl, hwnil ▸ hw, rfl⟩
  have hbn : n ≤ bound.length := by
    by_contra hshort
    refine hlast ?_
    rw [padded, List.getD_append_right _ _ _ _ (by rw [List.length_take]; omega)]
    rw [List.getD_eq_getElem?_getD, List.getElem?_replicate]
    split <;> rfl
  have hpos : 0 < n := by
    by_contra hzero
    refine hlast ?_
    rw [show n = 0 by omega] at hbn ⊢
    have : bound = [] := List.eq_nil_of_length_eq_zero (by omega)
    rw [this]
    rfl
  have heq : bound = w := hp.eq_of_length_le (by omega)
  refine ⟨?_, heq ▸ hw, by omega⟩
  rw [legacyCut_eq, List.take_of_length_le (by omega), List.rdropWhile_eq_self_iff]
  intro hne
  have hget : (padded 0 8 bound).getD (n - 1) 0 = bound.getLast hne := by
    rw [padded, List.take_of_length_le (by omega), List.getD_append _ _ _ _ (by omega),
      List.getLast_eq_getElem, List.getD_eq_getElem _ _ (by omega)]
    congr 1
    omega
  rw [hget] at hlast
  simpa using hlast

end StringStats

end MiniDuck
