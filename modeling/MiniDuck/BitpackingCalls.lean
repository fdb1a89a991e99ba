import MiniDuck.BitpackingLoad

/-!
# Calls on a bitpacked segment

A scan stands at a row of its segment (`AtPosition`). `ScanPartial` and
`Skip` move it on by as many rows as they are asked for, across groups and
into the middle of them (`scanPartial_ok`, `skip_ok`), so any sequence of
calls reads what was written (`runCalls_ok`), and so does fetching a
single row (`fetchRow_ok`).
-/

namespace MiniDuck

open IntegralType BitpackingPrimitives SegmentBuffer WrittenGroup

variable {type : IntegralType} {kernel : BitpackingKernel type.bits}
  {groups : List (WrittenGroup type)} {segment : BitpackingSegment}

/-! ## Rows of a segment -/

def storedValue (groups : List (WrittenGroup type)) (p : Nat) : BitVec type.bits :=
  match groups[p / metadataGroupSize]? with
  | some g => g.call.value (p % metadataGroupSize)
  | none => 0

variable {g : WrittenGroup type}

theorem storedValue_group {i o : Nat} (hg : groups[i]? = some g) (ho : o < metadataGroupSize) :
    storedValue groups (metadataGroupSize * i + o) = g.call.value o := by
  have hdiv : (metadataGroupSize * i + o) / metadataGroupSize = i := by
    simp only [metadataGroupSize] at *
    omega
  have hmod : (metadataGroupSize * i + o) % metadataGroupSize = o := by
    simp only [metadataGroupSize] at *
    omega
  rw [storedValue, hdiv, hg]
  simp only
  rw [hmod]

theorem map_storedValue {i o m : Nat} (hg : groups[i]? = some g) (hm : o + m ≤ metadataGroupSize) :
    (List.range' (metadataGroupSize * i + o) m).map (storedValue groups) =
      (List.range' o m).map g.call.value := by
  rw [List.range'_eq_map_range, List.range'_eq_map_range, List.map_map, List.map_map]
  refine List.map_congr_left fun j hj => ?_
  rw [List.mem_range] at hj
  rw [Function.comp_apply, Function.comp_apply, Nat.add_assoc, storedValue_group hg (by omega)]

theorem storedValue_rows (h : SegmentGroups groups) {p : Nat} {v : type.Value}
    (hv : (groupRows groups)[p]? = some (some v)) : storedValue groups p = type.toBits v := by
  induction groups generalizing p with
  | nil => simp [groupRows] at hv
  | cons g rest ih =>
      have hcount := (h.count g List.mem_cons_self).2
      rw [groupRows, List.flatMap_cons] at hv
      rcases Nat.lt_or_ge p g.rows.length with hlt | hge
      · rw [List.getElem?_append_left hlt] at hv
        have hrow := (storedValue_group (i := 0) rfl (by omega) :
          storedValue (g :: rest) (metadataGroupSize * 0 + p) = g.call.value p)
        rw [Nat.mul_zero, Nat.zero_add] at hrow
        rw [hrow]
        exact (h.encodes g List.mem_cons_self).value p v hv
      · rw [List.getElem?_append_right hge] at hv
        cases rest with
        | nil => simp at hv
        | cons g₁ rest =>
            have hfull := h.head_full
            rw [hfull] at hv hge
            rw [← ih h.tail hv, storedValue, storedValue]
            have hdiv : p / metadataGroupSize = (p - metadataGroupSize) / metadataGroupSize + 1 := by
              simp only [metadataGroupSize] at *
              omega
            have hmod : p % metadataGroupSize = (p - metadataGroupSize) % metadataGroupSize := by
              simp only [metadataGroupSize] at *
              omega
            rw [hdiv, hmod, List.getElem?_cons_succ]

/-! ## The place of a scan -/

def AtPosition (kernel : BitpackingKernel type.bits) (groups : List (WrittenGroup type))
    (p : Nat) : GroupState type → Prop
  | .initial => p = 0
  | .finished => p = rowCount groups
  | .current cur => ∃ g, groups[cur.index]? = some g ∧ cur.Holds kernel g cur.index ∧
      p = metadataGroupSize * cur.index + cur.offset

/-- The rows behind a group: it ends the segment, or it is full and has a successor. -/
theorem group_end (h : SegmentGroups groups) {i : Nat} (hg : groups[i]? = some g) :
    metadataGroupSize * i + g.rows.length ≤ rowCount groups ∧
      (i + 1 = groups.length → metadataGroupSize * i + g.rows.length = rowCount groups) ∧
      (metadataGroupSize * i + g.rows.length < rowCount groups →
        g.rows.length = metadataGroupSize ∧ i + 1 < groups.length) := by
  have hmin := groupRowCount_eq h hg
  have hpos := (h.count g (List.mem_of_getElem? hg)).1
  obtain ⟨hle, hlt⟩ := rowCount_bounds h
  have hi := (List.getElem?_eq_some_iff.mp hg).1
  simp only [metadataGroupSize] at *
  refine ⟨by omega, fun _ => by omega, fun _ => ⟨by omega, by omega⟩⟩

namespace BitpackingScanState

variable {s : BitpackingScanState type} {address : Nat}

/-- A state from which a scan can go on. -/
structure Ready (kernel : BitpackingKernel type.bits) (segment : BitpackingSegment)
    (groups : List (WrittenGroup type)) (address : Nat) (s : BitpackingScanState type)
    (p : Nat) : Prop where
  holds : SegmentHolds kernel segment groups
  groupsOk : SegmentGroups groups
  aligned : 4 ∣ address
  opened : Opened kernel s segment groups address
  position : AtPosition kernel groups p s.groupState

theorem Opened.withState {s : BitpackingScanState type}
    (ho : Opened kernel s segment groups address) (state : GroupState type) :
    Opened kernel { s with groupState := state } segment groups address :=
  ⟨ho.segmentCount, ho.groupCount, ho.tableStart, ho.table, ho.reader⟩

variable {cur : CurrentGroup type} {g : WrittenGroup type}

/-- Leaving a group at one of its rows or at its end. -/
theorem Ready.leave {p q : Nat} (h : Ready kernel segment groups address s p)
    (hg : groups[cur.index]? = some g) (hholds : cur.Holds kernel g cur.index)
    (hq : q = metadataGroupSize * cur.index + cur.offset) :
    Ready kernel segment groups address (s.leave cur) q := by
  refine ⟨h.holds, h.groupsOk, h.aligned, h.opened.withState _, ?_⟩
  unfold BitpackingScanState.leave
  by_cases hend : (cur.atEnd && cur.index + 1 = s.groupCount) = true
  · rw [if_pos hend]
    rw [Bool.and_eq_true, CurrentGroup.atEnd, decide_eq_true_eq, decide_eq_true_eq,
      h.opened.groupCount] at hend
    have hlast := (group_end h.groupsOk hg).2.1 hend.2
    rw [← hholds.count, ← hend.1, ← hq] at hlast
    exact hlast
  · rw [if_neg hend]
    exact ⟨g, hg, hholds, hq⟩

/-- The loop gives the next rows, from as many groups as it takes. -/
theorem scanLoop_ok {p₀ : Nat} (h : Ready kernel segment groups address s p₀) :
    {rounds n : Nat} → {cur : CurrentGroup type} → {g : WrittenGroup type} →
      groups[cur.index]? = some g → cur.Holds kernel g cur.index →
      metadataGroupSize * cur.index + cur.offset + n ≤ rowCount groups →
      2 * n ≤ rounds + (if cur.atEnd then 0 else 1) →
      ∃ cur' g', s.scanLoop kernel rounds cur n =
          .ok ((List.range' (metadataGroupSize * cur.index + cur.offset) n).map
            (storedValue groups), cur') ∧
        groups[cur'.index]? = some g' ∧ cur'.Holds kernel g' cur'.index ∧
        metadataGroupSize * cur'.index + cur'.offset =
          metadataGroupSize * cur.index + cur.offset + n
  | _, 0, cur, g, hg, hholds, _, _ => ⟨cur, g, by rw [scanLoop]; rfl, hg, hholds, rfl⟩
  | 0, n + 1, cur, _, _, _, _, hrounds => by
      split at hrounds <;> omega
  | rounds + 1, n + 1, cur, g, hg, hholds, hfit, hrounds => by
      obtain ⟨hle, -, hnext⟩ := group_end h.groupsOk hg
      have hcount := hholds.count
      have hoffset := hholds.offset
      have hfull := (h.groupsOk.count g (List.mem_of_getElem? hg)).2
      by_cases hend : cur.atEnd = true
      · have hend' : cur.offset = cur.count := by
          rwa [CurrentGroup.atEnd, decide_eq_true_eq] at hend
        obtain ⟨hlen, hi⟩ := hnext (by omega)
        obtain ⟨g', hg'⟩ : ∃ g', groups[cur.index + 1]? = some g' :=
          ⟨_, List.getElem?_eq_getElem hi⟩
        obtain ⟨next, hload, hnextHolds, hzero⟩ :=
          loadGroup_ok h.holds h.groupsOk h.aligned h.opened hg'
        have hindex := hnextHolds.index
        have hpos := (h.groupsOk.count g' (List.mem_of_getElem? hg')).1
        have hstart : metadataGroupSize * next.index + next.offset =
            metadataGroupSize * cur.index + cur.offset := by
          rw [hindex, hzero, hend', hcount, hlen]
          rfl
        have hnotEnd : next.atEnd = false := by
          have hnextCount := hnextHolds.count
          rw [CurrentGroup.atEnd, decide_eq_false_iff_not]
          omega
        rw [if_pos hend] at hrounds
        obtain ⟨cur', g'', hloop, hg'', hholds', hpos'⟩ := scanLoop_ok h (hindex ▸ hg')
          (hindex ▸ hnextHolds) (by rw [hstart]; exact hfit)
          (by rw [hnotEnd, if_neg Bool.false_ne_true]; omega : 2 * (n + 1) ≤ rounds + _)
        refine ⟨cur', g'', ?_, hg'', hholds', by rw [hpos', hstart]⟩
        rw [scanLoop, if_pos hend, hload]
        simp only [bind, Except.bind]
        rw [hloop, hstart]
      · have hlt : cur.offset < cur.count := by
          rw [CurrentGroup.atEnd, decide_eq_true_eq] at hend
          omega
        obtain ⟨m, cur₁, hm, hmle, hoffset₁, hholds₁, hscan⟩ :=
          scanGroup_ok hholds hlt (Nat.succ_pos n)
        have hindex := hholds₁.index
        have hcount₁ := hholds₁.count
        have hoff₁ := hholds₁.offset
        rw [if_neg hend] at hrounds
        obtain ⟨cur', g', hloop, hg', hholds', hpos'⟩ := scanLoop_ok h (hindex ▸ hg)
          (hindex ▸ hholds₁)
          (by rw [hindex, hoffset₁]; omega :
            metadataGroupSize * cur₁.index + cur₁.offset + (n + 1 - m) ≤ rowCount groups)
          (by omega : 2 * (n + 1 - m) ≤ rounds + _)
        rw [hindex, hoffset₁] at hpos' hloop
        refine ⟨cur', g', ?_, hg', hholds', by omega⟩
        have hsplit : n + 1 = m + (n + 1 - m) := by omega
        rw [scanLoop, if_neg hend, hscan]
        simp only [bind, Except.bind, List.length_map, List.length_range']
        rw [hloop, ← Nat.add_assoc]
        simp only
        conv_rhs => rw [hsplit, ← List.range'_append_1, List.map_append]
        rw [map_storedValue hg (by omega)]

theorem scanPartial_ok {p n : Nat} (h : Ready kernel segment groups address s p)
    (hfit : p + n ≤ rowCount groups) :
    ∃ s', s.scanPartial kernel n =
        .ok ((List.range' p n).map fun i => type.ofBits (storedValue groups i), s') ∧
      Ready kernel segment groups address s' (p + n) := by
  unfold scanPartial
  by_cases h0 : n = 0
  · subst h0
    exact ⟨s, if_pos rfl, h⟩
  rw [if_neg h0]
  obtain ⟨cur, g, hcur, hg, hholds, hp⟩ : ∃ cur g, s.scanStart = .ok cur ∧
      groups[cur.index]? = some g ∧ cur.Holds kernel g cur.index ∧
        p = metadataGroupSize * cur.index + cur.offset := by
    have hposition := h.position
    unfold scanStart
    cases hstate : s.groupState with
    | initial =>
        rw [hstate] at hposition
        obtain rfl : p = 0 := hposition
        obtain ⟨g, hg⟩ : ∃ g, groups[0]? = some g := by
          cases groups with
          | nil =>
              simp only [rowCount, List.map_nil, List.sum_nil] at hfit
              omega
          | cons g rest => exact ⟨g, rfl⟩
        obtain ⟨cur, hload, hholds, hzero⟩ :=
          loadGroup_ok h.holds h.groupsOk h.aligned h.opened hg
        have hindex := hholds.index
        exact ⟨cur, g, hload, hindex ▸ hg, hindex ▸ hholds, by rw [hindex, hzero, Nat.mul_zero]⟩
    | current cur =>
        rw [hstate] at hposition
        obtain ⟨g, hg, hholds, hp⟩ := hposition
        exact ⟨cur, g, rfl, hg, hholds, hp⟩
    | finished =>
        rw [hstate] at hposition
        have hp : p = rowCount groups := hposition
        omega
  obtain ⟨cur', g', hloop, hg', hholds', hp'⟩ := scanLoop_ok h hg hholds (by omega)
    (Nat.le_add_right (2 * n) _)
  refine ⟨s.leave cur', ?_, h.leave hg' hholds' (by omega)⟩
  simp only [hcur, bind, Except.bind]
  rw [hloop, ← hp]
  simp only [List.map_map]
  rfl

theorem skipWithin_ok {p n : Nat} (h : Ready kernel segment groups address s p)
    (hg : groups[cur.index]? = some g) (hholds : cur.Holds kernel g cur.index)
    (hfit : cur.offset + n ≤ cur.count) :
    ∃ cur', s.skipWithin kernel cur n = .ok (s.leave cur') ∧ cur'.offset = cur.offset + n ∧
      Ready kernel segment groups address (s.leave cur')
        (metadataGroupSize * cur.index + cur.offset + n) := by
  unfold skipWithin
  rw [if_neg (by omega), hholds.mode]
  by_cases hmode : g.call.mode = .deltaFor
  · cases hcall : g.call with
    | writeConstant constant => rw [hcall] at hmode; cases hmode
    | writeConstantDelta constant frame => rw [hcall] at hmode; cases hmode
    | writeFor values width frame => rw [hcall] at hmode; cases hmode
    | writeDeltaFor values width frame offset =>
        obtain ⟨cur', hloop, hoffset, hholds'⟩ := skipLoop_ok hcall (Nat.le_refl n) hholds hfit
        have hindex := hholds'.index
        simp only [BitpackingWrite.mode]
        rw [hloop]
        exact ⟨cur', rfl, hoffset, h.leave (hindex ▸ hg) (hindex ▸ hholds')
          (by rw [hindex, hoffset, Nat.add_assoc])⟩
  · have hadvance := hholds.advance hfit hmode
    refine ⟨cur.advance n, ?_, rfl, h.leave hg hadvance (Nat.add_assoc _ _ _)⟩
    cases hcall : g.call with
    | writeDeltaFor values width frame offset => exact absurd (by rw [hcall]; rfl) hmode
    | writeConstant constant => rfl
    | writeConstantDelta constant frame => rfl
    | writeFor values width frame => rfl

theorem loadGroup_start {p i : Nat} (h : Ready kernel segment groups address s p)
    (hi : i < groups.length) :
    ∃ cur g, s.loadGroup i = .ok cur ∧ groups[cur.index]? = some g ∧
      cur.Holds kernel g cur.index ∧ cur.index = i ∧ cur.offset = 0 := by
  obtain ⟨g, hg⟩ : ∃ g, groups[i]? = some g := ⟨_, List.getElem?_eq_getElem hi⟩
  obtain ⟨cur, hload, hholds, hzero⟩ := loadGroup_ok h.holds h.groupsOk h.aligned h.opened hg
  have hindex := hholds.index
  exact ⟨cur, g, hload, hindex ▸ hg, hindex ▸ hholds, hindex, hzero⟩

/-- A row of the segment that lies in a group or at its end lies within its count. -/
theorem row_le_count (h : SegmentGroups groups) (hg : groups[cur.index]? = some g)
    (hholds : cur.Holds kernel g cur.index) {o : Nat} (ho : o ≤ metadataGroupSize)
    (hfit : metadataGroupSize * cur.index + o ≤ rowCount groups) : o ≤ cur.count := by
  have hmin := groupRowCount_eq h hg
  have hcount := hholds.count
  simp only [metadataGroupSize] at *
  omega

theorem skip_ok {p n : Nat} (h : Ready kernel segment groups address s p)
    (hfit : p + n ≤ rowCount groups) (hrows : 0 < rowCount groups) :
    ∃ s', s.skip kernel n = .ok s' ∧ Ready kernel segment groups address s' (p + n) ∧
      ∀ cur, s'.groupState = .current cur → s.isFinished = false →
        cur.offset < metadataGroupSize := by
  have hleave : ∀ (t : BitpackingScanState type) (cur cur' : CurrentGroup type),
      (t.leave cur).groupState = .current cur' → cur' = cur := by
    intro t cur cur' hstate
    unfold BitpackingScanState.leave at hstate
    simp only at hstate
    split at hstate
    · cases hstate
    · exact (GroupState.current.inj hstate).symm
  obtain ⟨hle, hlt⟩ := rowCount_bounds h.groupsOk
  have hlen : 0 < groups.length := by
    simp only [metadataGroupSize] at hle
    omega
  unfold skip
  extract_lets metaGroupsToSkip targetGroupIndex
  cases hfinished : s.isFinished with
  | true =>
      have hp : p = rowCount groups := by
        have hposition := h.position
        unfold isFinished at hfinished
        cases hstate : s.groupState with
        | initial => rw [hstate] at hfinished; cases hfinished
        | current cur => rw [hstate] at hfinished; cases hfinished
        | finished => rw [hstate] at hposition; exact hposition
      have hn : n = 0 := by omega
      subst hn
      exact ⟨s, by simp, h, fun _ _ hfalse => by cases hfalse⟩
  | false =>
      have hplace : p = metadataGroupSize * s.activeIndex + s.activeOffset := by
        have hposition := h.position
        unfold isFinished at hfinished
        unfold activeIndex activeOffset
        cases hstate : s.groupState with
        | initial => rw [hstate] at hposition; exact hposition
        | current cur =>
            rw [hstate] at hposition
            obtain ⟨g, -, -, hp⟩ := hposition
            exact hp
        | finished => rw [hstate] at hfinished; cases hfinished
      have htarget : p + n = metadataGroupSize * targetGroupIndex +
          (n + s.activeOffset) % metadataGroupSize := by
        have hmod := Nat.div_add_mod (n + s.activeOffset) metadataGroupSize
        simp only [targetGroupIndex, metaGroupsToSkip, Nat.mul_add]
        omega
      have hmodlt : (n + s.activeOffset) % metadataGroupSize < metadataGroupSize :=
        Nat.mod_lt _ (by decide)
      rw [if_neg Bool.false_ne_true]
      by_cases hmeta : metaGroupsToSkip = 0
      · rw [if_neg (not_not_intro hmeta)]
        have hsmall : n + s.activeOffset < metadataGroupSize :=
          (Nat.div_eq_zero_iff_lt (by decide)).mp hmeta
        obtain ⟨cur, g, hcur, hg, hholds, hindex, hoffset⟩ : ∃ cur g, s.skipStart = .ok cur ∧
            groups[cur.index]? = some g ∧ cur.Holds kernel g cur.index ∧
              cur.index = s.activeIndex ∧ cur.offset = s.activeOffset := by
          have hposition := h.position
          unfold skipStart activeIndex activeOffset
          cases hstate : s.groupState with
          | initial => exact loadGroup_start h hlen
          | current cur =>
              rw [hstate] at hposition
              obtain ⟨g, hg, hholds, -⟩ := hposition
              exact ⟨cur, g, rfl, hg, hholds, rfl, rfl⟩
          | finished => exact loadGroup_start h hlen
        have hfit' : cur.offset + n ≤ cur.count :=
          row_le_count h.groupsOk hg hholds (by omega) (by rw [hindex]; omega)
        obtain ⟨cur', hskip, hoff', hready⟩ := skipWithin_ok h hg hholds hfit'
        refine ⟨s.leave cur', ?_, ?_, fun cur'' hstate _ => ?_⟩
        · simp only [hcur, bind, Except.bind, hskip]
        · rwa [hindex, hoffset, ← hplace] at hready
        · rw [hleave _ _ _ hstate]
          omega
      · have hgroupCount := h.opened.groupCount
        have hover : ¬ (targetGroupIndex > s.groupCount ∨ targetGroupIndex = s.groupCount ∧
            (n + s.activeOffset) % metadataGroupSize ≠ 0) := by
          simp only [metadataGroupSize] at *
          omega
        rw [if_pos hmeta, if_neg hover]
        by_cases hend : targetGroupIndex = s.groupCount
        · rw [if_pos hend]
          refine ⟨_, rfl, ⟨h.holds, h.groupsOk, h.aligned, h.opened.withState _, ?_⟩,
            fun _ hstate => by cases hstate⟩
          show p + n = rowCount groups
          simp only [metadataGroupSize] at *
          omega
        · rw [if_neg hend]
          obtain ⟨cur, g, hload, hg, hholds, hindex, hzero⟩ :=
            loadGroup_start h (by omega : targetGroupIndex < groups.length)
          have hremaining : n - (metaGroupsToSkip * metadataGroupSize - s.activeOffset) =
              (n + s.activeOffset) % metadataGroupSize := by
            have hmod := Nat.div_add_mod (n + s.activeOffset) metadataGroupSize
            have hoff : s.activeOffset ≤ metadataGroupSize := by
              unfold activeOffset
              cases hstate : s.groupState with
              | initial => exact Nat.zero_le _
              | finished => exact Nat.zero_le _
              | current cur =>
                  have hposition := h.position
                  rw [hstate] at hposition
                  obtain ⟨g, hg, hholds, -⟩ := hposition
                  have hcount := (h.groupsOk.count g (List.mem_of_getElem? hg)).2
                  have hle' := hholds.offset
                  rw [hholds.count] at hle'
                  exact hle'.trans hcount
            have hone : metadataGroupSize ≤ metaGroupsToSkip * metadataGroupSize :=
              Nat.le_mul_of_pos_left _ (Nat.pos_of_ne_zero hmeta)
            rw [Nat.mul_comm] at hone ⊢
            simp only [metaGroupsToSkip] at *
            omega
          have hfit' : cur.offset + (n + s.activeOffset) % metadataGroupSize ≤ cur.count :=
            row_le_count h.groupsOk hg hholds (by omega) (by rw [hindex]; omega)
          obtain ⟨cur', hskip, hoff', hready⟩ := skipWithin_ok h hg hholds hfit'
          refine ⟨s.leave cur', ?_, ?_, fun cur'' hstate _ => ?_⟩
          · simp only [hload, bind, Except.bind, hremaining, hskip]
          · rwa [hindex, hzero, Nat.add_zero, ← htarget] at hready
          · rw [hleave _ _ _ hstate]
            omega

theorem leave_not_initial (cur : CurrentGroup type) : (s.leave cur).groupState ≠ .initial := by
  unfold BitpackingScanState.leave
  simp only
  split <;> nofun

/-- A skip leads into a group or to the end. -/
theorem skip_not_initial {n : Nat} {s' : BitpackingScanState type} (h : s.skip kernel n = .ok s')
    (hs : s.isFinished = false) : s'.groupState ≠ .initial := by
  have hwithin : ∀ {cur : CurrentGroup type} {n : Nat}, s.skipWithin kernel cur n = .ok s' →
      s'.groupState ≠ .initial := by
    intro cur n hskip
    unfold skipWithin at hskip
    split at hskip
    · cases hskip
    · split at hskip
      · cases hloop : skipLoop kernel n cur n with
        | error e => rw [hloop] at hskip; cases hskip
        | ok cur' =>
            rw [hloop] at hskip
            cases hskip
            exact leave_not_initial cur'
      · cases hskip
        exact leave_not_initial _
  unfold skip at h
  extract_lets metaGroupsToSkip targetGroupIndex at h
  rw [hs, if_neg Bool.false_ne_true] at h
  split at h
  · split at h
    · cases h
    · split at h
      · cases h
        nofun
      · cases hload : s.loadGroup targetGroupIndex with
        | error e => rw [hload] at h; cases h
        | ok cur =>
            rw [hload] at h
            exact hwithin h
  · cases hstart : s.skipStart with
    | error e => rw [hstart] at h; cases h
    | ok cur =>
        rw [hstart] at h
        exact hwithin h

theorem fetchRow_ok {row : Nat} (h : Ready kernel segment groups address s 0)
    (hinitial : s.groupState = .initial) (hrow : row < rowCount groups) :
    s.fetchRow kernel row = .ok (type.ofBits (storedValue groups row)) := by
  obtain ⟨s', hskip, hready, hsmall⟩ := skip_ok (n := row) h (by omega) (by omega)
  rw [Nat.zero_add] at hready
  unfold fetchRow
  simp only [hskip, bind, Except.bind]
  have hposition := hready.position
  have hnotFinished : s.isFinished = false := by rw [isFinished, hinitial]
  cases hstate : s'.groupState with
  | initial =>
      exact absurd hstate (skip_not_initial hskip hnotFinished)
  | finished =>
      rw [hstate] at hposition
      have hp : row = rowCount groups := hposition
      omega
  | current cur =>
      simp only
      rw [hstate] at hposition
      obtain ⟨g, hg, hholds, hp⟩ := hposition
      have hlt : cur.offset < cur.count := by
        have hle := row_le_count (o := cur.offset + 1) h.groupsOk hg hholds
          (hsmall cur hstate hnotFinished) (by omega)
        omega
      have hstored : storedValue groups row = g.call.value cur.offset := by
        rw [hp, storedValue_group hg (hsmall cur hstate hnotFinished)]
      rw [hstored]
      have hmode := hholds.mode
      have hframe := hholds.frame
      have hconstant := hholds.constant
      have hdelta := hholds.deltaOffset
      have hpackedAt : g.call.IsPacked → ∃ unpacked, cur.unpackAlgorithmGroup kernel = .ok unpacked ∧
          unpacked.getD (cur.offset % algorithmGroupSize) 0 = g.call.packed cur.offset := by
        intro hpacked
        obtain ⟨unpacked, hunpack, -, hone⟩ := hholds.unpacked (n := 1) hpacked hlt
          (by omega) (by omega)
        refine ⟨unpacked, hunpack, ?_⟩
        have hget := congrArg (fun l => l[0]?) hone
        simp only [List.getElem?_take, List.getElem?_drop, List.getElem?_map] at hget
        rw [List.getD_eq_getElem?_getD]
        have hhead : unpacked[cur.offset % 32]? = some (g.call.packed cur.offset) := by
          simpa using hget
        rw [hhead, Option.getD_some]
      cases hcall : g.call with
      | writeConstant constant =>
          rw [hcall] at hmode hconstant
          rw [hmode]
          simp only [BitpackingWrite.mode, hconstant]
          rfl
      | writeConstantDelta constant frame =>
          rw [hcall] at hmode hconstant hframe
          rw [hmode]
          simp only [BitpackingWrite.mode, hconstant, hframe]
          rfl
      | writeFor values width frame =>
          obtain ⟨unpacked, hunpack, hget⟩ := hpackedAt (by rw [hcall]; trivial)
          rw [hcall] at hmode hframe hget
          rw [hmode]
          simp only [BitpackingWrite.mode, hunpack, hget, hframe, reduceCtorEq, if_false]
          rfl
      | writeDeltaFor values width frame offset =>
          obtain ⟨unpacked, hunpack, hget⟩ := hpackedAt (by rw [hcall]; trivial)
          rw [hcall] at hmode hframe hget hdelta
          rw [hmode]
          simp only [BitpackingWrite.mode, hunpack, hget, hframe, hdelta, if_true]
          rw [BitVec.add_comm]
          rfl

end BitpackingScanState

/-! ## Calls in any order -/

open BitpackingScanState

inductive ScanCall
  | scanPartial (scanCount : Nat)
  | skip (skipCount : Nat)

def ScanCall.rows : ScanCall → Nat
  | scanPartial n => n
  | skip n => n

def runCalls (kernel : BitpackingKernel type.bits) :
    List ScanCall → BitpackingScanState type → Except String (List (List type.Value))
  | [], _ => .ok []
  | .scanPartial n :: calls, s => do
      let (values, s) ← s.scanPartial kernel n
      let rest ← runCalls kernel calls s
      .ok (values :: rest)
  | .skip n :: calls, s => do
      let s ← s.bitpackingSkip kernel n
      runCalls kernel calls s

/-- From a row on, the scans have returned every valid row as it was. -/
def ReadsRows (rows : List (Option type.Value)) : Nat → List ScanCall → List (List type.Value) → Prop
  | _, [], results => results = []
  | p, .scanPartial n :: calls, results => ∃ values rest, results = values :: rest ∧
      values.length = n ∧ (∀ i v, i < n → rows[p + i]? = some (some v) → values[i]? = some v) ∧
      ReadsRows rows (p + n) calls rest
  | p, .skip n :: calls, results => ReadsRows rows (p + n) calls results

theorem runCalls_ok {address : Nat} : {calls : List ScanCall} → {p : Nat} →
    {s : BitpackingScanState type} → Ready kernel segment groups address s p →
    p + (calls.map ScanCall.rows).sum ≤ rowCount groups →
    ∃ results, runCalls kernel calls s = .ok results ∧
      ReadsRows (groupRows groups) p calls results
  | [], p, s, _, _ => ⟨[], rfl, rfl⟩
  | .scanPartial n :: calls, p, s, h, hfit => by
      rw [List.map_cons, List.sum_cons] at hfit
      simp only [ScanCall.rows] at hfit
      obtain ⟨s', hscan, hready⟩ := scanPartial_ok (n := n) h (by omega)
      obtain ⟨results, hrun, hreads⟩ := runCalls_ok hready
        (by omega : p + n + (calls.map ScanCall.rows).sum ≤ rowCount groups)
      refine ⟨((List.range' p n).map fun i => type.ofBits (storedValue groups i)) :: results, ?_,
        ⟨_, results, rfl, by simp, ?_, hreads⟩⟩
      · rw [runCalls, hscan]
        simp only [bind, Except.bind]
        rw [hrun]
      · intro i v hi hv
        rw [List.getElem?_map, List.getElem?_range' hi, Option.map_some, Nat.one_mul,
          storedValue_rows h.groupsOk hv, ofBits_toBits]
  | .skip n :: calls, p, s, h, hfit => by
      rw [List.map_cons, List.sum_cons] at hfit
      simp only [ScanCall.rows] at hfit
      obtain ⟨s', hskip, hready⟩ : ∃ s', s.bitpackingSkip kernel n = .ok s' ∧
          Ready kernel segment groups address s' (p + n) := by
        unfold bitpackingSkip
        by_cases h0 : n = 0
        · rw [if_pos h0, h0]
          exact ⟨s, rfl, h⟩
        · rw [if_neg h0]
          obtain ⟨s', hskip, hready, -⟩ := skip_ok (n := n) h (by omega) (by omega)
          exact ⟨s', hskip, hready⟩
      obtain ⟨results, hrun, hreads⟩ := runCalls_ok hready
        (by omega : p + n + (calls.map ScanCall.rows).sum ≤ rowCount groups)
      refine ⟨results, ?_, hreads⟩
      rw [runCalls, hskip]
      exact hrun

end MiniDuck
