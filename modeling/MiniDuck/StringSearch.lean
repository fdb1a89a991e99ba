import MiniDuck.PatternScan

/-!
# Finding a string in a string

`FindStrInStr` compares the first bytes of a short needle as one word and
looks at the rest of them only where these match. A long needle that keeps
almost-matching is searched for in linear time, with a table of the longest
prefixes of the needle that its own prefixes end with (`prefixTable_longest`).
All of this finds the first occurrence (`findStrInStr_found`).
-/

namespace MiniDuck
namespace StringSearch

abbrev Bytes : Type := List UInt8

/-- The needle begins at `n - offset` and nowhere before, or nowhere. -/
def Found (offset : Nat) (needle haystack : Bytes) : Option Nat → Prop
  | none => ∀ j, ¬ needle <+: haystack.drop j
  | some n => ∃ i, n = offset + i ∧ needle <+: haystack.drop i ∧
      ∀ j < i, ¬ needle <+: haystack.drop j

def memchr (haystack : Bytes) (b : UInt8) : Option Nat := haystack.findIdx? (· = b)

/-! ## Needles up to eight bytes -/

inductive ContainsOp
  | aligned
  | unaligned
  deriving Repr, DecidableEq

/-- Compares what the word of `width` bytes leaves out. -/
def ContainsOp.matchRemainder (width : Nat) (needle haystack : Bytes) : ContainsOp → Bool
  | .aligned => true
  | .unaligned =>
      (List.range' width (needle.length - width)).countP (fun i => haystack[i]? = needle[i]?) =
        needle.length - width

variable {haystack : Bytes} {candidates : Nat}

theorem memchr_take {skip : Nat} {b : UInt8} (h : memchr (haystack.take candidates) b = some skip) :
    skip < candidates ∧ skip < haystack.length ∧ haystack[skip]? = some b ∧
      ∀ j < skip, haystack[j]? ≠ some b := by
  rw [memchr, List.findIdx?_eq_some_iff_getElem] at h
  obtain ⟨hlt, hb, hbefore⟩ := h
  rw [List.length_take] at hlt
  have hskip : skip < candidates := lt_of_lt_of_le hlt (min_le_left _ _)
  have hlen : skip < haystack.length := lt_of_lt_of_le hlt (min_le_right _ _)
  refine ⟨hskip, hlen, ?_, fun j hj hcontra => ?_⟩
  · rw [List.getElem?_eq_getElem hlen]
    simpa using hb
  · rw [List.getElem?_eq_getElem (hj.trans hlen)] at hcontra
    have hne := hbefore j hj
    simp only [List.getElem_take] at hne
    simp [Option.some.inj hcontra] at hne

def containsLoop (first : UInt8) (compare : Bytes → Bool) (haystack : Bytes)
    (candidates offset : Nat) : Option Nat :=
  match hskip : memchr (haystack.take candidates) first with
  | none => none
  | some skip =>
      if compare (haystack.drop skip) then some (offset + skip)
      else
        containsLoop first compare (haystack.drop (skip + 1)) (candidates - (skip + 1))
          (offset + skip + 1)
termination_by candidates
decreasing_by
  have hlt := (memchr_take hskip).1
  omega

/-- `Contains` with words of `width` bytes. -/
def contains (width : Nat) (op : ContainsOp) (haystack needle : Bytes) (baseOffset : Nat) :
    Option Nat :=
  if needle.length > haystack.length then none
  else
    containsLoop (needle.headD 0)
      (fun location => location.take width = needle.take width ∧
        op.matchRemainder width needle location)
      haystack (haystack.length - (needle.length - 1)) baseOffset

/-! ## Long needles -/

variable (needle : Bytes) (table : List Nat)

/-- Falls back to shorter prefixes until `b` continues one of them. -/
def retreat (b : UInt8) : Nat → Nat → Nat
  | 0, k => k
  | fuel + 1, k =>
      if k > 0 ∧ needle[k]? ≠ some b then retreat b fuel (table.getD (k - 1) 0) else k

/-- One byte of the text; `k` bytes of the needle match before it. A fallback shortens the match,
so that there are at most `k`. -/
def advance (b : UInt8) (k : Nat) : Nat :=
  let k := retreat needle table b k k
  if needle[k]? = some b then k + 1 else k

/-- At `i` the length of the longest proper prefix of the first `i + 1` bytes that is a suffix of
them. -/
def prefixTable : List Nat :=
  ((needle.drop 1).foldl (fun (table, k) b =>
    let k := advance needle table b k
    (table ++ [k], k)) ([0], 0)).1

def linearLoop (baseOffset : Nat) : Bytes → Nat → Nat → Option Nat
  | [], _, _ => none
  | b :: haystack, i, k =>
      let k := advance needle table b k
      if k = needle.length then some (baseOffset + i + 1 - needle.length)
      else linearLoop baseOffset haystack (i + 1) k

def containsLinear (haystack needle : Bytes) (baseOffset : Nat) : Option Nat :=
  linearLoop needle (prefixTable needle) baseOffset haystack 0 0

/-- The loop of `ContainsLong`. -/
def containsLongLoop (maxFullCompares : Nat) (haystack : Bytes)
    (candidates offset fullCompares : Nat) : Option Nat :=
  match hskip : memchr (haystack.take candidates) (needle.headD 0) with
  | none => none
  | some skip =>
      let location := haystack.drop skip
      if location.take 8 ≠ needle.take 8 then
        containsLongLoop maxFullCompares (haystack.drop (skip + 1)) (candidates - (skip + 1))
          (offset + skip + 1) fullCompares
      else if (location.drop 8).take (needle.length - 8) = needle.drop 8 then some (offset + skip)
      else if fullCompares + 1 > maxFullCompares then
        containsLinear location needle (offset + skip)
      else
        containsLongLoop maxFullCompares (haystack.drop (skip + 1)) (candidates - (skip + 1))
          (offset + skip + 1) (fullCompares + 1)
termination_by candidates
decreasing_by
  all_goals
    have hlt := (memchr_take hskip).1
    omega

def containsLong (haystack needle : Bytes) (baseOffset : Nat) : Option Nat :=
  if needle.length > haystack.length then none
  else
    containsLongLoop needle (16 + haystack.length * 8 / needle.length) haystack
      (haystack.length - (needle.length - 1)) baseOffset 0

/-- `FindStrInStr`, for a needle that is not empty. -/
def findStrInStr (haystack needle : Bytes) : Option Nat :=
  match memchr haystack (needle.headD 0) with
  | none => none
  | some baseOffset =>
      let haystack := haystack.drop baseOffset
      match needle.length with
      | 1 => some baseOffset
      | 2 => contains 2 .aligned haystack needle baseOffset
      | 3 => contains 2 .unaligned haystack needle baseOffset
      | 4 => contains 4 .aligned haystack needle baseOffset
      | 5 => contains 4 .unaligned haystack needle baseOffset
      | 6 => contains 4 .unaligned haystack needle baseOffset
      | 7 => contains 4 .unaligned haystack needle baseOffset
      | 8 => contains 8 .aligned haystack needle baseOffset
      | _ => containsLong haystack needle baseOffset

/-! ## Candidates -/

variable {needle : Bytes}

theorem Found.drop {offset n : Nat} {result : Option Nat}
    (hnone : ∀ j < n, ¬ needle <+: haystack.drop j)
    (h : Found (offset + n) needle (haystack.drop n) result) :
    Found offset needle haystack result := by
  have hbefore {i : Nat} (hi : ∀ j < i, ¬ needle <+: (haystack.drop n).drop j) :
      ∀ j < n + i, ¬ needle <+: haystack.drop j := by
    intro j hj
    rcases Nat.lt_or_ge j n with hlt | hge
    · exact hnone j hlt
    · have hdrop := hi (j - n) (by omega)
      rwa [List.drop_drop, Nat.add_sub_cancel' hge] at hdrop
  cases result with
  | none => exact fun j => hbefore (fun i _ => h i) j (show j < n + (j + 1) by omega)
  | some m =>
      obtain ⟨i, rfl, hi, hfirst⟩ := h
      refine ⟨n + i, Nat.add_assoc _ _ _, ?_, hbefore hfirst⟩
      rwa [List.drop_drop] at hi

theorem prefix_length_le {j : Nat} (h : needle <+: haystack.drop j) :
    needle.length ≤ haystack.length - j := by
  have hle := h.length_le
  rwa [List.length_drop] at hle

theorem headD_eq (hne : needle ≠ []) {j : Nat} (h : needle <+: haystack.drop j) :
    haystack[j]? = some (needle.headD 0) := by
  obtain ⟨b, needle, rfl⟩ := List.exists_cons_of_ne_nil hne
  obtain ⟨rest, hrest⟩ := h
  rw [← List.head?_drop, ← hrest]
  rfl

/-- Before the first candidate that has the first byte of the needle there is no occurrence. -/
theorem none_before (hne : needle ≠ []) {skip : Nat}
    (hskip : memchr (haystack.take candidates) (needle.headD 0) = some skip) :
    ∀ j < skip, ¬ needle <+: haystack.drop j := by
  intro j hj h
  exact (memchr_take hskip).2.2.2 j hj (headD_eq hne h)

theorem none_of_memchr (hne : needle ≠ [])
    (hcandidates : haystack.length - (needle.length - 1) ≤ candidates)
    (hnone : memchr (haystack.take candidates) (needle.headD 0) = none) (j : Nat) :
    ¬ needle <+: haystack.drop j := by
  intro h
  have hpos := List.length_pos_of_ne_nil hne
  have hle := prefix_length_le h
  have hj : j < (haystack.take candidates).length := by
    rw [List.length_take]
    omega
  rw [memchr, List.findIdx?_eq_none_iff] at hnone
  have hmem := hnone _ (List.getElem_mem hj)
  have hhead := headD_eq hne h
  rw [List.getElem_take] at hmem
  rw [List.getElem?_eq_getElem (by omega)] at hhead
  simp [Option.some.inj hhead] at hmem

theorem Found.next (hne : needle ≠ []) {skip offset : Nat} {result : Option Nat}
    (hskip : memchr (haystack.take candidates) (needle.headD 0) = some skip)
    (hhere : ¬ needle <+: haystack.drop skip)
    (h : Found (offset + skip + 1) needle (haystack.drop (skip + 1)) result) :
    Found offset needle haystack result := by
  refine .drop (n := skip + 1) (fun j hj => ?_) h
  rcases Nat.lt_succ_iff_lt_or_eq.mp hj with hlt | rfl
  · exact none_before hne hskip j hlt
  · exact hhere

theorem Found.here (hne : needle ≠ []) {skip offset : Nat}
    (hskip : memchr (haystack.take candidates) (needle.headD 0) = some skip)
    (hhere : needle <+: haystack.drop skip) : Found offset needle haystack (some (offset + skip)) :=
  ⟨skip, rfl, hhere, none_before hne hskip⟩

/-- A loop over the candidates with a correct comparison finds the first occurrence. -/
theorem containsLoop_found (hne : needle ≠ []) {compare : Bytes → Bool} (offset : Nat)
    (hcompare : ∀ location : Bytes, location ≠ [] → needle.length ≤ location.length → (compare location = true ↔ needle <+: location))
    (hcandidates : candidates = haystack.length - (needle.length - 1)) :
    Found offset needle haystack
      (containsLoop (needle.headD 0) compare haystack candidates offset) := by
  fun_induction containsLoop (needle.headD 0) compare haystack candidates offset with
  | case1 haystack candidates offset hskip =>
      exact none_of_memchr hne hcandidates.ge hskip
  | case2 haystack candidates offset skip hskip hhere =>
      obtain ⟨hlt, hlen, -⟩ := memchr_take hskip
      have hpos := List.length_pos_of_ne_nil hne
      refine .here hne hskip ((hcompare _ ?_ ?_).mp hhere)
      · rw [Ne, List.drop_eq_nil_iff]
        omega
      · rw [List.length_drop]
        omega
  | case3 haystack candidates offset skip hskip hhere ih =>
      obtain ⟨hlt, hlen, -⟩ := memchr_take hskip
      have hpos := List.length_pos_of_ne_nil hne
      refine .next hne hskip (fun h => hhere ((hcompare _ ?_ ?_).mpr h)) (ih ?_)
      · rw [Ne, List.drop_eq_nil_iff]
        omega
      · rw [List.length_drop]
        omega
      · rw [List.length_drop]
        omega

theorem prefix_iff_take {location : Bytes} : needle <+: location ↔
    location.take needle.length = needle := by
  rw [List.prefix_iff_eq_take, eq_comm]

/-- The word and what it leaves out are the needle. -/
theorem prefix_iff_width {location : Bytes} {width : Nat} (hwidth : width ≤ needle.length) :
    needle <+: location ↔ location.take width = needle.take width ∧
      (location.drop width).take (needle.length - width) = needle.drop width := by
  rw [prefix_iff_take]
  constructor
  · intro h
    constructor
    · rw [← h, List.take_take, min_eq_left hwidth]
    · rw [← List.drop_take, h]
  · rintro ⟨htake, hdrop⟩
    rw [← Nat.add_sub_cancel' hwidth, List.take_add, htake, hdrop, List.take_append_drop]

theorem matchRemainder_unaligned {location : Bytes} {width : Nat} :
    ContainsOp.unaligned.matchRemainder width needle location = true ↔
      (location.drop width).take (needle.length - width) = needle.drop width := by
  have hall : ContainsOp.unaligned.matchRemainder width needle location = true ↔
      ∀ i ∈ List.range' width (needle.length - width), location[i]? = needle[i]? := by
    have hcount := List.countP_eq_length (p := fun i => decide (location[i]? = needle[i]?))
      (l := List.range' width (needle.length - width))
    rw [List.length_range'] at hcount
    rw [ContainsOp.matchRemainder, decide_eq_true_iff, hcount]
    simp only [decide_eq_true_iff]
  rw [hall]
  constructor
  · intro h
    refine List.ext_getElem? fun i => ?_
    rw [List.getElem?_take, List.getElem?_drop, List.getElem?_drop]
    split
    · exact h _ (List.mem_range'_1.mpr (by omega))
    · exact (List.getElem?_eq_none (by omega)).symm
  · intro h i hi
    obtain ⟨hle, hlt⟩ := List.mem_range'_1.mp hi
    have heq := congrArg (fun l => l[i - width]?) h
    simp only [List.getElem?_take, List.getElem?_drop] at heq
    rwa [if_pos (by omega), Nat.add_sub_cancel' hle] at heq

theorem contains_found {width : Nat} {op : ContainsOp} (hpos : 0 < width)
    (hwidth : width ≤ needle.length) (hop : op = .aligned → needle.length = width)
    (baseOffset : Nat) :
    Found baseOffset needle haystack (contains width op haystack needle baseOffset) := by
  have hne : needle ≠ [] := List.ne_nil_of_length_pos (by omega)
  unfold contains
  split
  · rename_i hlong
    intro j h
    have hle := prefix_length_le h
    omega
  · refine containsLoop_found hne baseOffset (fun location _ _ => ?_) rfl
    rw [decide_eq_true_iff, prefix_iff_width hwidth]
    refine and_congr_right fun _ => ?_
    cases op with
    | aligned =>
        have hnone : needle.length - width = 0 := by
          rw [hop rfl, Nat.sub_self]
        rw [hnone, List.take_zero, eq_comm (a := []), List.drop_eq_nil_iff]
        exact ⟨fun _ => (hop rfl).le, fun _ => rfl⟩
    | unaligned => exact matchRemainder_unaligned

/-! ## The table of a long needle -/

/-- The longest prefix of at most `bound` bytes that what was read ends with. -/
def Longest (needle : Bytes) (bound : Nat) (seen : Bytes) (k : Nat) : Prop :=
  k ≤ bound ∧ needle.take k <:+ seen ∧ ∀ j ≤ bound, needle.take j <:+ seen → j ≤ k

/-- The entries of the table below `n` are the lengths of the longest proper prefixes. -/
def TableUpTo (needle : Bytes) (table : List Nat) (n : Nat) : Prop :=
  ∀ i < n, Longest needle i (needle.take (i + 1)) (table.getD i 0)

variable {seen : Bytes} {k : Nat}

/-- A shorter prefix at the end is at the end of the longer one. -/
theorem take_suffix_take {j : Nat} (hj : needle.take j <:+ seen) (hk : needle.take k <:+ seen)
    (hjk : j ≤ k) : needle.take j <:+ needle.take k := by
  refine List.suffix_of_suffix_length_le hj hk ?_
  rw [List.length_take, List.length_take]
  omega

variable {table : List Nat}

/-- Falling back reaches the longest prefix that `b` continues. -/
theorem retreat_spec {b : UInt8} {fuel : Nat} (hfuel : k ≤ fuel) (htable : TableUpTo needle table k)
    (hk : needle.take k <:+ seen) : retreat needle table b fuel k ≤ k ∧
      needle.take (retreat needle table b fuel k) <:+ seen ∧
      (retreat needle table b fuel k = 0 ∨ needle[retreat needle table b fuel k]? = some b) ∧
      ∀ j ≤ k, needle.take j <:+ seen → needle[j]? = some b →
        j ≤ retreat needle table b fuel k := by
  induction fuel generalizing k with
  | zero =>
      obtain rfl : k = 0 := Nat.le_zero.mp hfuel
      exact ⟨le_refl _, hk, .inl rfl, fun j hj _ _ => hj⟩
  | succ fuel ih =>
      rw [retreat]
      split
      · rename_i hback
        obtain ⟨hpos, hne⟩ := hback
        obtain ⟨hle, hsuffix, hlongest⟩ := htable (k - 1) (by omega)
        rw [Nat.sub_add_cancel hpos] at hsuffix hlongest
        have hseen := hsuffix.trans hk
        obtain ⟨hle', hsuffix', hend, hmax⟩ :=
          ih (k := table.getD (k - 1) 0) (by omega) (fun i hi => htable i (by omega)) hseen
        refine ⟨by omega, hsuffix', hend, fun j hj hjseen hjb => ?_⟩
        have hjk : j ≠ k := by
          rintro rfl
          exact hne hjb
        exact hmax j (hlongest j (by omega) (take_suffix_take hjseen hk hj)) hjseen hjb
      · rename_i hstay
        refine ⟨le_refl _, hk, ?_, fun j hj _ _ => hj⟩
        by_contra hcontra
        push Not at hcontra
        exact hstay ⟨Nat.pos_of_ne_zero hcontra.1, hcontra.2⟩

theorem take_succ_suffix {j : Nat} {b : UInt8} (hj : j < needle.length) :
    needle.take (j + 1) <:+ seen ++ [b] ↔ needle[j]? = some b ∧ needle.take j <:+ seen := by
  rw [List.take_succ_eq_append_getElem hj, PatternScan.suffix_append_singleton,
    List.getElem?_eq_getElem hj, Option.some_inj]

theorem advance_longest {bound : Nat} (b : UInt8) (hbound : bound < needle.length)
    (htable : TableUpTo needle table k) (h : Longest needle bound seen k) :
    Longest needle (bound + 1) (seen ++ [b]) (advance needle table b k) := by
  obtain ⟨hle, hsuffix, hlongest⟩ := h
  obtain ⟨hle', hsuffix', hend, hmax⟩ := retreat_spec (b := b) (le_refl k) htable hsuffix
  -- the prefixes that `b` continues
  have hbefore {j : Nat} (hj : j + 1 ≤ bound + 1) (hjseen : needle.take (j + 1) <:+ seen ++ [b]) :
      j ≤ retreat needle table b k k ∧ needle[j]? = some b := by
    obtain ⟨hjb, hjseen⟩ := (take_succ_suffix (by omega)).mp hjseen
    exact ⟨hmax j (hlongest j (by omega) hjseen) hjseen hjb, hjb⟩
  rw [advance]
  split
  · rename_i hb
    refine ⟨by omega, (take_succ_suffix (by omega)).mpr ⟨hb, hsuffix'⟩, fun j hj hjseen => ?_⟩
    cases j with
    | zero => exact Nat.zero_le _
    | succ j => exact Nat.succ_le_succ (hbefore hj hjseen).1
  · rename_i hb
    have hzero : retreat needle table b k k = 0 := hend.resolve_right hb
    rw [hzero] at hb ⊢
    refine ⟨Nat.zero_le _, by simp, fun j hj hjseen => ?_⟩
    cases j with
    | zero => exact le_refl _
    | succ j =>
        obtain ⟨hle, hjb⟩ := hbefore hj hjseen
        rw [hzero, Nat.le_zero] at hle
        exact absurd (hle ▸ hjb) hb

theorem tableUpTo_append {b : UInt8} {i : Nat} (hb : needle[i + 1]? = some b)
    (hlength : table.length = i + 1) (htable : TableUpTo needle table (i + 1))
    (hk : Longest needle i (needle.take (i + 1)) k) :
    TableUpTo needle (table ++ [advance needle table b k]) (i + 2) ∧
      Longest needle (i + 1) (needle.take (i + 2)) (advance needle table b k) := by
  obtain ⟨hi, rfl⟩ := List.getElem?_eq_some_iff.mp hb
  have hle : k ≤ i := hk.1
  have hnext := advance_longest needle[i + 1] (by omega)
    (fun j hj => htable j (by omega)) hk
  rw [← List.take_succ_eq_append_getElem hi] at hnext
  refine ⟨fun j hj => ?_, hnext⟩
  rcases Nat.lt_succ_iff_lt_or_eq.mp hj with hlt | rfl
  · rw [List.getD_append _ _ _ _ (by omega)]
    exact htable j hlt
  · rw [List.getD_append_right _ _ _ _ (by omega), hlength, Nat.sub_self]
    exact hnext

theorem foldl_table {rest : Bytes} {i : Nat} (hrest : needle.drop (i + 1) = rest)
    (hi : i < needle.length) (hlength : table.length = i + 1)
    (htable : TableUpTo needle table (i + 1)) (hk : Longest needle i (needle.take (i + 1)) k) :
    TableUpTo needle (rest.foldl (fun (table, k) b =>
      let k := advance needle table b k
      (table ++ [k], k)) (table, k)).1 needle.length := by
  induction rest generalizing table i k with
  | nil =>
      have hlast : needle.length ≤ i + 1 := List.drop_eq_nil_iff.mp hrest
      obtain heq : needle.length = i + 1 := by omega
      rwa [heq]
  | cons b rest ih =>
      have hb : needle[i + 1]? = some b := by
        rw [← List.head?_drop, hrest]
        rfl
      obtain ⟨htable', hk'⟩ := tableUpTo_append hb hlength htable hk
      have hlt := (List.getElem?_eq_some_iff.mp hb).1
      refine ih ?_ hlt ?_ htable' hk'
      · rw [← List.drop_drop, hrest]
        rfl
      · rw [List.length_append, hlength]
        rfl

theorem prefixTable_longest (hne : needle ≠ []) :
    TableUpTo needle (prefixTable needle) needle.length := by
  have hzero : Longest needle 0 (needle.take 1) 0 := ⟨le_refl _, by simp, fun j hj _ => hj⟩
  refine foldl_table rfl (List.length_pos_of_ne_nil hne) rfl (fun i hi => ?_) hzero
  obtain rfl : i = 0 := by omega
  exact hzero

/-! ## Long needles are found -/

theorem suffix_iff_longest (h : Longest needle needle.length seen k) :
    k = needle.length ↔ needle <:+ seen := by
  constructor
  · rintro rfl
    simpa using h.2.1
  · intro hsuffix
    exact le_antisymm h.1 (h.2.2 _ (le_refl _) (by simpa using hsuffix))

theorem linearLoop_spec (htable : TableUpTo needle table needle.length) (baseOffset : Nat)
    (rest : Bytes) (hk : Longest needle (needle.length - 1) seen k) (hpos : 0 < needle.length) :
    match linearLoop needle table baseOffset rest seen.length k with
    | none => ∀ e, seen.length < e → e ≤ (seen ++ rest).length →
        ¬ needle <:+ (seen ++ rest).take e
    | some n => ∃ e, n = baseOffset + e - needle.length ∧ seen.length < e ∧
        e ≤ (seen ++ rest).length ∧ needle <:+ (seen ++ rest).take e ∧
        ∀ e', seen.length < e' → e' < e → ¬ needle <:+ (seen ++ rest).take e' := by
  induction rest generalizing seen k with
  | nil =>
      intro e hlt hle
      rw [List.append_nil] at hle
      omega
  | cons b rest ih =>
      have hle : k ≤ needle.length - 1 := hk.1
      have hnext := advance_longest b (by omega) (fun i hi => htable i (by omega)) hk
      rw [Nat.sub_add_cancel hpos] at hnext
      have htake : (seen ++ b :: rest).take (seen.length + 1) = seen ++ [b] := by
        rw [List.take_length_add_append]
        rfl
      have hlength : (seen ++ [b]).length = seen.length + 1 := List.length_append
      rw [linearLoop]
      split_ifs with hfull
      · refine ⟨seen.length + 1, rfl, Nat.lt_succ_self _, ?_, ?_, fun e' hlt hle => by omega⟩
        · rw [List.length_append, List.length_cons]
          omega
        · rw [htake]
          exact (suffix_iff_longest hnext).mp hfull
      · have hnot : ¬ needle <:+ (seen ++ b :: rest).take (seen.length + 1) := by
          rw [htake]
          exact fun hsuffix => hfull ((suffix_iff_longest hnext).mpr hsuffix)
        have hk' : Longest needle (needle.length - 1) (seen ++ [b]) (advance needle table b k) := by
          refine ⟨?_, hnext.2.1, fun j hj => hnext.2.2 j (by omega)⟩
          have := hnext.1
          omega
        have hrec := ih hk'
        rw [hlength, List.append_assoc, List.singleton_append] at hrec
        split at hrec
        · intro e hlt hle
          rcases Nat.lt_or_eq_of_le (Nat.succ_le_of_lt hlt) with hlt | rfl
          · exact hrec e hlt hle
          · exact hnot
        · obtain ⟨e, hn, hlt, hle, hhere, hbefore⟩ := hrec
          refine ⟨e, hn, Nat.lt_of_succ_lt hlt, hle, hhere, fun e' hlt' hle' => ?_⟩
          rcases Nat.lt_or_eq_of_le (Nat.succ_le_of_lt hlt') with hlt' | rfl
          · exact hbefore e' hlt' hle'
          · exact hnot

theorem suffix_take_iff {e : Nat} (he : e ≤ haystack.length) :
    needle <:+ haystack.take e ↔ ∃ j, e = j + needle.length ∧ needle <+: haystack.drop j := by
  constructor
  · rintro ⟨before, hbefore⟩
    have hlength := congrArg List.length hbefore
    rw [List.length_append, List.length_take, min_eq_left he] at hlength
    refine ⟨before.length, hlength.symm, haystack.drop e, ?_⟩
    have hall : haystack = before ++ (needle ++ haystack.drop e) := by
      rw [← List.append_assoc, hbefore, List.take_append_drop]
    conv_rhs => rw [hall]
    rw [List.drop_left]
  · rintro ⟨j, rfl, rest, hrest⟩
    refine ⟨haystack.take j, ?_⟩
    rw [List.take_add, ← hrest, List.take_left]

theorem containsLinear_found (hne : needle ≠ []) (haystack : Bytes) (baseOffset : Nat) :
    Found baseOffset needle haystack (containsLinear haystack needle baseOffset) := by
  have hpos := List.length_pos_of_ne_nil hne
  have hzero : Longest needle (needle.length - 1) [] 0 := by
    refine ⟨Nat.zero_le _, by simp, fun j hj hsuffix => ?_⟩
    have hnil := List.take_eq_nil_iff.mp (List.suffix_nil.mp hsuffix)
    exact (hnil.resolve_right hne).le
  have hend {j : Nat} (h : needle <+: haystack.drop j) : j + needle.length ≤ haystack.length := by
    have := prefix_length_le h
    omega
  have hspec := linearLoop_spec (prefixTable_longest hne) baseOffset haystack hzero hpos
  rw [List.length_nil, List.nil_append] at hspec
  rw [containsLinear]
  split at hspec
  · rename_i hnone
    rw [hnone]
    intro j h
    exact hspec _ (by omega) (hend h) ((suffix_take_iff (hend h)).mpr ⟨j, rfl, h⟩)
  · rename_i n hsome
    rw [hsome]
    obtain ⟨e, rfl, -, hle, hhere, hbefore⟩ := hspec
    obtain ⟨i, rfl, hi⟩ := (suffix_take_iff hle).mp hhere
    refine ⟨i, by omega, hi, fun j hj h => ?_⟩
    exact hbefore (j + needle.length) (by omega) (by omega)
      ((suffix_take_iff (hend h)).mpr ⟨j, rfl, h⟩)

theorem containsLongLoop_found (hlong : 8 ≤ needle.length) {maxFullCompares : Nat}
    (offset fullCompares : Nat) (hcandidates : candidates = haystack.length - (needle.length - 1)) :
    Found offset needle haystack
      (containsLongLoop needle maxFullCompares haystack candidates offset fullCompares) := by
  have hne : needle ≠ [] := List.ne_nil_of_length_pos (by omega)
  have hrest {haystack : Bytes} {candidates skip : Nat}
      (hcandidates : candidates = haystack.length - (needle.length - 1)) :
      candidates - (skip + 1) = (haystack.drop (skip + 1)).length - (needle.length - 1) := by
    rw [List.length_drop]
    omega
  fun_induction containsLongLoop needle maxFullCompares haystack candidates offset fullCompares with
  | case1 haystack candidates offset fullCompares hskip =>
      exact none_of_memchr hne hcandidates.ge hskip
  | case2 haystack candidates offset fullCompares skip hskip location hword ih =>
      refine .next hne hskip (fun h => ?_) (ih (hrest hcandidates))
      exact hword ((prefix_iff_width hlong).mp h).1
  | case3 haystack candidates offset fullCompares skip hskip location hword hall =>
      exact .here hne hskip ((prefix_iff_width hlong).mpr ⟨not_not.mp hword, hall⟩)
  | case4 haystack candidates offset fullCompares skip hskip location hword hall hmany =>
      exact .drop (none_before hne hskip) (containsLinear_found hne _ _)
  | case5 haystack candidates offset fullCompares skip hskip location hword hall hfew ih =>
      refine .next hne hskip (fun h => ?_) (ih (hrest hcandidates))
      exact hall ((prefix_iff_width hlong).mp h).2

theorem containsLong_found (hlong : 8 ≤ needle.length) (haystack : Bytes) (baseOffset : Nat) :
    Found baseOffset needle haystack (containsLong haystack needle baseOffset) := by
  unfold containsLong
  split
  · rename_i htooLong
    intro j h
    have hle := prefix_length_le h
    omega
  · exact containsLongLoop_found hlong baseOffset 0 rfl

theorem findStrInStr_found (hne : needle ≠ []) (haystack : Bytes) :
    Found 0 needle haystack (findStrInStr haystack needle) := by
  have hpos := List.length_pos_of_ne_nil hne
  unfold findStrInStr
  cases hbase : memchr haystack (needle.headD 0) with
  | none =>
      have htake : memchr (haystack.take haystack.length) (needle.headD 0) = none := by
        simpa using hbase
      exact none_of_memchr hne (by omega) htake
  | some base =>
      have htake : memchr (haystack.take haystack.length) (needle.headD 0) = some base := by
        simpa using hbase
      refine .drop (none_before hne htake) ?_
      rw [Nat.zero_add]
      dsimp only
      split
      case h_1 hone =>
          refine ⟨0, rfl, ?_, fun j hj => absurd hj (Nat.not_lt_zero j)⟩
          obtain ⟨b, rfl⟩ := List.length_eq_one_iff.mp hone
          obtain ⟨rest, hrest⟩ : ∃ rest, haystack.drop base = b :: rest := by
            have hb := (memchr_take htake).2.2.1
            rw [← List.head?_drop] at hb
            exact ⟨_, List.eq_cons_of_mem_head? hb⟩
          rw [List.drop_zero, hrest]
          exact ⟨rest, rfl⟩
      case h_2 hlength | h_4 hlength | h_8 hlength =>
          exact contains_found (by omega) (by omega) (fun _ => hlength) base
      case h_3 hlength | h_5 hlength | h_6 hlength | h_7 hlength =>
          exact contains_found (by omega) (by omega) (fun hop => by cases hop) base
      case h_9 h1 h2 h3 h4 h5 h6 h7 h8 =>
          simp only [imp_false] at h1 h2 h3 h4 h5 h6 h7 h8
          exact containsLong_found (by omega) _ _

end StringSearch
end MiniDuck
