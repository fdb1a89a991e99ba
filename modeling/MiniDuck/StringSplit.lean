import MiniDuck.StringSearch
import MiniDuck.Utf8

/-!
# Splitting strings

The search of `FindStrInStr` with the places that it reads: a read behind
the end of the haystack has no result. Short and long needles go through one
loop over the candidates (`candidateLoop_found`), and `findStrInStr_found`
says that the search has a result, the first occurrence.

`split` cuts a string where a separator is found. Its pieces joined again
are the string (`split_separator`). An empty separator is found at once
and the cut moved to the next character (`split_characters`).
-/

namespace MiniDuck

namespace StringSplit

open StringSearch (Bytes ContainsOp Found containsLinear)

/-! ## Searching with checked reads -/

/-- `n` bytes from a place on. -/
def load (data : Bytes) (n place : Nat) : Option Bytes :=
  if place + n ≤ data.length then some ((data.drop place).take n) else none

/-- `memchr`, with the place that it finds. -/
def memchr (haystack : Bytes) (offset : Nat) (b : UInt8) (n : Nat) : Option (Option Nat) := do
  let bytes ← load haystack n offset
  some ((StringSearch.memchr bytes b).map (offset + ·))

/-- The loop over the candidates. An attempt at one goes on with a state or ends the search. -/
def candidateLoop {σ : Type} (attempt : σ → Nat → Option (σ ⊕ Option Nat))
    (haystack needle : Bytes) (candidates : Nat) : Nat → σ → Nat → Option (Option Nat)
  | 0, _, offset => if offset < candidates then none else some none
  | fuel + 1, s, offset =>
      if offset < candidates then do
        match ← memchr haystack offset (needle.headD 0) (candidates - offset) with
        | none => some none
        | some location =>
            match ← attempt s location with
            | .inl s => candidateLoop attempt haystack needle candidates fuel s (location + 1)
            | .inr result => some result
      else some none

def matchRemainder (width : Nat) (haystack needle : Bytes) (location : Nat) :
    ContainsOp → Option Bool
  | .aligned => some true
  | .unaligned => do
      let matched ← (List.range' width (needle.length - width)).foldlM (fun matched i => do
        let b ← haystack[location + i]?
        let c ← needle[i]?
        some (if b = c then matched + 1 else matched)) 0
      some (decide (matched = needle.length - width))

def contains (width : Nat) (op : ContainsOp) (haystack needle : Bytes) (baseOffset : Nat) :
    Option (Option Nat) :=
  if needle.length > haystack.length then some none
  else do
    let candidates := haystack.length - (needle.length - 1)
    let needleEntry ← load needle width 0
    candidateLoop (fun _ location => do
        let haystackEntry ← load haystack width location
        if needleEntry = haystackEntry then do
          let found ← matchRemainder width haystack needle location op
          some (if found then .inr (some (baseOffset + location)) else .inl ())
        else some (.inl ())) haystack needle candidates candidates () 0

def containsLong (haystack needle : Bytes) (baseOffset : Nat) : Option (Option Nat) :=
  if needle.length > haystack.length then some none
  else do
    let candidates := haystack.length - (needle.length - 1)
    let needleEntry ← load needle 8 0
    let maxFullCompares := 16 + haystack.length * 8 % 2 ^ 64 / needle.length
    candidateLoop (fun fullCompares location => do
        let haystackEntry ← load haystack 8 location
        if haystackEntry ≠ needleEntry then some (.inl fullCompares)
        else do
          let rest ← load haystack (needle.length - 8) (location + 8)
          let needleRest ← load needle (needle.length - 8) 8
          some (if rest = needleRest then .inr (some (baseOffset + location))
            else if fullCompares + 1 > maxFullCompares then
              .inr (containsLinear (haystack.drop location) needle (baseOffset + location))
            else .inl (fullCompares + 1))) haystack needle candidates candidates 0 0

/-- `FindStrInStr`, for a needle that is not empty. -/
def findStrInStr (haystack needle : Bytes) : Option (Option Nat) := do
  match ← memchr haystack 0 (needle.headD 0) haystack.length with
  | none => some none
  | some baseOffset =>
      let haystack := haystack.drop baseOffset
      match needle.length with
      | 1 => some (some baseOffset)
      | 2 => contains 2 .aligned haystack needle baseOffset
      | 3 => contains 2 .unaligned haystack needle baseOffset
      | 4 => contains 4 .aligned haystack needle baseOffset
      | 5 => contains 4 .unaligned haystack needle baseOffset
      | 6 => contains 4 .unaligned haystack needle baseOffset
      | 7 => contains 4 .unaligned haystack needle baseOffset
      | 8 => contains 8 .aligned haystack needle baseOffset
      | _ => containsLong haystack needle baseOffset

/-! ## Splitting -/

/-- `RegularStringSplit::Find`: the place and the size of the next match. -/
def find (delim input : Bytes) (start : Nat) : Option (Option Nat × Nat) :=
  if delim.length = 0 then some (some start, delim.length)
  else do
    let pos ← findStrInStr (input.drop start) delim
    some (pos.map (start + ·), delim.length)

def isCharacter (b : UInt8) : Bool := b &&& 0xC0 ≠ 0x80

/-- The next place behind `pos` at which a character begins. -/
def nextCharacter (input : Bytes) (pos : Nat) : Nat :=
  pos + 1 + ((input.drop (pos + 1)).takeWhile fun b => !isCharacter b).length

/-- The loop of `Split`, and the piece behind it. -/
def splitLoop (find : Nat → Option (Option Nat × Nat)) (input : Bytes) :
    Nat → Nat → Option (List Bytes)
  | 0, start => if start < input.length then none else some [input.drop start]
  | fuel + 1, start =>
      if start < input.length then do
        match ← find start with
        | (none, _) => some [input.drop start]
        | (some pos, matchSize) =>
            if pos > input.length then some [input.drop start]
            else
              let special := matchSize = 0 ∧ pos = start
              let pos := if special then nextCharacter input pos else pos
              if special ∧ pos = input.length then some [input.drop start]
              else do
                let pieces ← splitLoop find input fuel (pos + matchSize)
                some ((input.drop start).take (pos - start) :: pieces)
      else some [input.drop start]

/-- `StringSplitter::Split` with `RegularStringSplit`. -/
def split (input delim : Bytes) : Option (List Bytes) :=
  splitLoop (find delim input) input input.length 0

/-! ## The search -/

variable {haystack needle : Bytes}

theorem load_of_le {data : Bytes} {n place : Nat} (h : place + n ≤ data.length) :
    load data n place = some ((data.drop place).take n) := if_pos h

theorem memchr_of_le {b : UInt8} {n offset : Nat} (h : offset + n ≤ haystack.length) :
    memchr haystack offset b n =
      some ((StringSearch.memchr ((haystack.drop offset).take n) b).map (offset + ·)) := by
  rw [memchr, load_of_le h]
  rfl

def Attempted {σ : Type} (haystack needle : Bytes) (baseOffset location : Nat) :
    σ ⊕ Option Nat → Prop
  | .inl _ => ¬ needle <+: haystack.drop location
  | .inr result => Found (baseOffset + location) needle (haystack.drop location) result

/-- The loop finds the first occurrence if its attempts are right about the candidates. -/
theorem candidateLoop_found {σ : Type} {attempt : σ → Nat → Option (σ ⊕ Option Nat)}
    {candidates baseOffset : Nat} (hne : needle ≠ []) (hle : needle.length ≤ haystack.length)
    (hcandidates : candidates = haystack.length - (needle.length - 1))
    (hattempt : ∀ s location, location + needle.length ≤ haystack.length →
      ∃ r, attempt s location = some r ∧ Attempted haystack needle baseOffset location r) :
    ∀ fuel s offset, candidates ≤ offset + fuel →
      ∃ result, candidateLoop attempt haystack needle candidates fuel s offset = some result ∧
        Found (baseOffset + offset) needle (haystack.drop offset) result := by
  have hpos := List.length_pos_of_ne_nil hne
  have hend : ∀ offset, candidates ≤ offset →
      Found (baseOffset + offset) needle (haystack.drop offset) none := by
    intro offset hoffset j h
    have hlen := StringSearch.prefix_length_le h
    rw [List.length_drop] at hlen
    omega
  intro fuel
  induction fuel with
  | zero =>
      intro s offset hfuel
      rw [candidateLoop, if_neg (by omega)]
      exact ⟨none, rfl, hend offset (by omega)⟩
  | succ fuel ih =>
      intro s offset hfuel
      rw [candidateLoop]
      by_cases hlt : offset < candidates
      · rw [if_pos hlt, memchr_of_le (by omega)]
        cases hskip : StringSearch.memchr ((haystack.drop offset).take (candidates - offset))
            (needle.headD 0) with
        | none =>
            refine ⟨none, rfl, StringSearch.none_of_memchr hne ?_ hskip⟩
            rw [List.length_drop]
            omega
        | some skip =>
            have hroom := (StringSearch.memchr_take hskip).1
            obtain ⟨r, hr, hright⟩ := hattempt s (offset + skip) (by omega)
            simp only [Option.map_some, Option.bind_eq_bind, Option.bind_some, hr]
            cases r with
            | inl s' =>
                obtain ⟨result, hrun, hfound⟩ := ih s' (offset + skip + 1) (by omega)
                refine ⟨result, hrun, .next hne hskip ?_ ?_⟩
                · rw [List.drop_drop]
                  exact hright
                · rw [List.drop_drop]
                  simpa only [Nat.add_assoc] using hfound
            | inr result =>
                refine ⟨result, rfl, .drop (StringSearch.none_before hne hskip) ?_⟩
                rw [List.drop_drop, Nat.add_assoc]
                exact hright
      · rw [if_neg hlt]
        exact ⟨none, rfl, hend offset (by omega)⟩

theorem found_here {location baseOffset : Nat} (h : needle <+: haystack.drop location) :
    Found (baseOffset + location) needle (haystack.drop location)
      (some (baseOffset + location)) :=
  ⟨0, rfl, h, fun j hj => absurd hj (Nat.not_lt_zero j)⟩

theorem matchRemainder_eq {width location : Nat}
    (h : location + needle.length ≤ haystack.length) (op : ContainsOp) :
    matchRemainder width haystack needle location op =
      some (op.matchRemainder width needle (haystack.drop location)) := by
  cases op with
  | aligned => rfl
  | unaligned =>
      have hcount : ∀ (l : List Nat) (matched : Nat), (∀ i ∈ l, i < needle.length) →
          l.foldlM (fun matched i => do
            let b ← haystack[location + i]?
            let c ← needle[i]?
            some (if b = c then matched + 1 else matched)) matched =
          some (matched + l.countP fun i => (haystack.drop location)[i]? = needle[i]?) := by
        intro l
        induction l with
        | nil => exact fun _ _ => rfl
        | cons i l ih =>
            intro matched hl
            have hi := hl i List.mem_cons_self
            have hplace : location + i < haystack.length := by omega
            rw [List.foldlM_cons, List.countP_cons, List.getElem?_drop,
              List.getElem?_eq_getElem hplace, List.getElem?_eq_getElem hi]
            simp only [Option.bind_eq_bind, Option.bind_some, Option.some_inj]
            rw [← Option.bind_eq_bind, ih _ fun j hj => hl j (List.mem_cons_of_mem _ hj)]
            by_cases heq : haystack[location + i] = needle[i]
            · simp only [heq, if_true, decide_true]
              rw [Nat.add_right_comm, Nat.add_assoc]
            · simp only [heq, if_false, decide_false, Bool.false_eq_true, Nat.add_zero]
      rw [matchRemainder, hcount _ 0 fun i hi => by
        have := List.mem_range'_1.mp hi
        omega]
      simp [ContainsOp.matchRemainder]

theorem contains_found {width : Nat} {op : ContainsOp} (hpos : 0 < width)
    (hwidth : width ≤ needle.length) (hop : op = .aligned → needle.length = width)
    (baseOffset : Nat) :
    ∃ result, contains width op haystack needle baseOffset = some result ∧
      Found baseOffset needle haystack result := by
  have hne : needle ≠ [] := List.ne_nil_of_length_pos (by omega)
  rw [contains]
  split
  · refine ⟨none, rfl, fun j h => ?_⟩
    have hlen := StringSearch.prefix_length_le h
    omega
  · rw [load_of_le (by omega)]
    refine candidateLoop_found hne (by omega) rfl (fun s location hroom => ?_) _ () 0
      (Nat.zero_add _).ge
    have hrest : op.matchRemainder width needle (haystack.drop location) = true ↔
        ((haystack.drop location).drop width).take (needle.length - width) =
          needle.drop width := by
      cases op with
      | aligned =>
          rw [hop rfl, Nat.sub_self, List.take_zero, ← hop rfl, List.drop_length]
          exact iff_of_true rfl rfl
      | unaligned => exact StringSearch.matchRemainder_unaligned
    have hiff : needle <+: haystack.drop location ↔ _ := StringSearch.prefix_iff_width hwidth
    rw [← hrest] at hiff
    simp only [load_of_le (by omega : location + width ≤ haystack.length), List.drop_zero,
      Option.bind_eq_bind, Option.bind_some, matchRemainder_eq hroom]
    by_cases hword : needle.take width = (haystack.drop location).take width
    · rw [if_pos hword]
      refine ⟨_, rfl, ?_⟩
      split
      · rename_i hmatch
        exact found_here (hiff.mpr ⟨hword.symm, hmatch⟩)
      · rename_i hmatch
        exact fun h => hmatch (hiff.mp h).2
    · rw [if_neg hword]
      exact ⟨_, rfl, fun h => hword (hiff.mp h).1.symm⟩

theorem containsLong_found (hlong : 8 ≤ needle.length) (baseOffset : Nat) :
    ∃ result, containsLong haystack needle baseOffset = some result ∧
      Found baseOffset needle haystack result := by
  have hne : needle ≠ [] := List.ne_nil_of_length_pos (by omega)
  rw [containsLong]
  split
  · refine ⟨none, rfl, fun j h => ?_⟩
    have hlen := StringSearch.prefix_length_le h
    omega
  · rw [load_of_le (by omega)]
    refine candidateLoop_found hne (by omega) rfl (fun fullCompares location hroom => ?_) _ 0 0
      (Nat.zero_add _).ge
    have hiff : needle <+: haystack.drop location ↔ _ := StringSearch.prefix_iff_width hlong
    have hall : (needle.drop 8).take (needle.length - 8) = needle.drop 8 :=
      List.take_of_length_le List.length_drop.le
    simp only [load_of_le (by omega : location + 8 ≤ haystack.length),
      load_of_le (by omega : location + 8 + (needle.length - 8) ≤ haystack.length),
      load_of_le (by omega : 8 + (needle.length - 8) ≤ needle.length), List.drop_zero, hall,
      Option.bind_eq_bind, Option.bind_some]
    rw [List.drop_drop] at hiff
    by_cases hword : (haystack.drop location).take 8 = needle.take 8
    · rw [if_neg (not_not.mpr hword)]
      refine ⟨_, rfl, ?_⟩
      split
      · rename_i hrest
        exact found_here (hiff.mpr ⟨hword, hrest⟩)
      · rename_i hrest
        split
        · exact StringSearch.containsLinear_found hne _ _
        · exact fun h => hrest (hiff.mp h).2
    · rw [if_pos hword]
      exact ⟨_, rfl, fun h => hword (hiff.mp h).1⟩

/-- The search reads the haystack only, and finds the first occurrence. -/
theorem findStrInStr_found (hne : needle ≠ []) (haystack : Bytes) :
    ∃ result, findStrInStr haystack needle = some result ∧ Found 0 needle haystack result := by
  have hpos := List.length_pos_of_ne_nil hne
  rw [findStrInStr, memchr_of_le (Nat.zero_add _).le, List.drop_zero]
  cases hbase : StringSearch.memchr (haystack.take haystack.length) (needle.headD 0) with
  | none => exact ⟨none, rfl, StringSearch.none_of_memchr hne (by omega) hbase⟩
  | some base =>
      have hdrop : ∀ {run : Option (Option Nat)}, (∃ result, run = some result ∧
          Found base needle (haystack.drop base) result) →
            ∃ result, run = some result ∧ Found 0 needle haystack result := by
        rintro run ⟨result, hrun, hfound⟩
        refine ⟨result, hrun, .drop (StringSearch.none_before hne hbase) ?_⟩
        rwa [Nat.zero_add]
      simp only [Option.map_some, Option.bind_eq_bind, Option.bind_some, Nat.zero_add]
      split
      case h_1 hone =>
          refine hdrop ⟨_, rfl, 0, rfl, ?_, fun j hj => absurd hj (Nat.not_lt_zero j)⟩
          obtain ⟨b, rfl⟩ := List.length_eq_one_iff.mp hone
          have hb := (StringSearch.memchr_take hbase).2.2.1
          rw [← List.head?_drop] at hb
          rw [List.drop_zero, List.eq_cons_of_mem_head? hb]
          exact ⟨_, rfl⟩
      case h_2 hlength | h_4 hlength | h_8 hlength =>
          exact hdrop (contains_found (by omega) (by omega) (fun _ => hlength) base)
      case h_3 hlength | h_5 hlength | h_6 hlength | h_7 hlength =>
          exact hdrop (contains_found (by omega) (by omega) (fun hop => by cases hop) base)
      case h_9 h1 h2 h3 h4 h5 h6 h7 h8 =>
          simp only [imp_false] at h1 h2 h3 h4 h5 h6 h7 h8
          exact hdrop (containsLong_found (by omega) base)

/-! ## The pieces -/

variable {input : Bytes} {s : List Char}

variable {delim : Bytes}

theorem intercalate_cons {piece : Bytes} {pieces : List Bytes} (h : pieces ≠ []) :
    delim.intercalate (piece :: pieces) = piece ++ delim ++ delim.intercalate pieces := by
  rw [List.intercalate_cons_of_ne_nil h, List.append_assoc]

theorem not_infix_take {rest : Bytes} {i : Nat} (hne : delim ≠ [])
    (h : ∀ j < i, ¬ delim <+: rest.drop j) : ¬ delim <:+: rest.take i := by
  rintro ⟨x, y, hxy⟩
  have hpos := List.length_pos_of_ne_nil hne
  have hlen := congrArg List.length hxy
  rw [List.length_append, List.length_append, List.length_take] at hlen
  refine h x.length (by omega) ?_
  have hrest : rest = x ++ (delim ++ (y ++ rest.drop i)) := by
    rw [← List.append_assoc, ← List.append_assoc, hxy, List.take_append_drop]
  rw [hrest, List.drop_left]
  exact List.prefix_append _ _

theorem not_infix {rest : Bytes} (hne : delim ≠ []) (h : ∀ j, ¬ delim <+: rest.drop j) :
    ¬ delim <:+: rest := by
  rw [← List.take_length (l := rest)]
  exact not_infix_take hne fun j _ => h j

theorem splitLoop_separator (hne : delim ≠ []) :
    ∀ fuel start, start ≤ input.length → input.length ≤ start + fuel →
      ∃ pieces, splitLoop (find delim input) input fuel start = some pieces ∧ pieces ≠ [] ∧
        delim.intercalate pieces = input.drop start ∧ ∀ piece ∈ pieces, ¬ delim <:+: piece := by
  have hpos := List.length_pos_of_ne_nil hne
  -- the piece behind the last separator
  have hlast : ∀ start, (∀ j, ¬ delim <+: (input.drop start).drop j) →
      ∃ pieces, some [input.drop start] = some pieces ∧ pieces ≠ [] ∧
        delim.intercalate pieces = input.drop start ∧ ∀ piece ∈ pieces, ¬ delim <:+: piece := by
    intro start hnone
    refine ⟨_, rfl, List.cons_ne_nil _ _, List.intercalate_singleton, ?_⟩
    intro piece hpiece
    rw [List.mem_singleton.mp hpiece]
    exact not_infix hne hnone
  have hend : ∀ start, input.length ≤ start → ∀ j, ¬ delim <+: (input.drop start).drop j := by
    intro start hstart j h
    have hlen := StringSearch.prefix_length_le h
    rw [List.length_drop] at hlen
    omega
  intro fuel
  induction fuel with
  | zero =>
      intro start hstart hfuel
      rw [splitLoop, if_neg (by omega)]
      exact hlast start (hend start (by omega))
  | succ fuel ih =>
      intro start hstart hfuel
      rw [splitLoop]
      by_cases hlt : start < input.length
      · obtain ⟨result, hrun, hfound⟩ := findStrInStr_found hne (input.drop start)
        rw [if_pos hlt, find, if_neg (by omega), hrun]
        cases result with
        | none => exact hlast start hfound
        | some n =>
            obtain ⟨i, rfl, hi, hfirst⟩ := hfound
            have hlen := StringSearch.prefix_length_le hi
            rw [List.length_drop] at hlen
            have hzero : ¬ delim.length = 0 := by omega
            simp only [Option.bind_eq_bind, Option.bind_some, Option.map_some, Nat.zero_add, hzero,
              false_and, if_false]
            rw [if_neg (by omega)]
            obtain ⟨pieces, hpieces, hcons, hjoin, hclean⟩ :=
              ih (start + i + delim.length) (by omega) (by omega)
            rw [hpieces, Option.bind_some]
            refine ⟨_, rfl, List.cons_ne_nil _ _, ?_, ?_⟩
            · obtain ⟨rest, hrest⟩ := hi
              have htail : (input.drop start).drop (i + delim.length) = rest := by
                rw [← List.drop_drop, ← hrest, List.drop_left]
              rw [intercalate_cons hcons, hjoin, Nat.add_assoc, ← List.drop_drop, htail,
                Nat.add_sub_cancel_left, List.append_assoc, hrest, List.take_append_drop]
            · intro piece hpiece
              rcases List.mem_cons.mp hpiece with rfl | hmem
              · rw [Nat.add_sub_cancel_left]
                exact not_infix_take hne hfirst
              · exact hclean piece hmem
      · rw [if_neg hlt]
        exact hlast start (hend start (by omega))

theorem isCharacter_iff : ∀ b : UInt8, isCharacter b = true ↔ ¬ Utf8.IsContinuation b := by
  have hall : ∀ n : Fin 256, isCharacter (UInt8.ofFin n) = true ↔
      ¬ (128 ≤ n.val ∧ n.val < 192) := by
    decide +kernel
  exact fun b => hall b.toFin

/-- From the start of a character to the next one. -/
theorem nextCharacter_eq {c : Char} {start : Nat}
    (h : input.drop start = Utf8.encode (c :: s)) :
    nextCharacter input start = start + (String.utf8EncodeChar c).length := by
  obtain ⟨lead, cont, hc, -, hcont⟩ := Utf8.encodeChar_cons c
  have hdrop : input.drop (start + 1) = cont ++ Utf8.encode s := by
    rw [← List.drop_drop, h, Utf8.encode_cons, hc]
    rfl
  have hskip : (cont ++ Utf8.encode s).takeWhile (fun b => !isCharacter b) = cont := by
    rw [List.takeWhile_append_of_pos]
    · cases s with
      | nil => rw [Utf8.encode_nil, List.takeWhile_nil, List.append_nil]
      | cons d s =>
          obtain ⟨lead', cont', hd, hlead', -⟩ := Utf8.encodeChar_cons d
          rw [Utf8.encode_cons, hd, List.cons_append, List.takeWhile_cons_of_neg, List.append_nil]
          rw [(isCharacter_iff lead').mpr hlead']
          exact Bool.false_ne_true
    · intro b hb
      have hnot : isCharacter b ≠ true := fun hchar => (isCharacter_iff b).mp hchar (hcont b hb)
      simpa using hnot
  rw [nextCharacter, hdrop, hskip, hc, List.length_cons]
  omega

theorem length_encodeChar_pos (c : Char) : 0 < (String.utf8EncodeChar c).length := by
  obtain ⟨lead, cont, hc, -⟩ := Utf8.encodeChar_cons c
  rw [hc]
  exact Nat.succ_pos _

theorem splitLoop_characters : ∀ {s : List Char} (fuel start : Nat), s ≠ [] →
    input.drop start = Utf8.encode s → input.length ≤ start + fuel →
      splitLoop (find [] input) input fuel start = some (s.map String.utf8EncodeChar)
  | [], _, _, hne, _, _ => absurd rfl hne
  | c :: s, fuel, start, _, hdrop, hfuel => by
      have hpos := length_encodeChar_pos c
      have hnext := nextCharacter_eq hdrop
      have hlen := congrArg List.length hdrop
      rw [List.length_drop, Utf8.encode_cons, List.length_append] at hlen
      cases fuel with
      | zero => omega
      | succ fuel =>
          rw [splitLoop, if_pos (by omega)]
          simp only [find, List.length_nil, if_true, Option.bind_eq_bind, Option.bind_some,
            true_and, hnext, Nat.add_zero, Nat.add_sub_cancel_left]
          rw [if_neg (by omega)]
          cases s with
          | nil =>
              rw [Utf8.encode_nil, List.length_nil] at hlen
              rw [if_pos (by omega), hdrop, Utf8.encode_cons, Utf8.encode_nil, List.append_nil]
              rfl
          | cons d s =>
              have hpos' := length_encodeChar_pos d
              rw [Utf8.encode_cons, List.length_append] at hlen
              have hrest : input.drop (start + (String.utf8EncodeChar c).length) =
                  Utf8.encode (d :: s) := by
                rw [← List.drop_drop, hdrop, Utf8.encode_cons, List.drop_left]
              rw [if_neg (by omega), splitLoop_characters fuel _ (List.cons_ne_nil d s) hrest
                (by omega), Option.bind_some, hdrop, Utf8.encode_cons, List.take_left]
              rfl

/-- The first occurrence is found without a read outside of the haystack, the pieces between
separators are those of the string, and without a separator they are its characters. -/
theorem search_and_split (haystack needle : Bytes) (hneedle : needle ≠ []) (s : List Char)
    (hs : s ≠ []) :
    (∃ result, findStrInStr haystack needle = some result ∧ Found 0 needle haystack result) ∧
      (∃ pieces, split haystack needle = some pieces ∧ needle.intercalate pieces = haystack ∧
        ∀ piece ∈ pieces, ¬ needle <:+: piece) ∧
      split (Utf8.encode s) [] = some (s.map String.utf8EncodeChar) := by
  refine ⟨findStrInStr_found hneedle haystack, ?_, ?_⟩
  · obtain ⟨pieces, hrun, -, hjoin, hclean⟩ :=
      splitLoop_separator hneedle haystack.length 0 (Nat.zero_le _) (Nat.zero_add _).ge
    exact ⟨pieces, hrun, hjoin, hclean⟩
  · exact splitLoop_characters _ 0 hs rfl (Nat.zero_add _).ge

/-- `b` in `abcb`, and the characters of `aé`. -/
theorem search_and_split_abcb :
    (∃ result, findStrInStr [97, 98, 99, 98] [98] = some result ∧
        Found 0 [98] [97, 98, 99, 98] result) ∧
      (∃ pieces, split [97, 98, 99, 98] [98] = some pieces ∧
        [98].intercalate pieces = [97, 98, 99, 98] ∧ ∀ piece ∈ pieces, ¬ [98] <:+: piece) ∧
      split (Utf8.encode ['a', 'é']) [] = some (['a', 'é'].map String.utf8EncodeChar) :=
  search_and_split [97, 98, 99, 98] [98] (List.cons_ne_nil 98 []) ['a', 'é']
    (List.cons_ne_nil 'a' ['é'])

end StringSplit

end MiniDuck
