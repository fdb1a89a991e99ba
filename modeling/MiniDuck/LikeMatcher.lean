import MiniDuck.Like
import MiniDuck.StringSearch

/-!
# Matching segments

A pattern without underscores and escape characters is a sequence of
segments with percent signs between them. `LikeMatcher` compares the first
and the last segment where they must stand and takes every other one as
early as it can, which leaves the most for the ones after it
(`matchRest_iff`). The segments that `CreateLikeMatcher` collects are the
pieces between the percent signs that are not empty (`createLoop_eq`), so
that the matcher agrees with the tokens of the pattern
(`createLikeMatcher_matches`).
-/

namespace MiniDuck
namespace Like

open Wildcard Utf8 StringSearch

structure LikeMatcher where
  likePattern : Bytes
  segments : List Bytes
  hasStartPercentage : Bool
  hasEndPercentage : Bool
  segments_ne_nil : segments ≠ []
  segment_ne_nil : ∀ segment ∈ segments, segment ≠ []

/-! ## The matcher -/

def matchMiddle : List Bytes → Bytes → Option Bytes
  | [], str => some str
  | segment :: segments, str =>
      match findStrInStr str segment with
      | none => none
      | some nextOffset => matchMiddle segments (str.drop (nextOffset + segment.length))

def matchRest (hasEndPercentage : Bool) (segments : List Bytes) (str : Bytes) : Bool :=
  match matchMiddle segments.dropLast str with
  | none => false
  | some str =>
      let segment := segments.getLastD []
      if !hasEndPercentage then
        if str.length < segment.length then false
        else (str.drop (str.length - segment.length)).take segment.length = segment
      else (findStrInStr str segment).isSome

/-- `Match`. -/
def LikeMatcher.matchBytes (m : LikeMatcher) (str : Bytes) : Bool :=
  if !m.hasStartPercentage then
    let segment := m.segments.headD []
    if str.length < segment.length then false
    else if str.take segment.length ≠ segment then false
    else
      let str := str.drop segment.length
      if m.segments.length = 1 then m.hasEndPercentage || str.length = 0
      else matchRest m.hasEndPercentage (m.segments.drop 1) str
  else matchRest m.hasEndPercentage m.segments str

def push (segments : List Bytes) (current : Bytes) : List Bytes :=
  if current = [] then segments else segments ++ [current]

/-- The loop over the pattern; `current` is what was read since the last special character. -/
def createLoop (escape : UInt8) (first : Bool) (segments : List Bytes) (current : Bytes)
    (hasStartPercentage hasEndPercentage : Bool) : Bytes → Option (List Bytes × Bool × Bool)
  | [] => some (push segments current, hasStartPercentage, hasEndPercentage)
  | ch :: rest =>
      if ch = escape ∨ ch = percentage ∨ ch = underscore then
        if ch = escape ∨ ch = underscore then none
        else
          createLoop escape false (push segments current) [] (hasStartPercentage || first)
            (hasEndPercentage || rest.isEmpty) rest
      else
        createLoop escape false segments (current ++ [ch]) hasStartPercentage hasEndPercentage rest

variable {segments : List Bytes}

theorem push_ne_nil {current : Bytes} (h : ∀ segment ∈ segments, segment ≠ []) :
    ∀ segment ∈ push segments current, segment ≠ [] := by
  unfold push
  split
  · exact h
  · rename_i hne
    intro segment hmem
    rcases List.mem_append.mp hmem with hmem | hmem
    · exact h segment hmem
    · rwa [List.mem_singleton.mp hmem]

variable {escape : UInt8} {hasEnd : Bool}

theorem createLoop_ne_nil {first : Bool} {current : Bytes} {hasStart : Bool} {rest : Bytes}
    {result : List Bytes × Bool × Bool} (hsegments : ∀ segment ∈ segments, segment ≠ [])
    (h : createLoop escape first segments current hasStart hasEnd rest = some result) :
    ∀ segment ∈ result.1, segment ≠ [] := by
  fun_induction createLoop escape first segments current hasStart hasEnd rest with
  | case1 =>
      cases h
      exact push_ne_nil hsegments
  | case2 => cases h
  | case3 first segments current hasStart hasEnd ch rest hspecial hch ih =>
      exact ih (push_ne_nil hsegments) h
  | case4 first segments current hasStart hasEnd ch rest hspecial ih => exact ih hsegments h

/-- `CreateLikeMatcher`. No matcher is made for underscores, escape characters and patterns of
nothing but percent signs. -/
def createLikeMatcher (likePattern : Bytes) (escape : UInt8) : Option LikeMatcher :=
  match hloop : createLoop escape true [] [] false false likePattern with
  | none => none
  | some (segments, hasStartPercentage, hasEndPercentage) =>
      if hne : segments = [] then none
      else some ⟨likePattern, segments, hasStartPercentage, hasEndPercentage, hne,
        createLoop_ne_nil (List.forall_mem_nil _) hloop⟩

/-! ## The segments of a pattern -/

/-- What stands before the first percent sign, and what stands after each of them. -/
def pieces : Bytes → Bytes × List Bytes
  | [] => ([], [])
  | ch :: rest =>
      let (piece, more) := pieces rest
      if ch = percentage then ([], piece :: more) else (ch :: piece, more)

def endsEmpty : List Bytes → Bool
  | [] => false
  | [piece] => piece.isEmpty
  | _ :: piece :: more => endsEmpty (piece :: more)

def starTokens (segments : List Bytes) (hasEndPercentage : Bool) : List ByteToken :=
  segments.flatMap (fun segment => .star :: segment.map .byte) ++
    if hasEndPercentage then [.star] else []

theorem pieces_eq_nil (rest : Bytes) :
    (pieces rest).1 = [] ∧ (pieces rest).2 = [] ↔ rest = [] := by
  cases rest with
  | nil => exact iff_of_true ⟨rfl, rfl⟩ rfl
  | cons ch rest =>
      rw [pieces]
      split_ifs <;> simp

theorem push_eq (segments : List Bytes) (current : Bytes) :
    push segments current = segments ++ [current].filter (· ≠ []) := by
  unfold push
  split
  · rename_i h
    simp [h]
  · rename_i h
    simp [h]

theorem createLoop_eq {first : Bool} {current : Bytes} {hasStart : Bool} {rest : Bytes}
    {result : List Bytes × Bool × Bool}
    (h : createLoop escape first segments current hasStart hasEnd rest = some result) :
    underscore ∉ rest ∧
      result = (segments ++ ((current ++ (pieces rest).1) :: (pieces rest).2).filter (· ≠ []),
        hasStart || (first && (pieces rest).1.isEmpty && !(pieces rest).2.isEmpty),
        hasEnd || endsEmpty (pieces rest).2) := by
  fun_induction createLoop escape first segments current hasStart hasEnd rest with
  | case1 first segments current hasStart hasEnd =>
      cases h
      refine ⟨List.not_mem_nil, ?_⟩
      rw [push_eq]
      simp [pieces, endsEmpty]
  | case2 => cases h
  | case3 first segments current hasStart hasEnd ch rest hspecial hch ih =>
      obtain ⟨hnot, rfl⟩ := ih h
      obtain rfl : ch = percentage :=
        hspecial.elim (fun heq => absurd (.inl heq) hch) fun hor =>
          hor.elim id fun heq => absurd (.inr heq) hch
      refine ⟨?_, ?_⟩
      · rw [List.mem_cons, not_or]
        exact ⟨by decide, hnot⟩
      · have hpieces : pieces (percentage :: rest) = ([], (pieces rest).1 :: (pieces rest).2) := rfl
        have hend : (rest.isEmpty || endsEmpty (pieces rest).2) =
            endsEmpty ((pieces rest).1 :: (pieces rest).2) := by
          cases hmore : (pieces rest).2 with
          | nil =>
              have hiff : (pieces rest).1 = [] ↔ rest = [] := by
                simpa [hmore] using pieces_eq_nil rest
              rw [endsEmpty, endsEmpty, Bool.or_false, Bool.eq_iff_iff, List.isEmpty_iff,
                List.isEmpty_iff, hiff]
          | cons piece more =>
              have hne : rest ≠ [] := by
                rintro rfl
                cases hmore
              rw [endsEmpty, List.isEmpty_eq_false_iff.mpr hne, Bool.false_or]
        rw [hpieces, push_eq, ← hend]
        rcases eq_or_ne current [] with rfl | hcurrent
        · simp [Bool.or_assoc]
        · simp [hcurrent, Bool.or_assoc]
  | case4 first segments current hasStart hasEnd ch rest hspecial ih =>
      obtain ⟨hnot, rfl⟩ := ih h
      push Not at hspecial
      have hpieces : pieces (ch :: rest) = (ch :: (pieces rest).1, (pieces rest).2) :=
        if_neg hspecial.2.1
      refine ⟨?_, ?_⟩
      · rw [List.mem_cons, not_or]
        exact ⟨fun heq => hspecial.2.2 heq.symm, hnot⟩
      · rw [hpieces]
        simp

/-- A pattern is its pieces with percent signs between them. -/
theorem byteTokens_pieces {pattern : Bytes} (h : underscore ∉ pattern) :
    byteTokens standardCharacterReader none pattern =
      some ((pieces pattern).1.map .byte ++
        (pieces pattern).2.flatMap fun piece => .star :: piece.map .byte) := by
  induction pattern with
  | nil => rfl
  | cons ch rest ih =>
      rw [List.mem_cons, not_or] at h
      rw [byteTokens_plain (Option.some_ne_none _).symm, ih h.2]
      show some (byteToken ch :: _) = _
      rw [byteToken, if_neg (Ne.symm h.1), pieces]
      split
      · rfl
      · rfl

/-! ## The division of a string among segments -/

def token : ByteToken → Token UInt8 := ByteToken.token standardCharacterReader

variable {segment : Bytes} {tokens : List ByteToken}

theorem matches_segment {str : Bytes} :
    Matches ((segment.map ByteToken.byte ++ tokens).map token) str ↔
      segment <+: str ∧ Matches (tokens.map token) (str.drop segment.length) := by
  refine matches_bytes.trans ?_
  constructor
  · rintro ⟨part, rest, rfl, hpart, hmatch⟩
    obtain rfl : part = segment := (List.map_id' part).symm.trans hpart
    rw [List.drop_left]
    exact ⟨List.prefix_append _ _, hmatch⟩
  · rintro ⟨⟨rest, rfl⟩, hmatch⟩
    rw [List.drop_left] at hmatch
    exact ⟨segment, rest, rfl, List.map_id' _, hmatch⟩

theorem matches_star_segment {str : Bytes} :
    Matches ((.star :: segment.map ByteToken.byte ++ tokens).map token) str ↔
      ∃ j, segment <+: str.drop j ∧ Matches (tokens.map token) (str.drop (j + segment.length)) := by
  constructor
  · rintro ⟨rest, hrest, hmatch⟩
    rw [List.suffix_iff_eq_drop] at hrest
    obtain ⟨hfront, hmatch⟩ := matches_segment.mp hmatch
    rw [hrest] at hfront hmatch
    rw [List.drop_drop] at hmatch
    exact ⟨_, hfront, hmatch⟩
  · rintro ⟨j, hfront, hmatch⟩
    rw [← List.drop_drop] at hmatch
    exact ⟨str.drop j, List.drop_suffix _ _, matches_segment.mpr ⟨hfront, hmatch⟩⟩

theorem starTokens_cons (segment : Bytes) (segments : List Bytes) (hasEnd : Bool) :
    starTokens (segment :: segments) hasEnd =
      .star :: segment.map ByteToken.byte ++ starTokens segments hasEnd := by
  simp [starTokens]

/-- Unless it is the end of the string, what follows begins with a percent sign. -/
theorem starTokens_star (h : segments ≠ [] ∨ hasEnd = true) :
    ∃ tokens, starTokens segments hasEnd = .star :: tokens := by
  cases segments with
  | nil =>
      obtain rfl := h.resolve_left (not_not.mpr rfl)
      exact ⟨[], rfl⟩
  | cons segment segments =>
      rw [starTokens_cons]
      exact ⟨_, rfl⟩

theorem matches_findStrInStr {segment : Bytes} (hne : segment ≠ []) {segments : List Bytes}
    {hasEnd : Bool} (h : segments ≠ [] ∨ hasEnd = true) (str : Bytes) :
    Matches ((starTokens (segment :: segments) hasEnd).map token) str ↔
      ∃ i, findStrInStr str segment = some i ∧
        Matches ((starTokens segments hasEnd).map token) (str.drop (i + segment.length)) := by
  have hfound := findStrInStr_found hne str
  rw [starTokens_cons, matches_star_segment]
  constructor
  · rintro ⟨j, hfront, hmatch⟩
    cases hfind : findStrInStr str segment with
    | none =>
        rw [hfind] at hfound
        exact absurd hfront (hfound j)
    | some n =>
        rw [hfind] at hfound
        obtain ⟨i, hi, -, hfirst⟩ := hfound
        obtain rfl : n = i := hi.trans (Nat.zero_add i)
        have hle : n ≤ j := Nat.le_of_not_lt fun hlt => hfirst j hlt hfront
        refine ⟨n, rfl, ?_⟩
        obtain ⟨tokens, hstar⟩ := starTokens_star h
        rw [hstar] at hmatch ⊢
        refine matches_star ?_ hmatch
        rw [show j + segment.length = (n + segment.length) + (j - n) by omega, ← List.drop_drop]
        exact List.drop_suffix _ _
  · rintro ⟨i, hfind, hmatch⟩
    rw [hfind] at hfound
    obtain ⟨i', hi, hfront, -⟩ := hfound
    obtain rfl : i = i' := hi.trans (Nat.zero_add i')
    exact ⟨i, hfront, hmatch⟩

theorem matches_last {str : Bytes} :
    Matches ((starTokens [segment] false).map token) str ↔ segment <:+ str := by
  rw [starTokens_cons, matches_star_segment]
  constructor
  · rintro ⟨j, ⟨rest, hrest⟩, hnil⟩
    rw [← List.drop_drop, ← hrest, List.drop_left] at hnil
    obtain rfl : rest = [] := hnil
    rw [List.append_nil] at hrest
    exact hrest ▸ List.drop_suffix _ _
  · intro hsuffix
    have heq := List.suffix_iff_eq_drop.mp hsuffix
    refine ⟨str.length - segment.length, ?_, ?_⟩
    · rw [← heq]
    · rw [← List.drop_drop, ← heq]
      exact List.drop_length

theorem suffix_iff_compare {str : Bytes} : segment <:+ str ↔ ¬ str.length < segment.length ∧
      (str.drop (str.length - segment.length)).take segment.length = segment := by
  have htake (h : segment.length ≤ str.length) :
      (str.drop (str.length - segment.length)).take segment.length =
        str.drop (str.length - segment.length) := by
    refine List.take_of_length_le ?_
    rw [List.length_drop]
    omega
  constructor
  · intro h
    have hle := h.length_le
    exact ⟨Nat.not_lt.mpr hle, (htake hle).trans (List.suffix_iff_eq_drop.mp h).symm⟩
  · rintro ⟨hle, heq⟩
    rw [htake (Nat.not_lt.mp hle)] at heq
    exact heq ▸ List.drop_suffix _ _

/-- The segments are found if the string can be divided among them. -/
theorem matchRest_iff (hne : segments ≠ []) (hsegments : ∀ segment ∈ segments, segment ≠ [])
    (hasEnd : Bool) (str : Bytes) : matchRest hasEnd segments str = true ↔
      Matches ((starTokens segments hasEnd).map token) str := by
  induction segments generalizing str with
  | nil => exact absurd rfl hne
  | cons segment segments ih =>
      obtain ⟨hsegment, hsegments⟩ := List.forall_mem_cons.mp hsegments
      cases segments with
      | nil =>
          cases hasEnd with
          | false =>
              rw [matches_last, suffix_iff_compare]
              simp [matchRest, matchMiddle]
          | true =>
              rw [matches_findStrInStr hsegment (.inr rfl)]
              have hall (rest : Bytes) : Matches ((starTokens [] true).map token) rest :=
                ⟨[], List.nil_suffix, rfl⟩
              simp [matchRest, matchMiddle, hall, Option.isSome_iff_exists]
      | cons next segments =>
          rw [matches_findStrInStr hsegment (.inl (List.cons_ne_nil _ _))]
          have hrec := ih (List.cons_ne_nil _ _) hsegments
          cases hfind : findStrInStr str segment with
          | none => simp [matchRest, matchMiddle, hfind]
          | some i =>
              have hstep : matchRest hasEnd (segment :: next :: segments) str =
                  matchRest hasEnd (next :: segments) (str.drop (i + segment.length)) := by
                simp [matchRest, matchMiddle, hfind]
              rw [hstep, hrec]
              simp

theorem matches_pieces (more : List Bytes) (str : Bytes) :
    Matches ((more.flatMap fun piece => .star :: piece.map ByteToken.byte).map token) str ↔
      Matches ((starTokens (more.filter (· ≠ [])) (endsEmpty more)).map token) str := by
  induction more generalizing str with
  | nil => rfl
  | cons piece more ih =>
      rw [List.flatMap_cons, List.map_append]
      rcases eq_or_ne piece [] with rfl | hpiece
      · -- nothing stands between this percent sign and what follows it
        rw [List.filter_cons_of_neg (by simp)]
        cases hmore : more with
        | nil => rfl
        | cons next more =>
            subst hmore
            have hfilter : (next :: more).filter (· ≠ []) ≠ [] ∨
                endsEmpty (next :: more) = true := by
              by_cases hnil : (next :: more).filter (· ≠ []) = []
              · right
                clear ih
                induction more generalizing next with
                | nil =>
                    rw [List.filter_eq_nil_iff] at hnil
                    simpa [endsEmpty] using hnil next
                | cons piece more ih =>
                    rw [List.filter_eq_nil_iff] at hnil
                    refine ih piece ?_
                    rw [List.filter_eq_nil_iff]
                    exact fun p hp => hnil p (List.mem_cons_of_mem _ hp)
              · exact .inl hnil
            obtain ⟨tokens, hstar⟩ := starTokens_star hfilter
            show Matches (Token.star :: _) str ↔ _
            rw [show endsEmpty ([] :: next :: more) = endsEmpty (next :: more) from rfl]
            have hcongr := matches_append_congr ih [Token.star] str
            refine hcongr.trans ?_
            rw [hstar]
            exact matches_stars 1
      · rw [List.filter_cons_of_pos (by simpa using hpiece), starTokens_cons, List.map_append]
        have hend : endsEmpty (piece :: more) = endsEmpty more := by
          cases more with
          | nil => simpa [endsEmpty] using hpiece
          | cons next more => rfl
        rw [hend]
        exact matches_append_congr ih _ str

theorem createLikeMatcher_fields {pattern : Bytes} {m : LikeMatcher}
    (h : createLikeMatcher pattern escape = some m) : underscore ∉ pattern ∧
      m.segments = ((pieces pattern).1 :: (pieces pattern).2).filter (· ≠ []) ∧
      m.hasStartPercentage = ((pieces pattern).1.isEmpty && !(pieces pattern).2.isEmpty) ∧
      m.hasEndPercentage = endsEmpty (pieces pattern).2 := by
  unfold createLikeMatcher at h
  split at h
  · cases h
  · rename_i segments hasStart hasEnd hloop
    split at h
    · cases h
    · cases h
      obtain ⟨hnot, heq⟩ := createLoop_eq hloop
      simp only [List.nil_append, Bool.false_or, Bool.true_and, Prod.mk.injEq] at heq
      exact ⟨hnot, heq⟩

theorem matchBytes_first {m : LikeMatcher} (hstart : m.hasStartPercentage = false)
    (hsegments : m.segments = segment :: segments) (str : Bytes) :
    m.matchBytes str = true ↔ segment <+: str ∧
      Matches ((starTokens segments m.hasEndPercentage).map token) (str.drop segment.length) := by
  have hne := m.segment_ne_nil
  rw [hsegments] at hne
  obtain ⟨-, hne⟩ := List.forall_mem_cons.mp hne
  rw [LikeMatcher.matchBytes, hstart, hsegments, List.prefix_iff_eq_take]
  simp only [Bool.not_false, if_true, List.headD_cons, List.drop_one, List.tail_cons]
  by_cases hlength : str.length < segment.length
  · rw [if_pos hlength]
    refine iff_of_false Bool.false_ne_true fun hand => ?_
    have hlen := congrArg List.length hand.1
    rw [List.length_take] at hlen
    omega
  · rw [if_neg hlength]
    by_cases hfront : str.take segment.length = segment
    · rw [if_neg (not_not.mpr hfront), and_iff_right hfront.symm]
      cases segments with
      | nil =>
          cases m.hasEndPercentage with
          | false => simp [starTokens, Matches, Nat.sub_eq_zero_iff_le]
          | true =>
              simp only [List.length_singleton, if_true, Bool.true_or, true_iff]
              exact ⟨[], List.nil_suffix, rfl⟩
      | cons next segments =>
          rw [if_neg (by simp)]
          exact matchRest_iff (List.cons_ne_nil _ _) hne _ _
    · rw [if_pos hfront]
      exact iff_of_false Bool.false_ne_true fun hand => hfront hand.1.symm

theorem createLikeMatcher_matches {pattern : Bytes} {m : LikeMatcher}
    (h : createLikeMatcher pattern escape = some m)
    (htokens : byteTokens standardCharacterReader none pattern = some tokens) (str : Bytes) :
    m.matchBytes str = true ↔ Matches (tokens.map token) str := by
  obtain ⟨hnot, hsegments, hstart, hend⟩ := createLikeMatcher_fields h
  rw [byteTokens_pieces hnot] at htokens
  cases htokens
  have hpieces (str : Bytes) := matches_pieces (pieces pattern).2 str
  rcases eq_or_ne (pieces pattern).1 [] with hnil | hcons
  · -- the pattern begins with a percent sign
    rw [hnil, List.filter_cons_of_neg (by simp)] at hsegments
    have hmore : (pieces pattern).2.isEmpty = false := by
      rw [List.isEmpty_eq_false_iff]
      intro hmore
      rw [hmore] at hsegments
      exact m.segments_ne_nil hsegments
    rw [hnil, hmore] at hstart
    rw [hnil, LikeMatcher.matchBytes, hstart]
    simp only [List.isEmpty_nil, Bool.not_false, Bool.true_and, Bool.not_true, Bool.false_eq_true,
      if_false]
    rw [matchRest_iff m.segments_ne_nil m.segment_ne_nil, hsegments, hend]
    exact (hpieces str).symm
  · rw [List.filter_cons_of_pos (by simpa using hcons)] at hsegments
    rw [List.isEmpty_eq_false_iff.mpr hcons, Bool.false_and] at hstart
    rw [matchBytes_first hstart hsegments, matches_segment, hpieces, hend]

end Like
end MiniDuck
