import MiniDuck.Utf8
import MiniDuck.Wildcard

/-!
# The LIKE operator

`TemplatedLikeOperator` is a wildcard search over bytes. It reads the
pattern and the string through a `CharacterReader`, which says how far an
underscore goes. `byteTokens` reads the pattern once and fails if it ends
with the escape character; on the others the two agree
(`likeLoop_handles`). A percent sign may take half of a character, but then
it can as well take none of it (`matches_encode`), so that the result says
whether the characters can be divided among the tokens of the pattern
(`templatedLikeOperator_iff`).
-/

namespace MiniDuck
namespace Like

open Wildcard Utf8

abbrev Bytes : Type := List UInt8

inductive LikeError
  | endsWithEscape
  | invalidEscape
  | invalidUtf8
  | invalidCodepoint
  deriving Repr, DecidableEq

def percentage : UInt8 := 37

def underscore : UInt8 := 95

def isCharacter (b : UInt8) : Bool := b &&& 0xc0 ≠ 0x80

/-- `nextCharacter` is what is left of a string after its first character. -/
structure CharacterReader where
  nextCharacter : Bytes → Bytes
  operation : UInt8 → UInt8
  next_suffix : ∀ b string, nextCharacter (b :: string) <:+ string
  next_ordered : ∀ {string string'}, string' <:+ string →
    nextCharacter string' <:+ nextCharacter string
  operation_percentage : ∀ b, operation b = percentage ↔ b = percentage

/-- What is skipped at the end of a string is skipped in the string. -/
theorem dropWhile_suffix_dropWhile {α : Type} {p : α → Bool} {string string' : List α}
    (h : string' <:+ string) : string'.dropWhile p <:+ string.dropWhile p := by
  induction string with
  | nil =>
      rw [List.suffix_nil.mp h]
  | cons b string ih =>
      rcases List.suffix_cons_iff.mp h with rfl | h
      · exact List.suffix_refl _
      · rw [List.dropWhile_cons]
        split
        · exact ih h
        · exact ((List.dropWhile_suffix p).trans h).trans (List.suffix_cons _ _)

theorem drop_suffix_drop {α : Type} {string string' : List α} (h : string' <:+ string) :
    string'.drop 1 <:+ string.drop 1 := by
  rcases suffix_iff_eq_or_tail.mp h with rfl | htail
  · exact List.suffix_refl _
  · rw [List.drop_one, List.drop_one]
    exact (List.tail_suffix _).trans htail

def standardCharacterReader : CharacterReader where
  nextCharacter string := (string.drop 1).dropWhile fun b => !isCharacter b
  operation b := b
  next_suffix _ _ := List.dropWhile_suffix _
  next_ordered h := dropWhile_suffix_dropWhile (drop_suffix_drop h)
  operation_percentage _ := Iff.rfl

def asciiToLower (b : UInt8) : UInt8 := if 65 ≤ b ∧ b ≤ 90 then b + 32 else b

def asciiLCaseReader : CharacterReader where
  nextCharacter string := string.drop 1
  operation := asciiToLower
  next_suffix _ _ := List.suffix_refl _
  next_ordered := drop_suffix_drop
  operation_percentage b := by
    unfold asciiToLower percentage
    split
    · rename_i hb
      rw [UInt8.le_iff_toNat_le, UInt8.le_iff_toNat_le] at hb
      rw [← UInt8.toNat_inj, ← UInt8.toNat_inj, UInt8.toNat_add]
      simp only [UInt8.reduceToNat] at hb ⊢
      omega
    · rfl

/-! ## The loop -/

variable (reader : CharacterReader) (escape : Option UInt8)

/-- The body of the loop, with an escape character or without one. -/
def likeSwitch (pattern string : Bytes) : Outcome UInt8 (Except LikeError Bool) :=
  match string, pattern with
  | [], _ | _, [] => .mismatch
  | s :: string, p :: rest =>
      let pchar := reader.operation p
      let schar := reader.operation s
      if escape = some pchar then
        match rest with
        | [] => .done (.error .endsWithEscape)
        | next :: rest => if next = schar then .matched rest string else .mismatch
      else if pchar = underscore then .matched rest (reader.nextCharacter (s :: string))
      else if pchar = percentage then
        match rest.dropWhile (· = percentage) with
        | [] => .done (.ok true)
        | rest => .star rest
      else if pchar = schar then .matched rest string
      else .mismatch

def finish : Bytes → Except LikeError Bool
  | [] => .ok true
  | p :: rest =>
      if escape = some p then if rest = [] then .error .endsWithEscape else .ok false
      else if p ≠ percentage then .ok false
      else finish rest

/-! ## The tokens of a pattern -/

inductive ByteToken
  | star
  | next
  | byte (b : UInt8)
  deriving Repr, DecidableEq

def byteToken (p : UInt8) : ByteToken :=
  if p = underscore then .next else if p = percentage then .star else .byte p

def byteTokens : Bytes → Option (List ByteToken)
  | [] => some []
  | [p] =>
      if escape = some (reader.operation p) then none
      else some [byteToken (reader.operation p)]
  | p :: b :: rest =>
      if escape = some (reader.operation p) then (byteTokens rest).map (.byte b :: ·)
      else (byteTokens (b :: rest)).map (byteToken (reader.operation p) :: ·)

def ByteToken.token : ByteToken → Token UInt8
  | .star => .star
  | .next => .take fun string => if string = [] then none else some (reader.nextCharacter string)
  | .byte b => .take (takeOne fun s => reader.operation s = b)

theorem ByteToken.token_ordered (t : ByteToken) : (t.token reader).Ordered := by
  cases t with
  | star => trivial
  | next =>
      intro string rest hrest string' rest' hsuffix hrest'
      dsimp only at hrest hrest'
      split_ifs at hrest hrest'
      cases hrest
      cases hrest'
      exact reader.next_ordered hsuffix
  | byte b => exact takeOne_ordered _

def decode (pattern : Bytes) : Option (List (Token UInt8)) :=
  (byteTokens reader escape pattern).map (List.map (ByteToken.token reader))

variable {reader escape}

variable {p : UInt8}

theorem byteTokens_plain (h : escape ≠ some (reader.operation p)) (rest : Bytes) :
    byteTokens reader escape (p :: rest) =
      (byteTokens reader escape rest).map (byteToken (reader.operation p) :: ·) := by
  cases rest with
  | nil => simp [byteTokens, h]
  | cons b rest => simp [byteTokens, h]

theorem byteTokens_end (h : escape = some (reader.operation p)) :
    byteTokens reader escape [p] = none := by
  simp [byteTokens, h]

theorem byteTokens_escape (h : escape = some (reader.operation p)) (b : UInt8) (rest : Bytes) :
    byteTokens reader escape (p :: b :: rest) =
      (byteTokens reader escape rest).map (.byte b :: ·) := by
  simp [byteTokens, h]

variable {string : Bytes}

/-- What the body does when there is a byte of the string and one of the pattern. -/
theorem likeSwitch_cases {s : UInt8} {rest : Bytes} {outcome : Outcome UInt8 _}
    (h : likeSwitch reader escape (p :: rest) (s :: string) = outcome) :
    (escape = some (reader.operation p) ∧ rest = [] ∧ outcome = .done (.error .endsWithEscape)) ∨
    (∃ b rest', escape = some (reader.operation p) ∧ rest = b :: rest' ∧
      outcome = if b = reader.operation s then .matched rest' string else .mismatch) ∨
    (escape ≠ some (reader.operation p) ∧ byteToken (reader.operation p) = .next ∧
      outcome = .matched rest (reader.nextCharacter (s :: string))) ∨
    (escape ≠ some (reader.operation p) ∧ byteToken (reader.operation p) = .star ∧
      reader.operation p = percentage ∧
      ((rest.dropWhile (· = percentage) = [] ∧ outcome = .done (.ok true)) ∨
        (rest.dropWhile (· = percentage) ≠ [] ∧
          outcome = .star (rest.dropWhile (· = percentage))))) ∨
    (escape ≠ some (reader.operation p) ∧
      byteToken (reader.operation p) = .byte (reader.operation p) ∧
      outcome = if reader.operation s = reader.operation p then .matched rest string
        else .mismatch) := by
  subst h
  simp only [likeSwitch]
  by_cases hescape : escape = some (reader.operation p)
  · rw [if_pos hescape]
    cases rest with
    | nil => exact .inl ⟨hescape, rfl, rfl⟩
    | cons b rest => exact .inr (.inl ⟨b, rest, hescape, rfl, rfl⟩)
  · rw [if_neg hescape, byteToken]
    by_cases hunderscore : reader.operation p = underscore
    · rw [if_pos hunderscore, if_pos hunderscore]
      exact .inr (.inr (.inl ⟨hescape, rfl, rfl⟩))
    · rw [if_neg hunderscore, if_neg hunderscore]
      by_cases hpercentage : reader.operation p = percentage
      · rw [if_pos hpercentage, if_pos hpercentage]
        refine .inr (.inr (.inr (.inl ⟨hescape, rfl, hpercentage, ?_⟩)))
        split
        · rename_i hdrop
          exact .inl ⟨hdrop, rfl⟩
        · rename_i hdrop
          exact .inr ⟨hdrop, rfl⟩
      · rw [if_neg hpercentage, if_neg hpercentage]
        refine .inr (.inr (.inr (.inr ⟨hescape, rfl, ?_⟩)))
        simp only [eq_comm]

variable {pattern : Bytes}

theorem likeSwitch_star {pattern' : Bytes}
    (h : likeSwitch reader escape pattern string = .star pattern') :
    ∃ p rest, pattern = p :: rest ∧ escape ≠ some (reader.operation p) ∧
      reader.operation p = percentage ∧ byteToken (reader.operation p) = .star ∧
      pattern' = rest.dropWhile (· = percentage) := by
  match string, pattern with
  | [], _ => cases h
  | _ :: _, [] => cases h
  | s :: string, p :: rest =>
      rcases likeSwitch_cases h with ⟨-, -, hout⟩ | ⟨b, rest', -, -, hout⟩ | ⟨-, -, hout⟩ |
        ⟨hescape, htoken, hp, ⟨-, hout⟩ | ⟨-, hout⟩⟩ | ⟨-, -, hout⟩
      · cases hout
      · split at hout <;> cases hout
      · cases hout
      · cases hout
      · cases hout
        exact ⟨p, rest, rfl, hescape, hp, htoken, rfl⟩
      · split at hout <;> cases hout

theorem likeSwitch_matched {pattern' string' : Bytes}
    (h : likeSwitch reader escape pattern string = .matched pattern' string') :
    ∃ s string₀ token, string = s :: string₀ ∧ token ≠ ByteToken.star ∧ string' <:+ string₀ ∧
      pattern' <:+ pattern ∧ pattern'.length < pattern.length ∧
      byteTokens reader escape pattern = (byteTokens reader escape pattern').map (token :: ·) ∧
      ∃ take, token.token reader = .take take ∧ take string = some string' := by
  match string, pattern with
  | [], _ => cases h
  | _ :: _, [] => cases h
  | s :: string, p :: rest =>
      have hrest : rest <:+ p :: rest := List.suffix_cons _ _
      rcases likeSwitch_cases h with ⟨-, -, hout⟩ | ⟨b, rest', hescape, rfl, hout⟩ |
        ⟨hescape, htoken, hout⟩ | ⟨-, -, -, ⟨-, hout⟩ | ⟨-, hout⟩⟩ | ⟨hescape, htoken, hout⟩
      · cases hout
      · split at hout
        · rename_i hb
          cases hout
          refine ⟨s, string', .byte b, rfl, by simp, List.suffix_refl _,
            (List.suffix_cons _ _).trans hrest, ?_, ?_, _, rfl, ?_⟩
          · rw [List.length_cons, List.length_cons]
            omega
          · rw [byteTokens_escape hescape]
          · exact takeOne_eq_some.mpr ⟨s, rfl, by simp [hb]⟩
        · cases hout
      · cases hout
        refine ⟨s, string, .next, rfl, by simp, reader.next_suffix _ _, hrest,
          Nat.lt_succ_self _, ?_, _, rfl, ?_⟩
        · rw [byteTokens_plain hescape, htoken]
        · exact if_neg (List.cons_ne_nil _ _)
      · cases hout
      · cases hout
      · split at hout
        · rename_i hb
          cases hout
          refine ⟨s, string', .byte (reader.operation p), rfl, by simp, List.suffix_refl _, hrest,
            Nat.lt_succ_self _, ?_, _, rfl, ?_⟩
          · rw [byteTokens_plain hescape, htoken]
          · exact takeOne_eq_some.mpr ⟨s, rfl, by simp [hb]⟩
        · cases hout

variable (reader escape)

def likeLoop : Switch UInt8 (Except LikeError Bool) where
  verdict := .ok
  next := likeSwitch reader escape
  finish := finish escape
  star_suffix := by
    intro pattern string pattern' hstar
    obtain ⟨p, rest, rfl, -, -, -, rfl⟩ := likeSwitch_star hstar
    have hsuffix := List.dropWhile_suffix (fun b => decide (b = percentage)) (l := rest)
    exact ⟨hsuffix.trans (List.suffix_cons _ _), Nat.lt_succ_of_le hsuffix.length_le⟩
  matched_suffix := by
    intro pattern string pattern' string' hmatched
    obtain ⟨s, string, token, rfl, -, hstring, hpattern, hlt, -⟩ := likeSwitch_matched hmatched
    exact ⟨⟨hpattern, hlt⟩, hstring.trans (List.suffix_cons _ _),
      Nat.lt_succ_of_le hstring.length_le⟩

def templatedLikeOperator (string pattern : Bytes) : Except LikeError Bool :=
  (likeLoop reader escape).search (.start pattern string)

/-! ## Matching bytes -/

variable {reader escape}

theorem byteTokens_dropWhile (hescape : escape ≠ some percentage) {tokens : List ByteToken}
    (h : byteTokens reader escape pattern = some tokens) :
    ∃ n tokens', tokens = List.replicate n .star ++ tokens' ∧
      byteTokens reader escape (pattern.dropWhile (· = percentage)) = some tokens' := by
  induction pattern generalizing tokens with
  | nil => exact ⟨0, tokens, rfl, h⟩
  | cons p rest ih =>
      by_cases hp : p = percentage
      · have hoperation := (reader.operation_percentage p).mpr hp
        rw [byteTokens_plain (hoperation ▸ hescape), hoperation] at h
        obtain ⟨tokens', hrest, rfl⟩ := Option.map_eq_some_iff.mp h
        obtain ⟨n, tokens', rfl, hdrop⟩ := ih hrest
        refine ⟨n + 1, tokens', rfl, ?_⟩
        rwa [List.dropWhile_cons_of_pos (by simpa using hp)]
      · exact ⟨0, tokens, rfl, by rwa [List.dropWhile_cons_of_neg (by simpa using hp)]⟩

theorem map_token_stars (n : Nat) (tokens : List ByteToken) :
    (List.replicate n ByteToken.star ++ tokens).map (ByteToken.token reader) =
      List.replicate n Token.star ++ tokens.map (ByteToken.token reader) := by
  rw [List.map_append, List.map_replicate]
  rfl

/-- A token takes something, unless it is a percent sign. -/
theorem not_matches_nil {token : ByteToken} {tokens : List ByteToken} (h : token ≠ .star) :
    ¬ Matches ((token :: tokens).map (ByteToken.token reader)) [] := by
  cases token with
  | star => exact absurd rfl h
  | next =>
      rintro ⟨rest, htake, -⟩
      cases htake
  | byte b =>
      rintro ⟨rest, htake, -⟩
      cases htake

theorem byteToken_eq_star (h : byteToken p = .star) : p = percentage := by
  unfold byteToken at h
  split_ifs at h with _ hp
  exact hp

/-- At the end of the string only percent signs may be left. -/
theorem finish_answers (hreader : escape ≠ none → ∀ b, reader.operation b = b)
    {tokens : List ByteToken} (h : byteTokens reader escape pattern = some tokens) :
    (likeLoop reader escape).Answers (finish escape pattern)
      (Matches (tokens.map (ByteToken.token reader)) []) := by
  induction pattern generalizing tokens with
  | nil =>
      cases h
      exact ⟨true, rfl, iff_of_true rfl rfl⟩
  | cons p rest ih =>
      have hoperation : escape = some p ↔ escape = some (reader.operation p) := by
        constructor
        · intro heq
          rw [hreader (heq ▸ Option.some_ne_none p), heq]
        · intro heq
          rw [heq, hreader (heq ▸ Option.some_ne_none _)]
      rw [finish]
      by_cases hp : escape = some p
      · rw [if_pos hp]
        cases rest with
        | nil =>
            rw [byteTokens_end (hoperation.mp hp)] at h
            cases h
        | cons b rest =>
            rw [byteTokens_escape (hoperation.mp hp)] at h
            obtain ⟨tokens', -, rfl⟩ := Option.map_eq_some_iff.mp h
            exact ⟨false, rfl, iff_of_false Bool.false_ne_true (not_matches_nil (by simp))⟩
      · rw [byteTokens_plain fun heq => hp (hoperation.mpr heq)] at h
        rw [if_neg hp]
        obtain ⟨tokens', hrest, rfl⟩ := Option.map_eq_some_iff.mp h
        by_cases hpercentage : p = percentage
        · rw [if_neg (not_not.mpr hpercentage), (reader.operation_percentage p).mpr hpercentage]
          have hstar : Matches (.star :: tokens'.map (ByteToken.token reader)) [] ↔
              Matches (tokens'.map (ByteToken.token reader)) [] := matches_stars_nil 1
          exact (ih hrest).congr hstar.symm
        · rw [if_pos hpercentage]
          refine ⟨false, rfl, iff_of_false Bool.false_ne_true (not_matches_nil fun hstar => ?_)⟩
          exact hpercentage ((reader.operation_percentage p).mp (byteToken_eq_star hstar))

theorem likeLoop_handles (hreader : escape ≠ none → ∀ b, reader.operation b = b) :
    (likeLoop reader escape).Handles (decode reader escape) where
  ordered := by
    intro pattern tokens hdecode t ht
    obtain ⟨tokens', -, rfl⟩ := Option.map_eq_some_iff.mp hdecode
    obtain ⟨token, -, rfl⟩ := List.mem_map.mp ht
    exact token.token_ordered reader
  finish := by
    intro pattern tokens hdecode
    obtain ⟨tokens₀, htokens, rfl⟩ := Option.map_eq_some_iff.mp hdecode
    exact finish_answers hreader htokens
  done := by
    intro pattern tokens string result hdecode hnext
    obtain ⟨tokens₀, htokens, rfl⟩ := Option.map_eq_some_iff.mp hdecode
    match string, pattern with
    | [], _ => cases hnext
    | _ :: _, [] => cases hnext
    | s :: string, p :: rest =>
        rcases likeSwitch_cases hnext with ⟨hescape, rfl, -⟩ | ⟨b, rest', -, -, hout⟩ |
          ⟨-, -, hout⟩ | ⟨hescape, htoken, hp, ⟨hdrop, hout⟩ | ⟨-, hout⟩⟩ | ⟨-, -, hout⟩
        · rw [byteTokens_end hescape] at htokens
          cases htokens
        · split at hout <;> cases hout
        · cases hout
        · cases hout
          rw [byteTokens_plain hescape, htoken] at htokens
          obtain ⟨tokens₀, hrest, rfl⟩ := Option.map_eq_some_iff.mp htokens
          obtain ⟨n, tokens', rfl, hnil⟩ := byteTokens_dropWhile (hp ▸ hescape) hrest
          rw [hdrop] at hnil
          cases hnil
          refine ⟨rfl, ?_⟩
          rw [List.map_cons, map_token_stars]
          exact (matches_stars n).mpr ⟨[], List.nil_suffix, rfl⟩
        · cases hout
        · split at hout <;> cases hout
  star := by
    intro pattern tokens string pattern' hdecode hnext
    obtain ⟨tokens₀, htokens, rfl⟩ := Option.map_eq_some_iff.mp hdecode
    obtain ⟨p, rest, rfl, hescape, hp, htoken, rfl⟩ := likeSwitch_star hnext
    rw [byteTokens_plain hescape, htoken] at htokens
    obtain ⟨tokens₀, hrest, rfl⟩ := Option.map_eq_some_iff.mp htokens
    obtain ⟨n, tokens', rfl, hdrop⟩ := byteTokens_dropWhile (hp ▸ hescape) hrest
    refine ⟨_, Option.map_eq_some_iff.mpr ⟨tokens', hdrop, rfl⟩, fun string => ?_⟩
    rw [List.map_cons, map_token_stars]
    exact matches_stars n
  matched := by
    intro pattern tokens string pattern' string' hdecode hnext
    obtain ⟨tokens₀, htokens, rfl⟩ := Option.map_eq_some_iff.mp hdecode
    obtain ⟨s, string, token, rfl, -, -, -, -, hfront, take, htake, hstring⟩ :=
      likeSwitch_matched hnext
    rw [hfront] at htokens
    obtain ⟨tokens', hrest, rfl⟩ := Option.map_eq_some_iff.mp htokens
    refine ⟨take, _, ?_, hstring, Option.map_eq_some_iff.mpr ⟨tokens', hrest, rfl⟩⟩
    rw [List.map_cons, htake]
  mismatch := by
    intro pattern tokens string hdecode hstring hnext hmatch
    obtain ⟨tokens₀, htokens, rfl⟩ := Option.map_eq_some_iff.mp hdecode
    match string, pattern with
    | [], _ => exact hstring rfl
    | _ :: _, [] =>
        cases htokens
        cases hmatch
    | s :: string, p :: rest =>
        rcases likeSwitch_cases hnext with ⟨-, -, hout⟩ | ⟨b, rest', hescape, rfl, hout⟩ |
          ⟨-, -, hout⟩ | ⟨-, -, -, ⟨-, hout⟩ | ⟨-, hout⟩⟩ | ⟨hescape, htoken, hout⟩
        · cases hout
        · split at hout
          · cases hout
          · rename_i hb
            rw [byteTokens_escape hescape] at htokens
            obtain ⟨tokens', -, rfl⟩ := Option.map_eq_some_iff.mp htokens
            obtain ⟨rest, htake, -⟩ := hmatch
            obtain ⟨s', hs, haccepts⟩ := takeOne_eq_some.mp htake
            cases hs
            exact hb (by simpa [eq_comm] using haccepts)
        · cases hout
        · cases hout
        · cases hout
        · split at hout
          · cases hout
          · rename_i hb
            rw [byteTokens_plain hescape, htoken] at htokens
            obtain ⟨tokens', -, rfl⟩ := Option.map_eq_some_iff.mp htokens
            obtain ⟨rest, htake, -⟩ := hmatch
            obtain ⟨s', hs, haccepts⟩ := takeOne_eq_some.mp htake
            cases hs
            exact hb (by simpa using haccepts)

/-- The operator says whether the bytes can be divided among the tokens. -/
theorem templatedLikeOperator_answers (hreader : escape ≠ none → ∀ b, reader.operation b = b)
    {pattern : Bytes} {tokens : List ByteToken}
    (h : byteTokens reader escape pattern = some tokens) (string : Bytes) :
    ∃ verdict, templatedLikeOperator reader escape string pattern = .ok verdict ∧
      (verdict = true ↔ Matches (tokens.map (ByteToken.token reader)) string) :=
  search_iff (likeLoop_handles hreader) (Option.map_eq_some_iff.mpr ⟨tokens, h, rfl⟩) string

/-! ## Characters -/

inductive LikeToken
  | percent
  | underscore
  | char (c : Char)
  deriving Repr, DecidableEq

def LikeToken.Takes : LikeToken → List Char → Prop
  | .percent, _ => True
  | .underscore, part => ∃ c, part = [c]
  | .char c, part => part = [c]

def Divides (tokens : List LikeToken) (string : List Char) : Prop :=
  Wildcard.Divides LikeToken.Takes tokens string

def likeToken (c : Char) : LikeToken :=
  if c = '_' then .underscore else if c = '%' then .percent else .char c

/-- The tokens of a pattern, in which every escape character is followed by a character. -/
def likeTokens (escape : Option Char) : List Char → Option (List LikeToken)
  | [] => some []
  | [c] => if escape = some c then none else some [likeToken c]
  | c :: d :: rest =>
      if escape = some c then (likeTokens escape rest).map (.char d :: ·)
      else (likeTokens escape (d :: rest)).map (likeToken c :: ·)

variable {c : Char}

theorem likeTokens_plain {escape : Option Char} (h : escape ≠ some c) (rest : List Char) :
    likeTokens escape (c :: rest) = (likeTokens escape rest).map (likeToken c :: ·) := by
  cases rest with
  | nil => simp [likeTokens, h]
  | cons d rest => simp [likeTokens, h]

theorem likeTokens_none (pattern : List Char) :
    likeTokens none pattern = some (pattern.map likeToken) := by
  induction pattern with
  | nil => rfl
  | cons c pattern ih =>
      rw [likeTokens_plain (Option.some_ne_none c).symm, ih]
      rfl

def LikeToken.token : LikeToken → Token Char
  | .percent => .star
  | .underscore => .take (takeOne fun _ => true)
  | .char c => .take (takeOne fun d => d = c)

variable {tokens : List LikeToken}

theorem matches_iff_divides {string : List Char} :
    Matches (tokens.map LikeToken.token) string ↔ Divides tokens string := by
  refine Wildcard.matches_iff_divides fun t => ?_
  cases t with
  | percent => exact fun _ => trivial
  | underscore => exact takeOne_takesOnly fun part => by simp [LikeToken.Takes]
  | char c => exact takeOne_takesOnly fun part => by simp [LikeToken.Takes]

def LikeToken.bytes : LikeToken → List ByteToken
  | .percent => [.star]
  | .underscore => [.next]
  | .char c => (String.utf8EncodeChar c).map .byte

/-! ### The bytes of a pattern -/

def asciiByte (c : Char) : UInt8 := UInt8.ofNat c.toNat

theorem asciiByte_inj {d : Char} (hc : IsAscii c) (hd : IsAscii d) (h : asciiByte c = asciiByte d) :
    c = d := by
  have hlt : c.toNat < 128 := hc
  have hlt' : d.toNat < 128 := hd
  have heq := congrArg UInt8.toNat h
  rw [asciiByte, asciiByte, ofNat_toNat (by omega), ofNat_toNat (by omega)] at heq
  exact Char.ext (UInt32.toNat_inj.mp heq)

theorem asciiByte_toNat (h : IsAscii c) : (asciiByte c).toNat < 128 := by
  have hlt : c.toNat < 128 := h
  rwa [asciiByte, ofNat_toNat (by omega)]

variable {escapeChar : Option Char}

theorem byteTokens_large (hescape : ∀ c ∈ escapeChar, IsAscii c) {bytes : Bytes}
    (hbytes : ∀ b ∈ bytes, 128 ≤ b.toNat) (rest : Bytes) :
    byteTokens standardCharacterReader (escapeChar.map asciiByte) (bytes ++ rest) =
      (byteTokens standardCharacterReader (escapeChar.map asciiByte) rest).map
        (bytes.map .byte ++ ·) := by
  induction bytes with
  | nil => simp
  | cons b bytes ih =>
      obtain ⟨hb, hbytes⟩ := List.forall_mem_cons.mp hbytes
      have hplain : escapeChar.map asciiByte ≠ some b := by
        intro heq
        obtain ⟨c, hc, rfl⟩ := Option.map_eq_some_iff.mp heq
        exact (asciiByte_toNat (hescape c hc)).not_ge hb
      have htoken : byteToken b = .byte b := by
        unfold byteToken
        rw [if_neg, if_neg]
        all_goals
          rintro rfl
          exact absurd hb (by decide)
      rw [List.cons_append, byteTokens_plain hplain, ih hbytes, Option.map_map]
      show Option.map ((fun tokens => byteToken b :: tokens) ∘ _) _ = _
      rw [htoken]
      rfl

theorem large_of_continuation {bytes : Bytes} (h : ∀ b ∈ bytes, IsContinuation b) :
    ∀ b ∈ bytes, 128 ≤ b.toNat := fun b hb => (h b hb).1

theorem byteTokens_char (hescape : ∀ c ∈ escapeChar, IsAscii c) (h : escapeChar ≠ some c)
    (rest : Bytes) : byteTokens standardCharacterReader (escapeChar.map asciiByte)
        (String.utf8EncodeChar c ++ rest) =
      (byteTokens standardCharacterReader (escapeChar.map asciiByte) rest).map
        ((likeToken c).bytes ++ ·) := by
  rcases encodeChar_cases c with ⟨hascii, hc⟩ | ⟨hascii, lead, cont, hc, hlead, hcont⟩
  · have hplain : escapeChar.map asciiByte ≠ some (asciiByte c) := by
      intro heq
      obtain ⟨d, hd, hbyte⟩ := Option.map_eq_some_iff.mp heq
      exact h (asciiByte_inj (hescape d hd) hascii hbyte ▸ hd)
    have htoken : [byteToken (asciiByte c)] = (likeToken c).bytes := by
      unfold byteToken likeToken
      by_cases hunderscore : c = '_'
      · subst hunderscore
        rfl
      · have hne : asciiByte c ≠ underscore := fun heq =>
          hunderscore (asciiByte_inj (d := '_') hascii (by decide) heq)
        rw [if_neg hunderscore, if_neg hne]
        by_cases hpercent : c = '%'
        · subst hpercent
          rfl
        · have hne : asciiByte c ≠ percentage := fun heq =>
            hpercent (asciiByte_inj (d := '%') hascii (by decide) heq)
          rw [if_neg hpercent, if_neg hne, LikeToken.bytes, hc]
          rfl
    rw [hc, ← htoken]
    exact byteTokens_plain hplain rest
  · have htoken : likeToken c = .char c := by
      unfold likeToken
      rw [if_neg, if_neg]
      all_goals
        rintro rfl
        exact hascii (by decide)
    rw [htoken, LikeToken.bytes, hc]
    refine byteTokens_large hescape ?_ rest
    exact List.forall_mem_cons.mpr ⟨by omega, large_of_continuation hcont⟩

/-- The byte tokens of a pattern are those of its tokens. -/
theorem byteTokens_encode (hescape : ∀ c ∈ escapeChar, IsAscii c) {pattern : List Char}
    (h : likeTokens escapeChar pattern = some tokens) :
    byteTokens standardCharacterReader (escapeChar.map asciiByte) (encode pattern) =
      some (tokens.flatMap LikeToken.bytes) := by
  fun_induction likeTokens escapeChar pattern generalizing tokens with
  | case1 =>
      cases h
      rfl
  | case2 c hc => cases h
  | case3 c hc =>
      cases h
      rw [encode_cons, byteTokens_char hescape hc]
      rfl
  | case4 c d rest hc ih =>
      obtain ⟨tokens', hrest, rfl⟩ := Option.map_eq_some_iff.mp h
      have hascii : IsAscii c := hescape c hc
      obtain ⟨lead, cont, hd, -, hcont⟩ := encodeChar_cons d
      have hmap : escapeChar.map asciiByte =
          some (standardCharacterReader.operation (asciiByte c)) := by
        rw [hc]
        rfl
      have hbytes : encode (c :: d :: rest) = asciiByte c :: lead :: (cont ++ encode rest) := by
        rw [encode_cons, encode_cons, encodeChar_ascii hascii, hd]
        rfl
      rw [hbytes, byteTokens_escape hmap,
        byteTokens_large hescape (large_of_continuation hcont), ih hrest, List.flatMap_cons,
        LikeToken.bytes, hd]
      rfl
  | case5 c d rest hc ih =>
      obtain ⟨tokens', hrest, rfl⟩ := Option.map_eq_some_iff.mp h
      rw [encode_cons, byteTokens_char hescape hc, ih hrest]
      rfl

/-! ### The bytes of a string -/

theorem isCharacter_eq_false {b : UInt8} : isCharacter b = false ↔ IsContinuation b := by
  have hall : ∀ n : Fin 256, isCharacter (UInt8.ofNat n) = false ↔
      IsContinuation (UInt8.ofNat n) := by
    unfold IsContinuation
    decide +kernel
  have hb := hall ⟨b.toNat, b.toNat_lt⟩
  rwa [UInt8.ofNat_toNat] at hb

theorem nextCharacter_encode {b : UInt8} {cont : Bytes} (hcont : ∀ b ∈ cont, IsContinuation b)
    (string : List Char) :
    standardCharacterReader.nextCharacter (b :: cont ++ encode string) = encode string := by
  have hdrop : (encode string).dropWhile (fun b => !isCharacter b) = encode string := by
    cases string with
    | nil => rfl
    | cons c string =>
        obtain ⟨lead, rest, hc, hlead, -⟩ := encodeChar_cons c
        rw [encode_cons, hc, List.cons_append, List.dropWhile_cons_of_neg]
        rwa [Bool.not_eq_true', isCharacter_eq_false]
  show ((b :: cont ++ encode string).drop 1).dropWhile (fun b => !isCharacter b) = encode string
  rw [List.cons_append, List.drop_one, List.tail_cons, List.dropWhile_append_of_pos, hdrop]
  intro b hb
  rw [Bool.not_eq_true', isCharacter_eq_false]
  exact hcont b hb

theorem matches_bytes {reader : CharacterReader} {bytes : Bytes} {tokens : List ByteToken} :
    Matches ((bytes.map ByteToken.byte ++ tokens).map (ByteToken.token reader)) string ↔
      ∃ part rest, string = part ++ rest ∧ part.map reader.operation = bytes ∧
        Matches (tokens.map (ByteToken.token reader)) rest := by
  induction bytes generalizing string with
  | nil => simp
  | cons b bytes ih =>
      constructor
      · rintro ⟨rest, htake, hmatch⟩
        obtain ⟨s, rfl, hs⟩ := takeOne_eq_some.mp htake
        obtain ⟨part, rest, rfl, rfl, hrest⟩ := ih.mp hmatch
        exact ⟨s :: part, rest, rfl, by simpa using hs, hrest⟩
      · rintro ⟨part, rest, rfl, hpart, hrest⟩
        obtain ⟨s, part, rfl, rfl, rfl⟩ := List.map_eq_cons_iff.mp hpart
        exact ⟨part ++ rest, takeOne_eq_some.mpr ⟨s, rfl, by simp⟩,
          ih.mpr ⟨part, rest, rfl, rfl, hrest⟩⟩

def byteMatch (tokens : List LikeToken) : List (Token UInt8) :=
  (tokens.flatMap LikeToken.bytes).map (ByteToken.token standardCharacterReader)

theorem matches_underscore {b : UInt8} {cont : Bytes} (hcont : ∀ b ∈ cont, IsContinuation b)
    {string : List Char} :
    Matches (byteMatch (.underscore :: tokens)) (b :: cont ++ encode string) ↔
      Matches (byteMatch tokens) (encode string) := by
  constructor
  · rintro ⟨rest, htake, hmatch⟩
    obtain rfl := (nextCharacter_encode hcont string).symm.trans (Option.some.inj htake)
    exact hmatch
  · intro hmatch
    exact ⟨_, congrArg some (nextCharacter_encode hcont string), hmatch⟩

theorem matches_char : Matches (byteMatch (.char c :: tokens)) string ↔
      ∃ rest, string = String.utf8EncodeChar c ++ rest ∧ Matches (byteMatch tokens) rest := by
  refine matches_bytes.trans ?_
  constructor
  · rintro ⟨part, rest, rfl, hpart, hmatch⟩
    obtain rfl : part = String.utf8EncodeChar c := (List.map_id' part).symm.trans hpart
    exact ⟨rest, rfl, hmatch⟩
  · rintro ⟨rest, rfl, hmatch⟩
    exact ⟨_, rest, rfl, List.map_id' _, hmatch⟩

/-- The same division of the bytes takes whole characters. A division that starts inside of a
character could have started at its front. -/
theorem matches_of_encode (tokens : List LikeToken) :
    (∀ string, Matches (byteMatch tokens) (encode string) →
      Matches (tokens.map LikeToken.token) string) ∧
    ∀ mid string c, mid ≠ [] → (∀ b ∈ mid, IsContinuation b) →
      Matches (byteMatch tokens) (mid ++ encode string) →
        Matches (tokens.map LikeToken.token) (c :: string) := by
  induction tokens with
  | nil =>
      refine ⟨fun string h => ?_, fun mid string c hne _ h => ?_⟩
      · cases string with
        | nil => rfl
        | cons c string =>
            obtain ⟨lead, rest, hc, -⟩ := encodeChar_cons c
            rw [encode_cons, hc] at h
            cases h
      · exact absurd (List.append_eq_nil_iff.mp h).1 hne
  | cons t tokens ih =>
      obtain ⟨hwhole, hmid⟩ := ih
      -- what follows a percent sign starts at a character or inside of one
      have hsuffix {string : List Char} {rest : Bytes} (hrest : rest <:+ encode string)
          (h : Matches (byteMatch tokens) rest) :
          ∃ string', string' <:+ string ∧ Matches (tokens.map LikeToken.token) string' := by
        rcases suffix_encode hrest with ⟨string', hstring', rfl⟩ | ⟨c, string', mid, hstring', rfl,
          hne, hcont⟩
        · exact ⟨string', hstring', hwhole _ h⟩
        · exact ⟨c :: string', hstring', hmid _ _ c hne hcont h⟩
      cases t with
      | percent =>
          refine ⟨fun string h => ?_, fun mid string c hne hcont h => ?_⟩
          · obtain ⟨rest, hrest, hmatch⟩ := h
            exact hsuffix hrest hmatch
          · obtain ⟨rest, hrest, hmatch⟩ := h
            have hlater {string' : List Char} (h : string' <:+ string) : string' <:+ c :: string :=
              h.trans (List.suffix_cons _ _)
            rcases Nat.le_total rest.length (encode string).length with hle | hle
            · obtain ⟨string', hstring', hmatch'⟩ := hsuffix
                (List.suffix_of_suffix_length_le hrest (List.suffix_append _ _) hle) hmatch
              exact ⟨string', hlater hstring', hmatch'⟩
            · obtain ⟨mid', rfl⟩ :=
                List.suffix_of_suffix_length_le (List.suffix_append mid _) hrest hle
              rw [List.suffix_append_self_iff] at hrest
              rcases eq_or_ne mid' [] with rfl | hne'
              · exact ⟨string, List.suffix_cons _ _, hwhole _ hmatch⟩
              · exact ⟨c :: string, List.suffix_refl _, hmid _ _ c hne'
                  (fun b hb => hcont b (hrest.subset hb)) hmatch⟩
      | underscore =>
          refine ⟨fun string h => ?_, fun mid string c hne hcont h => ?_⟩
          · cases string with
            | nil =>
                obtain ⟨rest, htake, -⟩ := h
                cases htake
            | cons c string =>
                obtain ⟨lead, cont, hc, -, hcont⟩ := encodeChar_cons c
                rw [encode_cons, hc] at h
                exact ⟨string, rfl, hwhole _ ((matches_underscore hcont).mp h)⟩
          · obtain ⟨b, cont, rfl⟩ := List.exists_cons_of_ne_nil hne
            have hcont' := (List.forall_mem_cons.mp hcont).2
            exact ⟨string, rfl, hwhole _ ((matches_underscore hcont').mp h)⟩
      | char d =>
          obtain ⟨lead, cont, hd, hlead, hcont⟩ := encodeChar_cons d
          refine ⟨fun string h => ?_, fun mid string c hne hmidcont h => ?_⟩
          · obtain ⟨rest, hstring, hmatch⟩ := matches_char.mp h
            cases string with
            | nil =>
                rw [hd] at hstring
                cases hstring
            | cons c string =>
                rw [encode_cons] at hstring
                obtain ⟨rfl, rfl⟩ := encode_cons_inj hstring
                exact ⟨string, takeOne_eq_some.mpr ⟨c, rfl, by simp⟩, hwhole _ hmatch⟩
          · obtain ⟨rest, hstring, hmatch⟩ := matches_char.mp h
            obtain ⟨b, mid, rfl⟩ := List.exists_cons_of_ne_nil hne
            rw [hd] at hstring
            obtain rfl : b = lead := (List.cons.inj hstring).1
            exact absurd (hmidcont _ List.mem_cons_self) hlead

/-- A division of the characters is one of the bytes. -/
theorem matches_encode {string : List Char} :
    Matches (byteMatch tokens) (encode string) ↔ Matches (tokens.map LikeToken.token) string := by
  refine ⟨(matches_of_encode tokens).1 string, fun h => ?_⟩
  induction tokens generalizing string with
  | nil =>
      obtain rfl : string = [] := h
      rfl
  | cons t tokens ih =>
      cases t with
      | percent =>
          obtain ⟨rest, hrest, hmatch⟩ := h
          exact ⟨encode rest, encode_suffix hrest, ih hmatch⟩
      | underscore =>
          obtain ⟨rest, htake, hmatch⟩ := h
          obtain ⟨c, rfl, -⟩ := takeOne_eq_some.mp htake
          obtain ⟨lead, cont, hc, -, hcont⟩ := encodeChar_cons c
          rw [encode_cons, hc]
          exact (matches_underscore hcont).mpr (ih hmatch)
      | char d =>
          obtain ⟨rest, htake, hmatch⟩ := h
          obtain ⟨c, rfl, hc⟩ := takeOne_eq_some.mp htake
          obtain rfl : c = d := by simpa using hc
          exact matches_char.mpr ⟨_, encode_cons c rest, ih hmatch⟩

/-- The operator says whether the characters can be divided among the tokens of the pattern. -/
theorem templatedLikeOperator_iff (hescape : ∀ c ∈ escapeChar, IsAscii c) {pattern : List Char}
    (h : likeTokens escapeChar pattern = some tokens) (string : List Char) :
    ∃ verdict, templatedLikeOperator standardCharacterReader (escapeChar.map asciiByte)
        (encode string) (encode pattern) = .ok verdict ∧
      (verdict = true ↔ Divides tokens string) := by
  obtain ⟨verdict, hverdict, hiff⟩ :=
    templatedLikeOperator_answers (fun _ _ => rfl) (byteTokens_encode hescape h) (encode string)
  exact ⟨verdict, hverdict, hiff.trans (matches_encode.trans matches_iff_divides)⟩

end Like
end MiniDuck
