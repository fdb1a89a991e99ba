import MiniDuck.LikeMatcher

/-!
# The ILIKE operators

ILIKE lowercases the string and the pattern and compares them with LIKE.
Where the pattern is constant it is lowercased once and matched by
segments. Where the statistics say that the strings are all ASCII, the bytes
of both are lowercased one by one, which leaves larger characters of the
pattern as they are. So the ASCII operator misses a pattern with a larger
character whose lowercase is ASCII, unless another character of the pattern
excludes all ASCII strings anyway (`implementations_agree_iff`).
-/

namespace MiniDuck
namespace Like

open Wildcard Utf8

/-! ## Lowercasing -/

/-- `UTF8ToCodepoint`: the code point at the front of a string and the number of its bytes. -/
def utf8ToCodepoint : Bytes → Except LikeError (Nat × Nat)
  | [] => .error .invalidUtf8
  | b₀ :: rest =>
      let u₀ := b₀.toNat
      if u₀ ≤ 127 then .ok (u₀, 1)
      else if 192 ≤ u₀ ∧ u₀ ≤ 247 then
        let needed := if 240 ≤ u₀ then 4 else if 224 ≤ u₀ then 3 else 2
        if rest.length + 1 < needed then .error .invalidUtf8
        else
          let u₁ := (rest.getD 0 0).toNat
          let u₂ := (rest.getD 1 0).toNat
          let u₃ := (rest.getD 2 0).toNat
          if needed = 2 then .ok ((u₀ - 192) * 64 + (u₁ - 128), 2)
          else if u₀ = 0xed ∧ rest.getD 0 0 &&& 0xa0 = 0xa0 then .error .invalidUtf8
          else if needed = 3 then .ok ((u₀ - 224) * 4096 + (u₁ - 128) * 64 + (u₂ - 128), 3)
          else
            .ok ((u₀ - 240) * 262144 + (u₁ - 128) * 4096 + (u₂ - 128) * 64 + (u₃ - 128), 4)
      else .error .invalidUtf8

/-- `CodepointToUtf8`, which fails for code points that are not characters. -/
def codepointToUtf8 (cp : Nat) : Option Bytes :=
  if cp ≤ 0x7F then some [UInt8.ofNat cp]
  else if cp ≤ 0x7FF then some [UInt8.ofNat (cp / 64 + 192), UInt8.ofNat (cp % 64 + 128)]
  else if 0xd800 ≤ cp ∧ cp ≤ 0xdfff then none
  else if cp ≤ 0xFFFF then
    some [UInt8.ofNat (cp / 4096 + 224), UInt8.ofNat (cp / 64 % 64 + 128),
      UInt8.ofNat (cp % 64 + 128)]
  else if cp ≤ 0x10FFFF then
    some [UInt8.ofNat (cp / 262144 + 240), UInt8.ofNat (cp / 4096 % 64 + 128),
      UInt8.ofNat (cp / 64 % 64 + 128), UInt8.ofNat (cp % 64 + 128)]
  else none

def codepointLength (cp : Nat) : Except LikeError Nat :=
  if cp ≤ 0x7F then .ok 1
  else if cp ≤ 0x7FF then .ok 2
  else if 0xd800 ≤ cp ∧ cp ≤ 0xdfff then .error .invalidCodepoint
  else if cp ≤ 0xFFFF then .ok 3
  else if cp ≤ 0x10FFFF then .ok 4
  else .error .invalidCodepoint

section Lowercase

-- `CodepointToLower` is third-party code
variable (codepointToLower : Nat → Nat)

def lowerLength : Bytes → Except LikeError Nat
  | [] => .ok 0
  | b :: rest =>
      if b &&& 0x80 = 0 then (lowerLength rest).map (1 + ·)
      else do
        let (codepoint, size) ← utf8ToCodepoint (b :: rest)
        let newSize ← codepointLength (codepointToLower codepoint)
        (lowerLength (rest.drop (size - 1))).map (newSize + ·)
termination_by data => data.length
decreasing_by
  all_goals
    simp only [List.length_drop, List.length_cons]
    omega

def lowerCase : Bytes → Except LikeError Bytes
  | [] => .ok []
  | b :: rest =>
      if b &&& 0x80 ≠ 0 then do
        let (codepoint, size) ← utf8ToCodepoint (b :: rest)
        -- for such a code point the length has not been computed
        match codepointToUtf8 (codepointToLower codepoint) with
        | none => .error .invalidCodepoint
        | some bytes => (lowerCase (rest.drop (size - 1))).map (bytes ++ ·)
      else (lowerCase rest).map (asciiToLower b :: ·)
termination_by data => data.length
decreasing_by
  all_goals
    simp only [List.length_drop, List.length_cons]
    omega

/-- The string in a buffer of the length that was computed before. -/
def lowered (data : Bytes) : Except LikeError Bytes := do
  let length ← lowerLength codepointToLower data
  let buffer ← lowerCase codepointToLower data
  .ok (buffer.take length)

/-! ## The operators -/

def likeOperatorFunction (str pattern : Bytes) : Except LikeError Bool :=
  templatedLikeOperator standardCharacterReader none str pattern

def likeOperatorFunctionEscape (str pattern : Bytes) (escape : UInt8) : Except LikeError Bool :=
  templatedLikeOperator standardCharacterReader (some escape) str pattern

def getEscapeChar (escape : Bytes) : Except LikeError UInt8 :=
  if escape.length > 1 then .error .invalidEscape else .ok (escape.headD 0)

def characterToLower (c : UInt8) : UInt8 := if 65 ≤ c ∧ c ≤ 90 then c + 32 else c

/-- `ILikeOperatorFunctionInternal`, with an escape character or without one. -/
def ilikeOperatorFunctionInternal (escape : Option UInt8) (str pattern : Bytes) :
    Except LikeError Bool := do
  let strLcase ← lowered codepointToLower str
  let patLcase ← lowered codepointToLower pattern
  match escape with
  | none => likeOperatorFunction strLcase patLcase
  | some escape => likeOperatorFunctionEscape strLcase patLcase (characterToLower escape)

/-- `ILikeOperatorFunction` without an escape character, for every row. -/
def ilikeOperatorFunction (str pattern : Bytes) : Except LikeError Bool :=
  ilikeOperatorFunctionInternal codepointToLower none str pattern

def ilikeEscapeOperator (str pattern escape : Bytes) : Except LikeError Bool := do
  let escapeChar ← getEscapeChar escape
  if escape.length = 0 then ilikeOperatorFunctionInternal codepointToLower none str pattern
  else ilikeOperatorFunctionInternal codepointToLower (some escapeChar) str pattern

/-- `ILikeFunction` for a constant pattern, on one row. -/
def ilikeFunction (pattern str : Bytes) : Except LikeError Bool := do
  let patLcase ← lowered codepointToLower pattern
  let matcher := createLikeMatcher patLcase 0
  let strLcase ← lowered codepointToLower str
  match matcher with
  | some matcher => .ok (matcher.matchBytes strLcase)
  | none => likeOperatorFunction strLcase patLcase

/-- `ILikeEscapeFunction` for a constant pattern and a constant escape string, on one row. -/
def ilikeEscapeFunction (pattern escape str : Bytes) : Except LikeError Bool := do
  let escapeChar ← (getEscapeChar escape).map characterToLower
  let hasEscape := escape.length ≠ 0
  let patLcase ← lowered codepointToLower pattern
  let escapeActive := hasEscape ∧ (StringSearch.memchr patLcase escapeChar).isSome
  let matcher := if escapeActive then none else createLikeMatcher patLcase 0
  let strLcase ← lowered codepointToLower str
  match matcher with
  | some matcher => .ok (matcher.matchBytes strLcase)
  | none =>
      if hasEscape then likeOperatorFunctionEscape strLcase patLcase escapeChar
      else likeOperatorFunction strLcase patLcase

end Lowercase

def ilikeOperatorASCII (str pattern : Bytes) : Except LikeError Bool :=
  templatedLikeOperator asciiLCaseReader none str pattern

/-! ## Lowercasing characters -/

/-- What `CodepointToLower` computes: the lowercase of a character is a character, and has no other
lowercase. -/
structure SimpleLowercase (codepointToLower : Nat → Nat) (lower : Char → Char) : Prop where
  codepoint : ∀ c, codepointToLower c.toNat = (lower c).toNat
  ascii : ∀ c, IsAscii c → lower c = c.toLower
  idempotent : ∀ c, lower (lower c) = lower c

variable {codepointToLower : Nat → Nat} {lower : Char → Char}

theorem and_high_bit {b : UInt8} : b &&& 0x80 = 0 ↔ b.toNat < 128 := by
  have hall : ∀ n : Fin 256, UInt8.ofNat n &&& 0x80 = 0 ↔ (UInt8.ofNat n).toNat < 128 := by
    decide +kernel
  have hb := hall ⟨b.toNat, b.toNat_lt⟩
  rwa [UInt8.ofNat_toNat] at hb

theorem and_surrogate {b : UInt8} (h : b.toNat < 160) : b &&& 0xa0 ≠ 0xa0 := by
  have hall : ∀ n : Fin 256, (UInt8.ofNat n).toNat < 160 → UInt8.ofNat n &&& 0xa0 ≠ 0xa0 := by
    decide +kernel
  have hb := hall ⟨b.toNat, b.toNat_lt⟩
  rw [UInt8.ofNat_toNat] at hb
  exact hb h

theorem not_surrogate (c : Char) : ¬ (0xd800 ≤ c.toNat ∧ c.toNat ≤ 0xdfff) := by
  rintro ⟨hle, hge⟩
  have hvalid : c.toNat < 0xd800 ∨ 0xdfff < c.toNat ∧ c.toNat < 0x110000 := c.valid
  omega

theorem codepointToUtf8_char (c : Char) :
    codepointToUtf8 c.toNat = some (String.utf8EncodeChar c) := by
  have hlt := toNat_lt c
  have hval : c.val.toNat = c.toNat := rfl
  simp only [codepointToUtf8, String.utf8EncodeChar, if_neg (not_surrogate c), hval]
  split_ifs
  · rfl
  · rw [Nat.mod_eq_of_lt (show c.toNat / 64 < 32 by omega)]
  · rw [Nat.mod_eq_of_lt (show c.toNat / 4096 < 16 by omega)]
  · rw [Nat.mod_eq_of_lt (show c.toNat / 262144 < 8 by omega)]
  · omega

theorem codepointLength_char (c : Char) :
    codepointLength c.toNat = .ok (String.utf8EncodeChar c).length := by
  have hlt := toNat_lt c
  have hval : c.val.toNat = c.toNat := rfl
  simp only [codepointLength, String.utf8EncodeChar, if_neg (not_surrogate c), hval]
  split_ifs
  · rfl
  · rfl
  · rfl
  · rfl
  · omega

/-! A code point is read back from two, three and four bytes. -/

theorem utf8ToCodepoint_two {u₀ u₁ : UInt8} (rest : Bytes) (h : 192 ≤ u₀.toNat ∧ u₀.toNat < 224) :
    utf8ToCodepoint (u₀ :: u₁ :: rest) =
      .ok ((u₀.toNat - 192) * 64 + (u₁.toNat - 128), 2) := by
  have hlength : ¬ (u₁ :: rest).length + 1 < 2 := by
    rw [List.length_cons]
    omega
  simp only [utf8ToCodepoint]
  rw [if_neg (by omega), if_pos (by omega), if_neg (show ¬ 240 ≤ u₀.toNat by omega),
    if_neg (show ¬ 224 ≤ u₀.toNat by omega), if_neg hlength, if_pos rfl]
  rfl

theorem utf8ToCodepoint_three {u₀ u₁ u₂ : UInt8} (rest : Bytes)
    (h : 224 ≤ u₀.toNat ∧ u₀.toNat < 240) (hsurrogate : u₀.toNat = 237 → u₁.toNat < 160) :
    utf8ToCodepoint (u₀ :: u₁ :: u₂ :: rest) =
      .ok ((u₀.toNat - 224) * 4096 + (u₁.toNat - 128) * 64 + (u₂.toNat - 128), 3) := by
  have hlength : ¬ (u₁ :: u₂ :: rest).length + 1 < 3 := by
    rw [List.length_cons, List.length_cons]
    omega
  have hvalid : ¬ (u₀.toNat = 0xed ∧ (u₁ :: u₂ :: rest).getD 0 0 &&& 0xa0 = 0xa0) :=
    fun hand => and_surrogate (hsurrogate hand.1) hand.2
  simp only [utf8ToCodepoint]
  rw [if_neg (by omega), if_pos (by omega), if_neg (show ¬ 240 ≤ u₀.toNat by omega),
    if_pos (show 224 ≤ u₀.toNat by omega), if_neg hlength, if_neg (by decide), if_neg hvalid,
    if_pos rfl]
  rfl

theorem utf8ToCodepoint_four {u₀ u₁ u₂ u₃ : UInt8} (rest : Bytes)
    (h : 240 ≤ u₀.toNat ∧ u₀.toNat < 248) :
    utf8ToCodepoint (u₀ :: u₁ :: u₂ :: u₃ :: rest) =
      .ok ((u₀.toNat - 240) * 262144 + (u₁.toNat - 128) * 4096 + (u₂.toNat - 128) * 64 +
        (u₃.toNat - 128), 4) := by
  have hlength : ¬ (u₁ :: u₂ :: u₃ :: rest).length + 1 < 4 := by
    rw [List.length_cons, List.length_cons, List.length_cons]
    omega
  have hvalid : ¬ (u₀.toNat = 0xed ∧ (u₁ :: u₂ :: u₃ :: rest).getD 0 0 &&& 0xa0 = 0xa0) :=
    fun hand => by omega
  simp only [utf8ToCodepoint]
  rw [if_neg (by omega), if_pos (by omega), if_pos (show 240 ≤ u₀.toNat by omega),
    if_neg hlength, if_neg (by decide), if_neg hvalid, if_neg (by decide)]
  rfl

theorem utf8ToCodepoint_char (c : Char) (rest : Bytes) :
    utf8ToCodepoint (String.utf8EncodeChar c ++ rest) =
      .ok (c.toNat, (String.utf8EncodeChar c).length) := by
  have hlt := toNat_lt c
  have hnot := not_surrogate c
  have hval : c.val.toNat = c.toNat := rfl
  simp only [String.utf8EncodeChar, hval]
  split_ifs with h₁ h₂ h₃
  · rw [List.cons_append, utf8ToCodepoint]
    simp only [ofNat_toNat (show c.toNat < 256 by omega), if_pos h₁]
    rfl
  · have hfirst := ofNat_toNat (show c.toNat / 64 % 32 + 192 < 256 by omega)
    have hsecond := ofNat_toNat (show c.toNat % 64 + 128 < 256 by omega)
    refine (utf8ToCodepoint_two rest (by omega)).trans ?_
    rw [hfirst, hsecond]
    exact congrArg (fun n => Except.ok (n, 2)) (by omega)
  · have hfirst := ofNat_toNat (show c.toNat / 4096 % 16 + 224 < 256 by omega)
    have hsecond := ofNat_toNat (show c.toNat / 64 % 64 + 128 < 256 by omega)
    have hthird := ofNat_toNat (show c.toNat % 64 + 128 < 256 by omega)
    refine (utf8ToCodepoint_three rest (by omega) (by omega)).trans ?_
    rw [hfirst, hsecond, hthird]
    exact congrArg (fun n => Except.ok (n, 3)) (by omega)
  · have hfirst := ofNat_toNat (show c.toNat / 262144 % 8 + 240 < 256 by omega)
    have hsecond := ofNat_toNat (show c.toNat / 4096 % 64 + 128 < 256 by omega)
    have hthird := ofNat_toNat (show c.toNat / 64 % 64 + 128 < 256 by omega)
    have hfourth := ofNat_toNat (show c.toNat % 64 + 128 < 256 by omega)
    refine (utf8ToCodepoint_four rest (by omega)).trans ?_
    rw [hfirst, hsecond, hthird, hfourth]
    exact congrArg (fun n => Except.ok (n, 4)) (by omega)

variable {c : Char}

theorem map_cons_ascii (h : IsAscii c) :
    asciiToLower (asciiByte c) = asciiByte c.toLower ∧ IsAscii c.toLower := by
  have hall : ∀ n : Fin 128, asciiToLower (asciiByte (Char.ofNat n)) =
      asciiByte (Char.ofNat n).toLower ∧ IsAscii (Char.ofNat n).toLower := by
    decide +kernel
  have hc := hall ⟨c.toNat, h⟩
  rwa [Char.ofNat_toNat] at hc

/-- The first byte of a character says whether it is ASCII. -/
theorem and_high_bit_lead {lead : UInt8} {cont : Bytes}
    (hc : String.utf8EncodeChar c = lead :: cont) : lead &&& 0x80 = 0 ↔ IsAscii c := by
  rw [and_high_bit]
  rcases encodeChar_cases c with ⟨hascii, h⟩ | ⟨hascii, lead', cont', h, hlead, -⟩
  · cases h.symm.trans hc
    have hlt : c.toNat < 128 := hascii
    refine iff_of_true ?_ hascii
    rwa [ofNat_toNat (by omega)]
  · cases h.symm.trans hc
    exact iff_of_false (by omega) hascii

theorem drop_size {lead : UInt8} {cont rest : Bytes} :
    (cont ++ rest).drop ((lead :: cont).length - 1) = rest := by
  rw [List.length_cons, Nat.add_sub_cancel, List.drop_left]

/-- The length and the bytes of the characters in lowercase. -/
theorem lowerCase_encode (h : SimpleLowercase codepointToLower lower) (string : List Char) :
    lowerLength codepointToLower (encode string) = .ok (encode (string.map lower)).length ∧
      lowerCase codepointToLower (encode string) = .ok (encode (string.map lower)) := by
  induction string with
  | nil => exact ⟨lowerLength.eq_1 _, lowerCase.eq_1 _⟩
  | cons c string ih =>
      obtain ⟨hlength, hbytes⟩ := ih
      obtain ⟨lead, cont, hc, -, -⟩ := encodeChar_cons c
      have hhigh := and_high_bit_lead hc
      rw [List.map_cons, encode_cons, encode_cons, List.length_append]
      by_cases hascii : IsAscii c
      · have hc' := encodeChar_ascii hascii
        obtain ⟨hlower, hlowerAscii⟩ := map_cons_ascii hascii
        rw [h.ascii c hascii, encodeChar_ascii hlowerAscii, hc', List.singleton_append,
          List.singleton_append]
        cases hc'.symm.trans hc
        constructor
        · rw [lowerLength, if_pos (hhigh.mpr hascii), hlength]
          rfl
        · rw [lowerCase, if_neg (not_not.mpr (hhigh.mpr hascii)), hbytes]
          exact congrArg (fun b => Except.ok (b :: _)) hlower
      · have hread := utf8ToCodepoint_char c (encode string)
        have hlow : ¬ lead &&& 0x80 = 0 := fun heq => hascii (hhigh.mp heq)
        rw [hc, List.cons_append] at hread
        rw [hc, List.cons_append]
        constructor
        · rw [lowerLength, if_neg hlow, hread]
          simp only [bind, Except.bind, h.codepoint, codepointLength_char, drop_size, hlength]
          rfl
        · rw [lowerCase, if_pos hlow, hread]
          simp only [bind, Except.bind, h.codepoint, codepointToUtf8_char, drop_size, hbytes]
          rfl

theorem lowered_encode (h : SimpleLowercase codepointToLower lower) (string : List Char) :
    lowered codepointToLower (encode string) = .ok (encode (string.map lower)) := by
  obtain ⟨hlength, hbytes⟩ := lowerCase_encode h string
  rw [lowered, hlength, hbytes]
  exact congrArg Except.ok List.take_length

/-! ## LIKE on characters -/

def IsLike (escape : Option Char) (pattern string : List Char) : Prop :=
  ∃ tokens, likeTokens escape pattern = some tokens ∧ Divides tokens string

def Decides (result : Except LikeError Bool) (p : Prop) : Prop :=
  ∃ verdict, result = .ok verdict ∧ (verdict = true ↔ p)

variable {result : Except LikeError Bool}

theorem Decides.eq {result' : Except LikeError Bool} {p p' : Prop} (h : Decides result p)
    (h' : Decides result' p') (hp : p ↔ p') : result = result' := by
  obtain ⟨verdict, rfl, hverdict⟩ := h
  obtain ⟨verdict', rfl, hverdict'⟩ := h'
  rw [Bool.eq_iff_iff.mpr (hverdict.trans (hp.trans hverdict'.symm))]

variable {escape : Option Char} {pattern : List Char}

theorem isLike_iff {tokens : List LikeToken} (h : likeTokens escape pattern = some tokens)
    (string : List Char) : IsLike escape pattern string ↔ Divides tokens string := by
  constructor
  · rintro ⟨tokens', htokens', hdivides⟩
    cases h.symm.trans htokens'
    exact hdivides
  · exact fun hdivides => ⟨tokens, h, hdivides⟩

/-- The operator, where every escape character is followed by a character. -/
theorem like_decides (hescape : ∀ c ∈ escape, IsAscii c) (h : (likeTokens escape pattern).isSome)
    (string : List Char) :
    Decides (templatedLikeOperator standardCharacterReader (escape.map asciiByte) (encode string)
      (encode pattern)) (IsLike escape pattern string) := by
  obtain ⟨tokens, htokens⟩ := Option.isSome_iff_exists.mp h
  obtain ⟨verdict, hverdict, hiff⟩ := templatedLikeOperator_iff hescape htokens string
  exact ⟨verdict, hverdict, hiff.trans (isLike_iff htokens string).symm⟩

theorem no_escape : ∀ c ∈ (none : Option Char), IsAscii c := fun _ h => by cases h

theorem likeOperatorFunction_decides (pattern string : List Char) :
    Decides (likeOperatorFunction (encode string) (encode pattern))
      (IsLike none pattern string) :=
  like_decides no_escape (by rw [likeTokens_none]; rfl) string

theorem matchBytes_iff {escape : UInt8} {m : LikeMatcher}
    (h : createLikeMatcher (encode pattern) escape = some m) (string : List Char) :
    m.matchBytes (encode string) = true ↔ IsLike none pattern string := by
  have htokens := likeTokens_none pattern
  have hbytes := byteTokens_encode no_escape htokens
  rw [createLikeMatcher_matches h hbytes, isLike_iff htokens, ← matches_iff_divides]
  exact matches_encode

/-! ## ILIKE is LIKE in lowercase -/

def escapeString (escape : Option Char) : Bytes := (escape.map asciiByte).toList

/-- LIKE on the characters in lowercase, and with the escape character in lowercase. -/
def lowerLike (lower : Char → Char) (escape : Option Char) (string pattern : List Char) :
    Except LikeError Bool :=
  templatedLikeOperator standardCharacterReader ((escape.map Char.toLower).map asciiByte)
    (encode (string.map lower)) (encode (pattern.map lower))

theorem ilikeOperatorFunctionInternal_eq (h : SimpleLowercase codepointToLower lower)
    (hescape : ∀ c ∈ escape, IsAscii c) (string pattern : List Char) :
    ilikeOperatorFunctionInternal codepointToLower (escape.map asciiByte) (encode string)
      (encode pattern) = lowerLike lower escape string pattern := by
  rw [ilikeOperatorFunctionInternal, lowered_encode h, lowered_encode h]
  cases escape with
  | none => rfl
  | some c =>
      have hlower : characterToLower (asciiByte c) = asciiByte c.toLower :=
        (map_cons_ascii (hescape c rfl)).1
      show likeOperatorFunctionEscape _ _ (characterToLower (asciiByte c)) = _
      rw [hlower]
      rfl

theorem ilikeEscapeOperator_eq (h : SimpleLowercase codepointToLower lower)
    (hescape : ∀ c ∈ escape, IsAscii c) (string pattern : List Char) :
    ilikeEscapeOperator codepointToLower (encode string) (encode pattern) (escapeString escape) =
      lowerLike lower escape string pattern := by
  rw [← ilikeOperatorFunctionInternal_eq h hescape]
  cases escape with
  | none => rfl
  | some c => rfl

variable {string : List Char}

theorem matcher_eq {pattern : List Char} {result : Except LikeError Bool} {string : List Char}
    (h : createLikeMatcher (encode pattern) 0 = none →
      result = likeOperatorFunction (encode string) (encode pattern)) :
    (match createLikeMatcher (encode pattern) 0 with
      | some matcher => .ok (matcher.matchBytes (encode string))
      | none => result) = likeOperatorFunction (encode string) (encode pattern) := by
  cases hmatcher : createLikeMatcher (encode pattern) 0 with
  | none => exact h hmatcher
  | some m =>
      have hmatch : Decides (.ok (m.matchBytes (encode string))) (IsLike none pattern string) :=
        ⟨_, rfl, matchBytes_iff hmatcher string⟩
      exact hmatch.eq (likeOperatorFunction_decides pattern string) Iff.rfl

theorem ilikeFunction_eq (h : SimpleLowercase codepointToLower lower)
    (string pattern : List Char) :
    ilikeFunction codepointToLower (encode pattern) (encode string) =
      lowerLike lower none string pattern := by
  rw [ilikeFunction, lowered_encode h, lowered_encode h]
  exact matcher_eq fun _ => rfl

theorem likeTokens_of_not_mem (h : c ∉ pattern) :
    likeTokens (some c) pattern = likeTokens none pattern := by
  induction pattern with
  | nil => rfl
  | cons d pattern ih =>
      rw [List.mem_cons, not_or] at h
      have hne : some c ≠ some d := fun heq => h.1 (Option.some.inj heq)
      rw [likeTokens_plain hne, likeTokens_plain (Option.some_ne_none d).symm, ih h.2]

theorem like_of_not_mem (hc : IsAscii c) (h : c ∉ pattern) (string : List Char) :
    likeOperatorFunctionEscape (encode string) (encode pattern) (asciiByte c) =
      likeOperatorFunction (encode string) (encode pattern) := by
  have htokens := likeTokens_of_not_mem h
  have hsome : (likeTokens (some c) pattern).isSome := by
    rw [htokens, likeTokens_none]
    rfl
  have hescape : ∀ d ∈ some c, IsAscii d := by simpa using hc
  have hdecides := like_decides hescape hsome string
  refine hdecides.eq (likeOperatorFunction_decides pattern string) ?_
  rw [IsLike, IsLike, htokens]

theorem asciiByte_mem_encode (hc : IsAscii c) (h : c ∈ pattern) : asciiByte c ∈ encode pattern := by
  refine List.mem_flatMap.mpr ⟨c, h, ?_⟩
  rw [encodeChar_ascii hc]
  exact List.mem_singleton_self _

theorem ilikeEscapeFunction_eq (h : SimpleLowercase codepointToLower lower)
    (hescape : ∀ c ∈ escape, IsAscii c) (string pattern : List Char) :
    ilikeEscapeFunction codepointToLower (encode pattern) (escapeString escape) (encode string) =
      lowerLike lower escape string pattern := by
  cases escape with
  | none =>
      have hnone : getEscapeChar (escapeString none) = .ok 0 := rfl
      rw [ilikeEscapeFunction, hnone, lowered_encode h, lowered_encode h]
      exact matcher_eq fun _ => rfl
  | some c =>
      obtain ⟨hlower, hascii⟩ := map_cons_ascii (hescape c rfl)
      have hsome : (getEscapeChar (escapeString (some c))).map characterToLower =
          .ok (asciiByte c.toLower) := congrArg Except.ok hlower
      rw [ilikeEscapeFunction, hsome, lowered_encode h, lowered_encode h]
      simp only [bind, Except.bind]
      by_cases hmem : (StringSearch.memchr (encode (pattern.map lower))
          (asciiByte c.toLower)).isSome
      · -- the operator with an escape character
        rw [if_pos ⟨by simp [escapeString], hmem⟩]
        rfl
      · rw [if_neg fun hand => hmem hand.2]
        have hnot : c.toLower ∉ pattern.map lower := by
          intro hin
          rw [Option.not_isSome_iff_eq_none, StringSearch.memchr, List.findIdx?_eq_none_iff] at hmem
          have hne := hmem _ (asciiByte_mem_encode hascii hin)
          simp at hne
        have hplain := like_of_not_mem hascii hnot (string.map lower)
        refine (matcher_eq fun _ => ?_).trans hplain.symm
        exact hplain

/-! ## The operator on ASCII strings -/

theorem byteTokens_none (reader : CharacterReader) (bytes : Bytes) :
    byteTokens reader none bytes = some (bytes.map fun b => byteToken (reader.operation b)) := by
  induction bytes with
  | nil => rfl
  | cons b bytes ih =>
      rw [byteTokens_plain (Option.some_ne_none _).symm, ih]
      rfl

theorem asciiToLower_lt {b : UInt8} (h : b.toNat < 128) : (asciiToLower b).toNat < 128 := by
  unfold asciiToLower
  split
  · rename_i hb
    rw [UInt8.le_iff_toNat_le, UInt8.le_iff_toNat_le] at hb
    rw [UInt8.toNat_add]
    simp only [UInt8.reduceToNat] at hb ⊢
    omega
  · exact h

theorem asciiToLower_large {b : UInt8} (h : 128 ≤ b.toNat) : asciiToLower b = b := by
  unfold asciiToLower
  rw [if_neg]
  rintro ⟨-, hle⟩
  rw [UInt8.le_iff_toNat_le] at hle
  simp only [UInt8.reduceToNat] at hle
  omega

theorem matches_asciiReader {tokens : List ByteToken} {bytes : Bytes}
    (hbytes : ∀ b ∈ bytes, b.toNat < 128) :
    Matches (tokens.map (ByteToken.token asciiLCaseReader)) bytes ↔
      Matches (tokens.map (ByteToken.token standardCharacterReader)) (bytes.map asciiToLower) := by
  induction tokens generalizing bytes with
  | nil => exact List.map_eq_nil_iff.symm
  | cons t tokens ih =>
      have hsuffix {rest : Bytes} (h : rest <:+ bytes) : ∀ b ∈ rest, b.toNat < 128 :=
        fun b hb => hbytes b (h.subset hb)
      cases t with
      | star =>
          constructor
          · rintro ⟨rest, hrest, hmatch⟩
            exact ⟨_, hrest.map _, (ih (hsuffix hrest)).mp hmatch⟩
          · rintro ⟨rest, hrest, hmatch⟩
            obtain ⟨rest', hrest', rfl⟩ : ∃ rest', rest' <:+ bytes ∧
                rest = rest'.map asciiToLower := by
              rw [List.suffix_iff_eq_drop, ← List.map_drop] at hrest
              exact ⟨_, List.drop_suffix _ _, hrest⟩
            exact ⟨rest', hrest', (ih (hsuffix hrest')).mpr hmatch⟩
      | next =>
          cases bytes with
          | nil =>
              refine iff_of_false ?_ ?_
              · rintro ⟨rest, htake, -⟩
                cases htake
              · rintro ⟨rest, htake, -⟩
                cases htake
          | cons b bytes =>
              have hrest := hsuffix (List.suffix_cons b bytes)
              have hskip : (bytes.map asciiToLower).dropWhile (fun b => !isCharacter b) =
                  bytes.map asciiToLower := by
                cases bytes with
                | nil => rfl
                | cons d bytes =>
                    rw [List.map_cons, List.dropWhile_cons_of_neg]
                    rw [Bool.not_eq_true', isCharacter_eq_false]
                    intro hcont
                    have hlt := asciiToLower_lt (hrest d List.mem_cons_self)
                    exact hlt.not_ge hcont.1
              constructor
              · rintro ⟨rest, htake, hmatch⟩
                cases htake
                exact ⟨_, congrArg some hskip, (ih hrest).mp hmatch⟩
              · rintro ⟨rest, htake, hmatch⟩
                obtain rfl := hskip.symm.trans (Option.some.inj htake)
                exact ⟨bytes, rfl, (ih hrest).mpr hmatch⟩
      | byte d =>
          constructor
          · rintro ⟨rest, htake, hmatch⟩
            obtain ⟨b, rfl, hb⟩ := takeOne_eq_some.mp htake
            exact ⟨_, takeOne_eq_some.mpr ⟨asciiToLower b, rfl, hb⟩,
              (ih (hsuffix (List.suffix_cons _ _))).mp hmatch⟩
          · rintro ⟨rest, htake, hmatch⟩
            obtain ⟨b', hcons, hb⟩ := takeOne_eq_some.mp htake
            obtain ⟨b, bytes, rfl, rfl, rfl⟩ := List.map_eq_cons_iff.mp hcons
            exact ⟨bytes, takeOne_eq_some.mpr ⟨b, rfl, hb⟩,
              (ih (hsuffix (List.suffix_cons _ _))).mpr hmatch⟩

theorem encode_ascii (h : ∀ c ∈ string, IsAscii c) : ∀ b ∈ encode string, b.toNat < 128 := by
  intro b hb
  obtain ⟨c, hc, hmem⟩ := List.mem_flatMap.mp hb
  rw [encodeChar_ascii (h c hc), List.mem_singleton] at hmem
  rw [hmem]
  exact asciiByte_toNat (h c hc)

theorem toLower_of_not_ascii (h : ¬ IsAscii c) : c.toLower = c := by
  unfold Char.toLower
  rw [dif_neg]
  rintro ⟨-, hle⟩
  exact h (lt_of_le_of_lt (UInt32.le_iff_toNat_le.mp hle) (by decide))

theorem map_asciiToLower (string : List Char) :
    (encode string).map asciiToLower = encode (string.map Char.toLower) := by
  induction string with
  | nil => rfl
  | cons c string ih =>
      rw [encode_cons, List.map_append, ih, List.map_cons, encode_cons]
      congr 1
      by_cases hascii : IsAscii c
      · obtain ⟨hlower, hlowerAscii⟩ := map_cons_ascii hascii
        rw [encodeChar_ascii hascii, encodeChar_ascii hlowerAscii]
        exact congrArg (fun b => [b]) hlower
      · rw [toLower_of_not_ascii hascii]
        rcases encodeChar_cases c with ⟨h, -⟩ | ⟨-, lead, cont, hc, hlead, hcont⟩
        · exact absurd h hascii
        · rw [hc, List.map_cons, asciiToLower_large (by omega)]
          congr 1
          refine (List.map_congr_left fun b hb => ?_).trans (List.map_id _)
          exact asciiToLower_large (hcont b hb).1

/-- The operator on ASCII strings lowercases the ASCII characters of the pattern only. -/
theorem ilikeOperatorASCII_decides (h : ∀ c ∈ string, IsAscii c) (pattern : List Char) :
    Decides (ilikeOperatorASCII (encode string) (encode pattern))
      (IsLike none (pattern.map Char.toLower) (string.map Char.toLower)) := by
  have hreader : (none : Option UInt8) ≠ none → ∀ b, asciiLCaseReader.operation b = b :=
    fun hne => absurd rfl hne
  obtain ⟨verdict, hverdict, hiff⟩ := templatedLikeOperator_answers hreader
    (byteTokens_none _ (encode pattern)) (encode string)
  refine ⟨verdict, hverdict, hiff.trans ?_⟩
  have htokens := likeTokens_none (pattern.map Char.toLower)
  have hbytes := byteTokens_encode no_escape htokens
  have hmap : (encode pattern).map (fun b => byteToken (asciiLCaseReader.operation b)) =
      ((pattern.map Char.toLower).map likeToken).flatMap LikeToken.bytes := by
    rw [← map_asciiToLower] at hbytes
    have heq := (byteTokens_none standardCharacterReader _).symm.trans hbytes
    rw [List.map_map] at heq
    exact Option.some.inj heq
  rw [hmap, matches_asciiReader (encode_ascii h), map_asciiToLower, isLike_iff htokens,
    ← matches_iff_divides]
  exact matches_encode

/-! ## Where the operators agree -/

/-- All operators agree with the definition, and those in lowercase with LIKE in lowercase. -/
structure Agree (codepointToLower : Nat → Nat) (lower : Char → Char) (escape : Option Char)
    (string pattern : List Char) : Prop where
  like : (likeTokens escape pattern).isSome →
    Decides (templatedLikeOperator standardCharacterReader (escape.map asciiByte) (encode string)
      (encode pattern)) (IsLike escape pattern string)
  matcher : ∀ escapeByte m, createLikeMatcher (encode pattern) escapeByte = some m →
    (m.matchBytes (encode string) = true ↔ IsLike none pattern string)
  ilike : ilikeOperatorFunction codepointToLower (encode string) (encode pattern) =
    lowerLike lower none string pattern
  ilikeConstant : ilikeFunction codepointToLower (encode pattern) (encode string) =
    lowerLike lower none string pattern
  ilikeEscape : ilikeEscapeOperator codepointToLower (encode string) (encode pattern)
    (escapeString escape) = lowerLike lower escape string pattern
  ilikeEscapeConstant : ilikeEscapeFunction codepointToLower (encode pattern)
    (escapeString escape) (encode string) = lowerLike lower escape string pattern
  ascii : (∀ c ∈ string, IsAscii c) →
    ilikeOperatorASCII (encode string) (encode pattern) = lowerLike lower none string pattern

theorem map_lower_ascii (h : SimpleLowercase codepointToLower lower)
    (hascii : ∀ c ∈ string, IsAscii c) : string.map lower = string.map Char.toLower :=
  List.map_congr_left fun c hc => h.ascii c (hascii c hc)

/-- A character of the pattern that stands for itself occurs in the string. -/
theorem mem_of_isLike (hc : likeToken c = .char c) (hmem : c ∈ pattern)
    (h : IsLike none pattern string) : c ∈ string := by
  rw [isLike_iff (likeTokens_none pattern), ← matches_iff_divides] at h
  induction pattern generalizing string with
  | nil => exact absurd hmem List.not_mem_nil
  | cons d pattern ih =>
      rw [List.map_cons, List.map_cons] at h
      rcases List.mem_cons.mp hmem with rfl | hmem
      · rw [hc] at h
        obtain ⟨rest, htake, -⟩ := h
        obtain ⟨c', rfl, heq⟩ := takeOne_eq_some.mp htake
        simp_all
      · cases htoken : (likeToken d).token with
        | star =>
            rw [htoken] at h
            obtain ⟨rest, hrest, hmatch⟩ := h
            exact hrest.subset (ih hmem hmatch)
        | take f =>
            rw [htoken] at h
            obtain ⟨rest, htake, hmatch⟩ := h
            have hrest : rest <:+ string := by
              cases ht : likeToken d with
              | percent =>
                  rw [ht] at htoken
                  cases htoken
              | underscore =>
                  rw [ht] at htoken
                  cases htoken
                  obtain ⟨c', rfl, -⟩ := takeOne_eq_some.mp htake
                  exact List.suffix_cons _ _
              | char e =>
                  rw [ht] at htoken
                  cases htoken
                  obtain ⟨c', rfl, -⟩ := takeOne_eq_some.mp htake
                  exact List.suffix_cons _ _
            exact hrest.subset (ih hmem hmatch)

theorem likeToken_of_not_ascii (h : ¬ IsAscii c) : likeToken c = .char c := by
  unfold likeToken
  rw [if_neg, if_neg]
  all_goals
    rintro rfl
    exact h (by decide)

/-- Without its percent signs a pattern is a string that is like it. -/
theorem isLike_filter (pattern : List Char) :
    IsLike none pattern (pattern.filter (· ≠ '%')) := by
  rw [isLike_iff (likeTokens_none pattern), ← matches_iff_divides]
  induction pattern with
  | nil => rfl
  | cons c pattern ih =>
      rw [List.map_cons, List.map_cons, likeToken]
      by_cases hunderscore : c = '_'
      · subst hunderscore
        exact ⟨_, rfl, ih⟩
      · rw [if_neg hunderscore]
        by_cases hpercent : c = '%'
        · subst hpercent
          exact ⟨_, List.suffix_refl _, ih⟩
        · rw [if_neg hpercent, List.filter_cons_of_pos (by simpa using hpercent)]
          exact ⟨_, takeOne_eq_some.mpr ⟨c, rfl, by simp⟩, ih⟩

/-- A pattern that requires a larger character in lowercase is like no ASCII string. -/
theorem not_isLike_of_lower (hc : c ∈ pattern) (hlarge : ¬ IsAscii c)
    (hstring : ∀ c ∈ string, IsAscii c) : ¬ IsLike none pattern string :=
  fun h => hlarge (hstring c (mem_of_isLike (likeToken_of_not_ascii hlarge) hc h))

theorem ascii_agrees (h : SimpleLowercase codepointToLower lower)
    (hpattern : (∀ c ∈ pattern, IsAscii c) ∨ ∃ c ∈ pattern, ¬ IsAscii (lower c))
    (hstring : ∀ c ∈ string, IsAscii c) :
    ilikeOperatorASCII (encode string) (encode pattern) = lowerLike lower none string pattern := by
  have hmap := map_lower_ascii h hstring
  refine (ilikeOperatorASCII_decides hstring pattern).eq
    (likeOperatorFunction_decides (pattern.map lower) (string.map lower)) ?_
  rw [hmap]
  rcases hpattern with hascii | ⟨c, hc, hlarge⟩
  · rw [map_lower_ascii h hascii]
  · have hlower : ∀ c ∈ string.map Char.toLower, IsAscii c := by
      intro d hd
      obtain ⟨e, he, rfl⟩ := List.mem_map.mp hd
      exact (map_cons_ascii (hstring e he)).2
    have hlarge' : ¬ IsAscii c := by
      intro hc'
      rw [h.ascii c hc'] at hlarge
      exact hlarge (map_cons_ascii hc').2
    have hsame := toLower_of_not_ascii hlarge'
    refine iff_of_false (not_isLike_of_lower (c := c) ?_ hlarge' hlower)
      (not_isLike_of_lower (List.mem_map_of_mem hc) hlarge hlower)
    exact List.mem_map.mpr ⟨c, hc, hsame⟩

theorem ascii_missed (h : SimpleLowercase codepointToLower lower) (hc : c ∈ pattern)
    (hlarge : ¬ IsAscii c) (hlower : ∀ c ∈ pattern, IsAscii (lower c)) :
    ∃ string : List Char, (∀ c ∈ string, IsAscii c) ∧
      ilikeOperatorASCII (encode string) (encode pattern) = .ok false ∧
      lowerLike lower none string pattern = .ok true := by
  obtain ⟨string, hstring⟩ : ∃ string, string = (pattern.map lower).filter (· ≠ '%') := ⟨_, rfl⟩
  have hmem {d : Char} (hd : d ∈ string) : ∃ e ∈ pattern, lower e = d := by
    rw [hstring] at hd
    exact List.mem_map.mp (List.mem_of_mem_filter hd)
  have hascii : ∀ d ∈ string, IsAscii d := by
    intro d hd
    obtain ⟨e, he, rfl⟩ := hmem hd
    exact hlower e he
  have hsame : string.map lower = string := by
    refine (List.map_congr_left fun d hd => ?_).trans (List.map_id _)
    obtain ⟨e, -, rfl⟩ := hmem hd
    exact h.idempotent e
  refine ⟨string, hascii, ?_, ?_⟩
  · obtain ⟨verdict, hverdict, hiff⟩ := ilikeOperatorASCII_decides hascii pattern
    rw [hverdict]
    have hnot : ¬ IsLike none (pattern.map Char.toLower) (string.map Char.toLower) := by
      rw [← map_lower_ascii h hascii, hsame]
      exact not_isLike_of_lower (List.mem_map.mpr ⟨c, hc, toLower_of_not_ascii hlarge⟩) hlarge
        hascii
    rw [Bool.eq_false_iff.mpr fun htrue => hnot (hiff.mp htrue)]
  · obtain ⟨verdict, hverdict, hiff⟩ :=
      likeOperatorFunction_decides (pattern.map lower) (string.map lower)
    refine hverdict.trans (congrArg Except.ok (hiff.mpr ?_))
    rw [hsame, hstring]
    exact isLike_filter _

/-- All operators agree on a pattern, for every string and escape character, if the pattern is
ASCII or has a character with a lowercase that is not, and for no other pattern. -/
theorem implementations_agree_iff (h : SimpleLowercase codepointToLower lower)
    (pattern : List Char) :
    (∀ (escape : Option Char) (string : List Char), (∀ c ∈ escape, IsAscii c) →
      Agree codepointToLower lower escape string pattern) ↔
      (∀ c ∈ pattern, IsAscii c) ∨ ∃ c ∈ pattern, ¬ IsAscii (lower c) := by
  constructor
  · intro hagree
    by_contra hcontra
    push Not at hcontra
    obtain ⟨⟨c, hc, hlarge⟩, hlower⟩ := hcontra
    obtain ⟨string, hascii, hmissed, htrue⟩ := ascii_missed h hc hlarge hlower
    have heq := (hagree none string no_escape).ascii hascii
    rw [hmissed, htrue] at heq
    cases heq
  · intro hpattern escape string hescape
    exact {
      like := fun hsome => like_decides hescape hsome string
      matcher := fun _ _ hmatcher => matchBytes_iff hmatcher string
      ilike := ilikeOperatorFunctionInternal_eq h no_escape string pattern
      ilikeConstant := ilikeFunction_eq h string pattern
      ilikeEscape := ilikeEscapeOperator_eq h hescape string pattern
      ilikeEscapeConstant := ilikeEscapeFunction_eq h hescape string pattern
      ascii := ascii_agrees h hpattern }

def kelvinSign : Char := '\u212A'

def kelvinToLower (c : Char) : Char := if c = kelvinSign then 'k' else c.toLower

theorem kelvinToLower_simple :
    SimpleLowercase (fun cp => (kelvinToLower (Char.ofNat cp)).toNat) kelvinToLower where
  codepoint c := by rw [Char.ofNat_toNat]
  ascii c h := by
    refine if_neg ?_
    rintro rfl
    exact absurd h (by decide)
  idempotent c := by
    by_cases hascii : IsAscii c
    · have hall : ∀ n : Fin 128, kelvinToLower (kelvinToLower (Char.ofNat n)) =
          kelvinToLower (Char.ofNat n) := by
        decide +kernel
      have hc := hall ⟨c.toNat, hascii⟩
      rwa [Char.ofNat_toNat] at hc
    · by_cases hkelvin : c = kelvinSign
      · subst hkelvin
        decide
      · have hsame : kelvinToLower c = c :=
          (if_neg hkelvin).trans (toLower_of_not_ascii hascii)
        rw [hsame, hsame]

theorem implementations_agree_kelvin :
    (∀ (escape : Option Char) (string : List Char), (∀ c ∈ escape, IsAscii c) →
      Agree (fun cp => (kelvinToLower (Char.ofNat cp)).toNat) kelvinToLower escape string
        [kelvinSign, '%']) ↔
      (∀ c ∈ [kelvinSign, '%'], IsAscii c) ∨ ∃ c ∈ [kelvinSign, '%'], ¬ IsAscii (kelvinToLower c) :=
  implementations_agree_iff kelvinToLower_simple [kelvinSign, '%']

/-- `'k' ILIKE '\u212A'`, where the column is ASCII and where it is not. -/
theorem kelvin_missed :
    ilikeOperatorASCII (encode ['k']) (encode [kelvinSign]) = .ok false ∧
      ilikeOperatorFunction (fun cp => (kelvinToLower (Char.ofNat cp)).toNat) (encode ['k'])
        (encode [kelvinSign]) = .ok true ∧
      ¬ Agree (fun cp => (kelvinToLower (Char.ofNat cp)).toNat) kelvinToLower none ['k']
        [kelvinSign] := by
  have hascii : ∀ c ∈ ['k'], IsAscii c := List.forall_mem_singleton.mpr (by decide)
  have hmissed : ilikeOperatorASCII (encode ['k']) (encode [kelvinSign]) = .ok false := by
    obtain ⟨verdict, hverdict, hiff⟩ := ilikeOperatorASCII_decides hascii [kelvinSign]
    have hlarge : ¬ IsAscii kelvinSign := by decide
    have hmem : kelvinSign ∈ [kelvinSign].map Char.toLower :=
      List.mem_map.mpr ⟨kelvinSign, List.mem_singleton_self _, toLower_of_not_ascii hlarge⟩
    have hk : ∀ c ∈ ['k'].map Char.toLower, IsAscii c := List.forall_mem_singleton.mpr (by decide)
    have hnot := not_isLike_of_lower hmem hlarge hk
    rw [hverdict, Bool.eq_false_iff.mpr fun htrue => hnot (hiff.mp htrue)]
  have hlower : lowerLike kelvinToLower none ['k'] [kelvinSign] = .ok true := by
    obtain ⟨verdict, hverdict, hiff⟩ := likeOperatorFunction_decides
      ([kelvinSign].map kelvinToLower) (['k'].map kelvinToLower)
    refine hverdict.trans (congrArg Except.ok (hiff.mpr ?_))
    have hkelvin : kelvinToLower kelvinSign = 'k' := if_pos rfl
    have hk : kelvinToLower 'k' = 'k' := by decide
    rw [List.map_singleton, List.map_singleton, hkelvin, hk]
    exact isLike_filter ['k']
  refine ⟨hmissed, ?_, fun hagree => ?_⟩
  · rw [← hlower]
    exact ilikeOperatorFunctionInternal_eq kelvinToLower_simple no_escape ['k'] [kelvinSign]
  · have heq := hagree.ascii hascii
    rw [hmissed, hlower] at heq
    cases heq

end Like
end MiniDuck
