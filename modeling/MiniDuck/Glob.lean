import MiniDuck.Wildcard

/-!
# Glob patterns

`Glob` is a wildcard search over the bytes of a string. It reads the pattern
byte by byte and scans a bracket expression again for every byte of the
string that it is compared with. `globTokens` reads the pattern once and
fails if it is not well-formed; on the others the two agree
(`globSwitch_handles`), so that `Glob` says whether the string can be
divided among the tokens (`glob_iff`).
-/

namespace MiniDuck
namespace Glob

open Wildcard

abbrev Bytes : Type := List UInt8

def asterisk : UInt8 := 42

def questionMark : UInt8 := 63

def openBracket : UInt8 := 91

def closeBracket : UInt8 := 93

def backslash : UInt8 := 92

def exclamationMark : UInt8 := 33

def hyphen : UInt8 := 45

/-- The value of a `char`, which is signed on some platforms. -/
def charValue (signed : Bool) (b : UInt8) : Int := if signed then b.toInt8.toInt else b.toNat

variable (signed : Bool)

/-- `s >= p && s <= next_char`. -/
def inRange (s p next : UInt8) : Bool :=
  charValue signed s ≥ charValue signed p && charValue signed s ≤ charValue signed next

/-- Compares `s` with a bracket expression up to its end. The first character is literal. -/
def matchesBracketLoop (s : UInt8) (invert : Bool) : Bool → Bool → Bytes → Option (Bool × Bytes)
  | _, _, [] => none
  | first, found, p :: rest =>
      if p = closeBracket ∧ first = false then some (found, rest)
      else
        match rest with
        | [] => none
        | dash :: next :: rest' =>
            if dash = hyphen ∧ next ≠ closeBracket then
              let found := if found = invert ∧ inRange signed s p next then !invert else found
              matchesBracketLoop s invert false found rest'
            else
              let found := if found = invert ∧ p = s then !invert else found
              matchesBracketLoop s invert false found (dash :: next :: rest')
        | [b] =>
            let found := if found = invert ∧ p = s then !invert else found
            matchesBracketLoop s invert false found [b]

/-- `GlobMatchesBracket`: whether `s` matches, and the pattern after the bracket expression. -/
def globMatchesBracket (s : UInt8) (pattern : Bytes) : Option (Bool × Bytes) :=
  match pattern with
  | [] => none
  | p :: rest =>
      if p = exclamationMark then matchesBracketLoop signed s true true true rest
      else matchesBracketLoop signed s false true false (p :: rest)

variable (allowQuestionMark : Bool)

def globSwitch (pattern string : Bytes) : Outcome UInt8 Bool :=
  match string, pattern with
  | [], _ | _, [] => .mismatch
  | s :: string, p :: rest =>
      let compare (matched : Bool) (rest : Bytes) : Outcome UInt8 Bool :=
        if matched then .matched rest string else .mismatch
      if p = asterisk then
        match rest.dropWhile (· = asterisk) with
        | [] => .done true
        | rest => .star rest
      else if p = questionMark then compare (allowQuestionMark || s = p) rest
      else if p = openBracket then
        match globMatchesBracket signed s rest with
        | none => .done false
        | some (matched, rest) => compare matched rest
      else if p = backslash then
        match rest with
        | [] => .done false
        | p :: rest => compare (s = p) rest
      else compare (s = p) rest

/-! ## The tokens of a pattern -/

inductive Item
  | byte (b : UInt8)
  | range (first last : UInt8)
  deriving Repr, DecidableEq

def Item.has (c : UInt8) : Item → Bool
  | .byte b => b = c
  | .range first last => inRange signed c first last

inductive GlobToken
  | star
  | any
  | byte (b : UInt8)
  | bracket (invert : Bool) (items : List Item)
  deriving Repr, DecidableEq

def GlobToken.Takes : GlobToken → Bytes → Prop
  | .star, _ => True
  | .any, part => ∃ c, part = [c]
  | .byte b, part => part = [b]
  | .bracket invert items, part =>
      ∃ c, part = [c] ∧ (if invert then ∀ item ∈ items, ¬ item.has signed c else
        ∃ item ∈ items, item.has signed c)

/-- The items up to a closing bracket. It is literal at the front, and a hyphen before it is. -/
def bracketItems : Bool → Bytes → Option (List Item × Bytes)
  | _, [] => none
  | first, p :: rest =>
      if p = closeBracket ∧ first = false then some ([], rest)
      else
        match rest with
        | [] => none
        | dash :: next :: rest' =>
            if dash = hyphen ∧ next ≠ closeBracket then
              (bracketItems false rest').map fun r => (.range p next :: r.1, r.2)
            else (bracketItems false (dash :: next :: rest')).map fun r => (.byte p :: r.1, r.2)
        | [b] => (bracketItems false [b]).map fun r => (.byte p :: r.1, r.2)

def bracket (pattern : Bytes) : Option (GlobToken × Bytes) :=
  match pattern with
  | [] => none
  | p :: rest =>
      if p = exclamationMark then (bracketItems true rest).map fun r => (.bracket true r.1, r.2)
      else (bracketItems true (p :: rest)).map fun r => (.bracket false r.1, r.2)

variable {pattern rest : Bytes}

theorem bracketItems_suffix {first : Bool} {items : List Item}
    (h : bracketItems first pattern = some (items, rest)) :
    rest <:+ pattern ∧ rest.length < pattern.length := by
  have hlonger {rest pattern longer : Bytes} (h : rest <:+ pattern ∧ rest.length < pattern.length)
      (hsuffix : pattern <:+ longer) : rest <:+ longer ∧ rest.length < longer.length :=
    ⟨h.1.trans hsuffix, h.2.trans_le hsuffix.length_le⟩
  fun_induction bracketItems first pattern generalizing items rest with
  | case1 => cases h
  | case2 first p rest hclose =>
      cases h
      exact ⟨List.suffix_cons _ _, Nat.lt_succ_self _⟩
  | case3 => cases h
  | case4 first p hopen dash next rest hrange ih =>
      obtain ⟨⟨items, rest⟩, hitems, heq⟩ := Option.map_eq_some_iff.mp h
      cases heq
      exact hlonger (ih hitems) ⟨[p, dash, next], rfl⟩
  | case5 first p hopen dash next rest hrange ih =>
      obtain ⟨⟨items, rest⟩, hitems, heq⟩ := Option.map_eq_some_iff.mp h
      cases heq
      exact hlonger (ih hitems) ⟨[p], rfl⟩
  | case6 first p hopen b ih =>
      obtain ⟨⟨items, rest⟩, hitems, heq⟩ := Option.map_eq_some_iff.mp h
      cases heq
      exact hlonger (ih hitems) ⟨[p], rfl⟩

theorem bracket_suffix {token : GlobToken} (h : bracket pattern = some (token, rest)) :
    rest <:+ pattern ∧ rest.length < pattern.length := by
  unfold bracket at h
  split at h
  · cases h
  · rename_i p pattern
    split at h
    · obtain ⟨⟨items, rest⟩, hitems, heq⟩ := Option.map_eq_some_iff.mp h
      cases heq
      obtain ⟨hsuffix, hlt⟩ := bracketItems_suffix hitems
      exact ⟨hsuffix.trans (List.suffix_cons _ _), Nat.lt_succ_of_lt hlt⟩
    · obtain ⟨⟨items, rest⟩, hitems, heq⟩ := Option.map_eq_some_iff.mp h
      cases heq
      exact bracketItems_suffix hitems

/-- The token at the front of a pattern, if there is one and it is well-formed. -/
def globToken (pattern : Bytes) : Option (GlobToken × Bytes) :=
  match pattern with
  | [] => none
  | p :: rest =>
      if p = asterisk then some (.star, rest)
      else if p = questionMark then some (if allowQuestionMark then .any else .byte p, rest)
      else if p = openBracket then bracket rest
      else if p = backslash then
        match rest with
        | [] => none
        | b :: rest => some (.byte b, rest)
      else some (.byte p, rest)

theorem globToken_suffix {token : GlobToken}
    (h : globToken allowQuestionMark pattern = some (token, rest)) :
    rest <:+ pattern ∧ rest.length < pattern.length := by
  have hcons (p : UInt8) (rest : Bytes) : rest <:+ p :: rest ∧ rest.length < (p :: rest).length :=
    ⟨List.suffix_cons _ _, Nat.lt_succ_self _⟩
  unfold globToken at h
  split at h
  · cases h
  · rename_i p pattern
    split_ifs at h
    · cases h
      exact hcons _ _
    · cases h
      exact hcons _ _
    · cases h
      exact hcons _ _
    · obtain ⟨hsuffix, hlt⟩ := bracket_suffix h
      exact ⟨hsuffix.trans (List.suffix_cons _ _), Nat.lt_succ_of_lt hlt⟩
    · split at h
      · cases h
      · rename_i b rest'
        cases h
        exact ⟨⟨[p, b], rfl⟩, Nat.lt_succ_of_lt (Nat.lt_succ_self _)⟩
    · cases h
      exact hcons _ _

theorem globToken_asterisk (rest : Bytes) :
    globToken allowQuestionMark (asterisk :: rest) = some (.star, rest) := by
  simp [globToken]

theorem globToken_star (h : globToken allowQuestionMark pattern = some (.star, rest)) :
    pattern = asterisk :: rest := by
  unfold globToken at h
  split at h
  · cases h
  · rename_i p pattern
    split_ifs at h with hstar
    · cases h
      rw [hstar]
    · cases h
    · cases h
    · unfold bracket at h
      split at h
      · cases h
      · split_ifs at h
        all_goals
          obtain ⟨items, -, heq⟩ := Option.map_eq_some_iff.mp h
          cases heq
    · split at h <;> cases h
    · cases h

def globTokens (pattern : Bytes) : Option (List GlobToken) :=
  if pattern = [] then some []
  else
    match h : globToken allowQuestionMark pattern with
    | none => none
    | some (token, rest) => (globTokens rest).map (token :: ·)
termination_by pattern.length
decreasing_by exact (globToken_suffix allowQuestionMark h).2

variable {tokens : List GlobToken}

theorem globTokens_cons (h : globTokens allowQuestionMark pattern = some tokens) :
    (pattern = [] ∧ tokens = []) ∨ ∃ token rest tokens', tokens = token :: tokens' ∧
      globToken allowQuestionMark pattern = some (token, rest) ∧
        globTokens allowQuestionMark rest = some tokens' := by
  rw [globTokens] at h
  split at h
  · rename_i hnil
    exact .inl ⟨hnil, (Option.some.inj h).symm⟩
  · split at h
    · cases h
    · rename_i token rest htoken
      obtain ⟨tokens', htokens', heq⟩ := Option.map_eq_some_iff.mp h
      exact .inr ⟨token, rest, tokens', heq.symm, htoken, htokens'⟩

/-! ## The loop reads the tokens -/

theorem update_found : ∀ found invert hit others : Bool,
    (if (if found = invert ∧ hit = true then !invert else found) = invert ∧ others = false
      then invert else !invert) =
        if found = invert ∧ (hit || others) = false then invert else !invert := by
  decide

/-- The loop compares with every item, and only the first match counts. -/
theorem matchesBracketLoop_eq (s : UInt8) (invert first found : Bool) (pattern : Bytes) :
    matchesBracketLoop signed s invert first found pattern =
      (bracketItems first pattern).map fun r =>
        (if found = invert ∧ r.1.any (Item.has signed s) = false then invert else !invert,
          r.2) := by
  have hbyte (p : UInt8) (found others : Bool) :
      (if (if found = invert ∧ p = s then !invert else found) = invert ∧ others = false
        then invert else !invert) =
          if found = invert ∧ ((Item.byte p).has signed s || others) = false
            then invert else !invert := by
    rw [← update_found]
    simp only [Item.has, decide_eq_true_eq]
  fun_induction bracketItems first pattern generalizing found with
  | case1 => rfl
  | case2 first p rest hclose =>
      rw [matchesBracketLoop.eq_def]
      simp only
      rw [if_pos hclose, Option.map_some, List.any_nil]
      cases found <;> cases invert <;> rfl
  | case3 first p hopen =>
      rw [matchesBracketLoop.eq_def]
      simp only
      rw [if_neg hopen]
      rfl
  | case4 first p hopen dash next rest hrange ih =>
      rw [matchesBracketLoop.eq_def]
      simp only
      rw [if_neg hopen, if_pos hrange, ih, Option.map_map]
      refine Option.map_congr fun r _ => Prod.ext ?_ rfl
      exact update_found found invert (inRange signed s p next) _
  | case5 first p hopen dash next rest hrange ih =>
      rw [matchesBracketLoop.eq_def]
      simp only
      rw [if_neg hopen, if_neg hrange, ih, Option.map_map]
      exact Option.map_congr fun r _ => Prod.ext (hbyte p found _) rfl
  | case6 first p hopen b ih =>
      rw [matchesBracketLoop.eq_def]
      simp only
      rw [if_neg hopen, ih, Option.map_map]
      exact Option.map_congr fun r _ => Prod.ext (hbyte p found _) rfl

def GlobToken.accepts (c : UInt8) : GlobToken → Bool
  | .star => false
  | .any => true
  | .byte b => b = c
  | .bracket invert items => if items.any (Item.has signed c) then !invert else invert

/-- The bracket expression of a pattern is the one that is scanned. -/
theorem globMatchesBracket_eq (s : UInt8) (pattern : Bytes) :
    globMatchesBracket signed s pattern =
      (bracket pattern).map fun r => (r.1.accepts signed s, r.2) := by
  have haccepts (invert : Bool) (items : List Item) :
      (if invert = invert ∧ items.any (Item.has signed s) = false then invert else !invert) =
        (GlobToken.bracket invert items).accepts signed s := by
    rw [GlobToken.accepts]
    cases items.any (Item.has signed s) <;> simp
  cases pattern with
  | nil => rfl
  | cons p rest =>
      rw [globMatchesBracket, bracket]
      split
      · rw [matchesBracketLoop_eq, Option.map_map]
        exact Option.map_congr fun r _ => Prod.ext (haccepts true r.1) rfl
      · rw [matchesBracketLoop_eq, Option.map_map]
        exact Option.map_congr fun r _ => Prod.ext (haccepts false r.1) rfl

theorem globSwitch_cons (s p : UInt8) (string rest : Bytes) :
    globSwitch signed allowQuestionMark (p :: rest) (s :: string) =
      if p = asterisk then
        match rest.dropWhile (· = asterisk) with
        | [] => .done true
        | rest => .star rest
      else
        match globToken allowQuestionMark (p :: rest) with
        | none => .done false
        | some (token, rest) =>
            if token.accepts signed s then .matched rest string else .mismatch := by
  have hbyte (b : UInt8) (rest : Bytes) :
      (if (decide (s = b)) = true then Outcome.matched rest string else .mismatch) =
        if (GlobToken.byte b).accepts signed s = true then Outcome.matched rest string
          else (.mismatch : Outcome UInt8 Bool) := by
    by_cases hb : s = b
    · simp [GlobToken.accepts, hb]
    · simp [GlobToken.accepts, hb, Ne.symm hb]
  simp only [globSwitch, globToken]
  by_cases hstar : p = asterisk
  · rw [if_pos hstar, if_pos hstar]
  rw [if_neg hstar, if_neg hstar, if_neg hstar]
  by_cases hquestion : p = questionMark
  · rw [if_pos hquestion, if_pos hquestion]
    cases allowQuestionMark with
    | true => rfl
    | false => exact hbyte p rest
  rw [if_neg hquestion, if_neg hquestion]
  by_cases hbracket : p = openBracket
  · rw [if_pos hbracket, if_pos hbracket, globMatchesBracket_eq]
    cases bracket rest <;> rfl
  rw [if_neg hbracket, if_neg hbracket]
  by_cases hbackslash : p = backslash
  · rw [if_pos hbackslash, if_pos hbackslash]
    cases rest with
    | nil => rfl
    | cons b rest => exact hbyte b rest
  rw [if_neg hbackslash, if_neg hbackslash]
  exact hbyte p rest

theorem globSwitch_star {string pattern' : Bytes}
    (h : globSwitch signed allowQuestionMark pattern string = .star pattern') :
    ∃ rest, pattern = asterisk :: rest ∧ pattern' = rest.dropWhile (· = asterisk) := by
  match string, pattern with
  | [], _ => cases h
  | _ :: _, [] => cases h
  | s :: string, p :: rest =>
      rw [globSwitch_cons] at h
      split at h
      · rename_i hp
        split at h
        · cases h
        · cases h
          exact ⟨rest, by rw [hp], rfl⟩
      · split at h
        · cases h
        · split at h <;> cases h

theorem globSwitch_matched {string pattern' string' : Bytes}
    (h : globSwitch signed allowQuestionMark pattern string = .matched pattern' string') :
    ∃ token c, string = c :: string' ∧ token ≠ .star ∧
      globToken allowQuestionMark pattern = some (token, pattern') ∧
        token.accepts signed c = true := by
  match string, pattern with
  | [], _ => cases h
  | _ :: _, [] => cases h
  | s :: string, p :: rest =>
      rw [globSwitch_cons] at h
      split at h
      · split at h <;> cases h
      · split at h
        · cases h
        · rename_i token rest' htoken
          split at h
          · rename_i haccepts
            cases h
            refine ⟨token, s, rfl, ?_, htoken, haccepts⟩
            rintro rfl
            cases haccepts
          · cases h

/-- `Glob`, on the rest of the pattern and of the string. -/
def globLoop : Switch UInt8 Bool where
  verdict := id
  next := globSwitch signed allowQuestionMark
  finish := fun pattern => (pattern.dropWhile (· = asterisk)).isEmpty
  star_suffix := by
    intro pattern string pattern' hstar
    obtain ⟨rest, rfl, rfl⟩ := globSwitch_star signed allowQuestionMark hstar
    have hsuffix := List.dropWhile_suffix (fun b => decide (b = asterisk)) (l := rest)
    exact ⟨hsuffix.trans (List.suffix_cons _ _), Nat.lt_succ_of_le hsuffix.length_le⟩
  matched_suffix := by
    intro pattern string pattern' string' hmatched
    obtain ⟨token, c, rfl, -, htoken, -⟩ := globSwitch_matched signed allowQuestionMark hmatched
    exact ⟨globToken_suffix _ htoken, List.suffix_cons _ _, Nat.lt_succ_self _⟩

def glob (string pattern : Bytes) : Bool :=
  (globLoop signed allowQuestionMark).search (.start pattern string)

/-! ## Matching -/

def GlobToken.token (t : GlobToken) : Token UInt8 :=
  if t = .star then .star else .take (takeOne (t.accepts signed))

def decode (pattern : Bytes) : Option (List (Token UInt8)) :=
  (globTokens allowQuestionMark pattern).map (List.map (GlobToken.token signed))

theorem globTokens_dropWhile (h : globTokens allowQuestionMark pattern = some tokens) :
    ∃ n tokens', tokens = List.replicate n .star ++ tokens' ∧
      globTokens allowQuestionMark (pattern.dropWhile (· = asterisk)) = some tokens' := by
  induction pattern generalizing tokens with
  | nil => exact ⟨0, tokens, rfl, h⟩
  | cons p rest ih =>
      by_cases hp : p = asterisk
      · subst hp
        rcases globTokens_cons allowQuestionMark h with
          ⟨hnil, -⟩ | ⟨token, rest', tokens', rfl, htoken, htokens⟩
        · cases hnil
        · cases htoken.symm.trans (globToken_asterisk allowQuestionMark rest)
          obtain ⟨n, tokens', rfl, hrest⟩ := ih htokens
          exact ⟨n + 1, tokens', rfl, by rwa [List.dropWhile_cons_of_pos (by simp)]⟩
      · exact ⟨0, tokens, rfl, by rwa [List.dropWhile_cons_of_neg (by simpa using hp)]⟩

theorem GlobToken.token_take {t : GlobToken} (h : t ≠ .star) :
    t.token signed = .take (takeOne (t.accepts signed)) := if_neg h

theorem map_token_stars (n : Nat) (tokens : List GlobToken) :
    (List.replicate n GlobToken.star ++ tokens).map (GlobToken.token signed) =
      List.replicate n Token.star ++ tokens.map (GlobToken.token signed) := by
  rw [List.map_append, List.map_replicate]
  rfl

/-- After the stars the pattern ends or has another token. -/
theorem globTokens_front
    (h : globTokens allowQuestionMark (pattern.dropWhile (· = asterisk)) = some tokens) :
    (pattern.dropWhile (· = asterisk) = [] ∧ tokens = []) ∨
      ∃ p rest token tokens', pattern.dropWhile (· = asterisk) = p :: rest ∧
        tokens = token :: tokens' ∧ token ≠ .star := by
  rcases globTokens_cons allowQuestionMark h with hnil | ⟨token, rest, tokens', rfl, htoken, -⟩
  · exact .inl hnil
  · cases hpattern : pattern.dropWhile (· = asterisk) with
    | nil =>
        rw [hpattern] at htoken
        cases htoken
    | cons p rest' =>
        refine .inr ⟨p, rest', token, tokens', rfl, rfl, ?_⟩
        rintro rfl
        have hp := globToken_star allowQuestionMark htoken
        have hnot := List.head_dropWhile_not (fun b => decide (b = asterisk))
          (hp ▸ List.cons_ne_nil _ _)
        simp [hp] at hnot

theorem globLoop_handles :
    (globLoop signed allowQuestionMark).Handles (decode signed allowQuestionMark) where
  ordered := by
    intro pattern tokens hdecode t ht
    obtain ⟨tokens', -, rfl⟩ := Option.map_eq_some_iff.mp hdecode
    obtain ⟨token, -, rfl⟩ := List.mem_map.mp ht
    unfold GlobToken.token
    split
    · trivial
    · exact takeOne_ordered _
  finish := by
    intro pattern tokens hdecode
    obtain ⟨tokens₀, htokens, rfl⟩ := Option.map_eq_some_iff.mp hdecode
    obtain ⟨n, tokens', rfl, hrest⟩ := globTokens_dropWhile allowQuestionMark htokens
    refine ⟨_, rfl, ?_⟩
    rw [map_token_stars, matches_stars_nil]
    rcases globTokens_front allowQuestionMark hrest with
      ⟨hnil, rfl⟩ | ⟨p, rest, token, tokens', hcons, rfl, hstar⟩
    · exact iff_of_true (List.isEmpty_iff.mpr hnil) rfl
    · refine iff_of_false (fun hempty => ?_) ?_
      · rw [List.isEmpty_iff.mp hempty] at hcons
        cases hcons
      · rw [List.map_cons, GlobToken.token_take signed hstar]
        rintro ⟨rest, htake, -⟩
        cases htake
  done := by
    intro pattern tokens string result hdecode hnext
    obtain ⟨tokens₀, htokens, rfl⟩ := Option.map_eq_some_iff.mp hdecode
    match string, pattern with
    | [], _ => cases hnext
    | _ :: _, [] => cases hnext
    | s :: string, p :: rest =>
        rcases globTokens_cons allowQuestionMark htokens with
          ⟨hnil, -⟩ | ⟨token, rest', tokens', rfl, htoken, hrest⟩
        · cases hnil
        simp only [globLoop] at hnext
        rw [globSwitch_cons] at hnext
        split at hnext
        · rename_i hp
          subst hp
          cases htoken.symm.trans (globToken_asterisk allowQuestionMark rest)
          split at hnext
          · rename_i hdrop
            cases hnext
            obtain ⟨n, tokens', rfl, hnil⟩ := globTokens_dropWhile allowQuestionMark hrest
            obtain rfl : tokens' = [] := by
              rw [hdrop, globTokens, if_pos rfl] at hnil
              exact (Option.some.inj hnil).symm
            refine ⟨rfl, ?_⟩
            rw [List.map_cons, map_token_stars]
            exact (matches_stars n).mpr ⟨[], List.nil_suffix, rfl⟩
          · cases hnext
        · rw [htoken] at hnext
          simp only at hnext
          split at hnext <;> cases hnext
  star := by
    intro pattern tokens string pattern' hdecode hnext
    obtain ⟨tokens₀, htokens, rfl⟩ := Option.map_eq_some_iff.mp hdecode
    obtain ⟨rest, rfl, rfl⟩ := globSwitch_star signed allowQuestionMark hnext
    rcases globTokens_cons allowQuestionMark htokens with
      ⟨hnil, -⟩ | ⟨token, rest', tokens', rfl, htoken, hrest⟩
    · cases hnil
    cases htoken.symm.trans (globToken_asterisk allowQuestionMark rest)
    obtain ⟨n, tokens', rfl, hdrop⟩ := globTokens_dropWhile allowQuestionMark hrest
    refine ⟨_, Option.map_eq_some_iff.mpr ⟨tokens', hdrop, rfl⟩, fun string => ?_⟩
    rw [List.map_cons, map_token_stars]
    exact matches_stars n
  matched := by
    intro pattern tokens string pattern' string' hdecode hnext
    obtain ⟨tokens₀, htokens, rfl⟩ := Option.map_eq_some_iff.mp hdecode
    obtain ⟨token, c, rfl, hstar, htoken, haccepts⟩ :=
      globSwitch_matched signed allowQuestionMark hnext
    rcases globTokens_cons allowQuestionMark htokens with
      ⟨rfl, -⟩ | ⟨token', rest, tokens', rfl, htoken', hrest⟩
    · cases htoken
    cases htoken.symm.trans htoken'
    refine ⟨takeOne fun c => token.accepts signed c, _, ?_, ?_,
      Option.map_eq_some_iff.mpr ⟨tokens', hrest, rfl⟩⟩
    · rw [List.map_cons, GlobToken.token_take signed hstar]
    · exact takeOne_eq_some.mpr ⟨c, rfl, haccepts⟩
  mismatch := by
    intro pattern tokens string hdecode hstring hnext hmatch
    obtain ⟨tokens₀, htokens, rfl⟩ := Option.map_eq_some_iff.mp hdecode
    rcases globTokens_cons allowQuestionMark htokens with
      ⟨rfl, rfl⟩ | ⟨token, rest', tokens', rfl, htoken, hrest⟩
    · exact hstring hmatch
    match string, pattern with
    | [], _ => exact hstring rfl
    | _ :: _, [] => cases htoken
    | s :: string, p :: rest =>
        simp only [globLoop] at hnext
        rw [globSwitch_cons, htoken] at hnext
        split at hnext
        · split at hnext <;> cases hnext
        · rename_i hp
          simp only at hnext
          split at hnext
          · cases hnext
          · rename_i hnot
            have hstar : token ≠ .star := by
              rintro rfl
              exact hp (List.cons.inj (globToken_star allowQuestionMark htoken)).1
            rw [List.map_cons, GlobToken.token_take signed hstar] at hmatch
            obtain ⟨rest'', htake, -⟩ := hmatch
            obtain ⟨c, hc, haccepts⟩ := takeOne_eq_some.mp htake
            cases hc
            exact hnot haccepts

/-! ## Divisions of the string -/

def Divides (tokens : List GlobToken) (string : Bytes) : Prop :=
  ∃ parts : List Bytes, List.Forall₂ (GlobToken.Takes signed) tokens parts ∧ parts.flatten = string

theorem takes_iff {t : GlobToken} (h : t ≠ .star) {part : Bytes} :
    t.Takes signed part ↔ ∃ c, part = [c] ∧ t.accepts signed c = true := by
  cases t with
  | star => exact absurd rfl h
  | any => simp [GlobToken.Takes, GlobToken.accepts]
  | byte b => simp [GlobToken.Takes, GlobToken.accepts, eq_comm]
  | bracket invert items => cases invert <;> simp [GlobToken.Takes, GlobToken.accepts]

theorem matches_iff_divides {string : Bytes} :
    Matches (tokens.map (GlobToken.token signed)) string ↔ Divides signed tokens string := by
  refine Wildcard.matches_iff_divides fun t => ?_
  by_cases hstar : t = .star
  · subst hstar
    exact fun _ => trivial
  · rw [GlobToken.token_take signed hstar]
    exact takeOne_takesOnly fun part => takes_iff signed hstar

/-- `Glob` says whether the string can be divided among the tokens of the pattern. -/
theorem glob_iff {pattern : Bytes} {tokens : List GlobToken}
    (h : globTokens allowQuestionMark pattern = some tokens) (string : Bytes) :
    glob signed allowQuestionMark string pattern = true ↔ Divides signed tokens string := by
  have hdecode : decode signed allowQuestionMark pattern =
      some (tokens.map (GlobToken.token signed)) := by
    rw [decode, h]
    rfl
  obtain ⟨verdict, hverdict, hiff⟩ :=
    search_iff (globLoop_handles signed allowQuestionMark) hdecode string
  rw [glob, hverdict, ← matches_iff_divides]
  exact hiff

/-- `[]a-c-]*\\*`. -/
theorem glob_iff_brackets :
    glob true false [98, 120, 42] [91, 93, 97, 45, 99, 45, 93, 42, 92, 42] = true ↔
      Divides true [.bracket false [.byte 93, .range 97 99, .byte 45], .star, .byte 42]
        [98, 120, 42] :=
  glob_iff true false
    (by simp [globTokens, globToken, bracket, bracketItems, asterisk, questionMark, openBracket,
      closeBracket, backslash, exclamationMark, hyphen]) [98, 120, 42]

end Glob
end MiniDuck
