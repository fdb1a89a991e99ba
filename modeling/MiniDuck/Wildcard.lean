import Mathlib

/-!
# Wildcard matching with one point of retry

A pattern is a sequence of tokens: a star takes any part of the string, and
every other token decides from the string what it takes. A search that
remembers only its last star finds a division of the string whenever there
is one (`search_iff`). What an earlier star could still try is lost, but a
later start leaves the tokens between two stars with a shorter rest
(`Consumes.rest_suffix`), and the last star tries every shorter rest.

The loop is written over a `Switch`, which handles the token at the front
of a pattern. A `Position` carries the order of the places it holds, and
with it the loop terminates.
-/

namespace MiniDuck
namespace Wildcard

variable {α ρ : Type}

/-! ## Tokens -/

/-- A part of a pattern; `take` leaves the rest of the string if it can take a part of it. -/
inductive Token (α : Type)
  | star
  | take (take : List α → Option (List α))

def Matches : List (Token α) → List α → Prop
  | [], string => string = []
  | .star :: tokens, string => ∃ rest, rest <:+ string ∧ Matches tokens rest
  | .take take :: tokens, string => ∃ rest, take string = some rest ∧ Matches tokens rest

/-- Takes a part from the front, and not more of a string that starts earlier. -/
def Token.Ordered : Token α → Prop
  | .star => True
  | .take f => ∀ string rest, f string = some rest →
      ∀ string' rest', string' <:+ string → f string' = some rest' → rest' <:+ rest

/-- The tokens, none of which is a star, take a string up to `rest`. -/
def Consumes : List (Token α) → List α → List α → Prop
  | [], string, rest => string = rest
  | .star :: _, _, _ => False
  | .take take :: tokens, string, rest =>
      ∃ string', take string = some string' ∧ Consumes tokens string' rest

variable {tokens : List (Token α)} {string rest : List α}

theorem Consumes.append {mid : List α} {take : List α → Option (List α)}
    (h : Consumes tokens string mid) (htake : take mid = some rest) :
    Consumes (tokens ++ [.take take]) string rest := by
  induction tokens generalizing string with
  | nil =>
      obtain rfl : string = mid := h
      exact ⟨rest, htake, rfl⟩
  | cons token tokens ih =>
      cases token with
      | star => exact h.elim
      | take f =>
          obtain ⟨string', hf, hrest⟩ := h
          exact ⟨string', hf, ih hrest⟩

theorem Consumes.rest_suffix {more : List (Token α)} (hordered : ∀ t ∈ tokens, t.Ordered)
    (h : Consumes tokens string rest) {string' : List α} (hsuffix : string' <:+ string)
    (hmatch : Matches (tokens ++ more) string') : ∃ rest', rest' <:+ rest ∧ Matches more rest' := by
  induction tokens generalizing string string' with
  | nil =>
      obtain rfl : string = rest := h
      exact ⟨string', hsuffix, hmatch⟩
  | cons token tokens ih =>
      obtain ⟨hhead, htail⟩ := List.forall_mem_cons.mp hordered
      cases token with
      | star => exact h.elim
      | take f =>
          obtain ⟨mid, hf, hrest⟩ := h
          obtain ⟨mid', hf', hmatch'⟩ := hmatch
          exact ih htail hrest (hhead _ _ hf _ _ hsuffix hf') hmatch'

theorem matches_star {string' : List α} (hsuffix : string' <:+ string)
    (h : Matches (.star :: tokens) string') : Matches (.star :: tokens) string := by
  obtain ⟨rest, hrest, hmatch⟩ := h
  exact ⟨rest, hrest.trans hsuffix, hmatch⟩

theorem suffix_iff_eq_or_tail : rest <:+ string ↔ rest = string ∨ rest <:+ string.tail := by
  cases string with
  | nil => simp
  | cons b string => exact List.suffix_cons_iff

def takeOne (accepts : α → Bool) : List α → Option (List α)
  | [] => none
  | c :: string => if accepts c then some string else none

theorem takeOne_eq_some {accepts : α → Bool} :
    takeOne accepts string = some rest ↔ ∃ c, string = c :: rest ∧ accepts c = true := by
  cases string with
  | nil => simp [takeOne]
  | cons c string => simp [takeOne, and_comm]

theorem takeOne_ordered (accepts : α → Bool) : (Token.take (takeOne accepts)).Ordered := by
  intro string rest hrest string' rest' hsuffix hrest'
  obtain ⟨c, rfl, -⟩ := takeOne_eq_some.mp hrest
  obtain ⟨c', rfl, -⟩ := takeOne_eq_some.mp hrest'
  rcases List.suffix_cons_iff.mp hsuffix with heq | hsuffix
  · rw [(List.cons.inj heq).2]
  · exact (List.suffix_cons _ _).trans hsuffix

theorem matches_stars (n : Nat) : Matches (.star :: (List.replicate n .star ++ tokens)) string ↔
      Matches (.star :: tokens) string := by
  induction n generalizing string with
  | zero => rfl
  | succ n ih =>
      rw [List.replicate_succ, List.cons_append]
      constructor
      · rintro ⟨rest, hrest, hmatch⟩
        exact matches_star hrest (ih.mp hmatch)
      · intro hmatch
        exact ⟨string, List.suffix_refl _, ih.mpr hmatch⟩

theorem matches_stars_nil (n : Nat) :
    Matches (List.replicate n .star ++ tokens) [] ↔ Matches tokens [] := by
  induction n with
  | zero => rfl
  | succ n ih =>
      rw [List.replicate_succ, List.cons_append, ← ih]
      constructor
      · rintro ⟨rest, hrest, hmatch⟩
        exact List.suffix_nil.mp hrest ▸ hmatch
      · intro hmatch
        exact ⟨[], List.suffix_refl _, hmatch⟩

theorem matches_append_congr {tokens' : List (Token α)}
    (h : ∀ string, Matches tokens string ↔ Matches tokens' string) (before : List (Token α))
    (string : List α) : Matches (before ++ tokens) string ↔ Matches (before ++ tokens') string := by
  induction before generalizing string with
  | nil => exact h string
  | cons token before ih =>
      cases token with
      | star => exact exists_congr fun rest => and_congr_right fun _ => ih rest
      | take f => exact exists_congr fun rest => and_congr_right fun _ => ih rest

/-! ## Divisions -/

def Divides {β : Type} (Takes : β → List α → Prop) (tokens : List β) (string : List α) : Prop :=
  ∃ parts : List (List α), List.Forall₂ Takes tokens parts ∧ parts.flatten = string

def Token.TakesOnly (Takes : List α → Prop) : Token α → Prop
  | .star => ∀ part, Takes part
  | .take f => ∀ string rest, f string = some rest ↔ ∃ part, string = part ++ rest ∧ Takes part

theorem takeOne_takesOnly {accepts : α → Bool} {Takes : List α → Prop}
    (h : ∀ part, Takes part ↔ ∃ c, part = [c] ∧ accepts c = true) :
    (Token.take (takeOne accepts)).TakesOnly Takes := by
  intro string rest
  rw [takeOne_eq_some]
  constructor
  · rintro ⟨c, rfl, haccepts⟩
    exact ⟨[c], rfl, (h _).mpr ⟨c, rfl, haccepts⟩⟩
  · rintro ⟨part, rfl, htakes⟩
    obtain ⟨c, rfl, haccepts⟩ := (h part).mp htakes
    exact ⟨c, rfl, haccepts⟩

theorem matches_iff_divides {β : Type} {Takes : β → List α → Prop} {token : β → Token α}
    (h : ∀ t, (token t).TakesOnly (Takes t)) {tokens : List β} :
    Matches (tokens.map token) string ↔ Divides Takes tokens string := by
  induction tokens generalizing string with
  | nil =>
      constructor
      · intro hmatch
        exact ⟨[], .nil, hmatch.symm⟩
      · rintro ⟨_, ⟨⟩, rfl⟩
        rfl
  | cons t tokens ih =>
      have ht := h t
      have hcons : Divides Takes (t :: tokens) string ↔
          ∃ part rest, string = part ++ rest ∧ Takes t part ∧ Divides Takes tokens rest := by
        constructor
        · rintro ⟨parts, htakes, rfl⟩
          cases htakes with
          | cons htake htakes => exact ⟨_, _, rfl, htake, _, htakes, rfl⟩
        · rintro ⟨part, rest, rfl, htake, parts, htakes, rfl⟩
          exact ⟨part :: parts, .cons htake htakes, rfl⟩
      rw [hcons, List.map_cons]
      cases htoken : token t with
      | star =>
          rw [htoken] at ht
          constructor
          · rintro ⟨rest, ⟨part, rfl⟩, hmatch⟩
            exact ⟨part, rest, rfl, ht part, ih.mp hmatch⟩
          · rintro ⟨part, rest, rfl, -, hrest⟩
            exact ⟨rest, List.suffix_append _ _, ih.mpr hrest⟩
      | take f =>
          rw [htoken] at ht
          constructor
          · rintro ⟨rest, htake, hmatch⟩
            obtain ⟨part, rfl, hpart⟩ := (ht _ _).mp htake
            exact ⟨part, rest, rfl, hpart, ih.mp hmatch⟩
          · rintro ⟨part, rest, rfl, hpart, hrest⟩
            exact ⟨rest, (ht _ _).mpr ⟨part, rfl, hpart⟩, ih.mpr hrest⟩

/-! ## Searching -/

/-- What the token at the front of a pattern does with a string. -/
inductive Outcome (α ρ : Type)
  | done (result : ρ)
  | star (pattern : List α)
  | matched (pattern string : List α)
  | mismatch

/-- The body of a search loop. It moves forward in the pattern, and in the string if it matches. -/
structure Switch (α ρ : Type) where
  verdict : Bool → ρ
  next : List α → List α → Outcome α ρ
  finish : List α → ρ
  star_suffix : ∀ {pattern string pattern'}, next pattern string = .star pattern' →
    pattern' <:+ pattern ∧ pattern'.length < pattern.length
  matched_suffix : ∀ {pattern string pattern' string'},
    next pattern string = .matched pattern' string' →
      (pattern' <:+ pattern ∧ pattern'.length < pattern.length) ∧
        string' <:+ string ∧ string'.length < string.length

/-- What is left of the pattern and the string, and where the last star was. -/
structure Position (α : Type) where
  pattern : List α
  string : List α
  retry : Option (List α × List α)
  suffix : ∀ star ∈ retry, pattern <:+ star.1 ∧ string <:+ star.2

namespace Position

def start (pattern string : List α) : Position α where
  pattern := pattern
  string := string
  retry := none
  suffix := by
    rintro _ ⟨⟩

def star (q : Position α) (pattern : List α) : Position α where
  pattern := pattern
  string := q.string
  retry := some (pattern, q.string)
  suffix := by
    rintro _ ⟨⟩
    exact ⟨List.suffix_refl _, List.suffix_refl _⟩

def advance (q : Position α) (pattern string : List α) (hpattern : pattern <:+ q.pattern)
    (hstring : string <:+ q.string) : Position α where
  pattern := pattern
  string := string
  retry := q.retry
  suffix := fun star hstar =>
    ⟨hpattern.trans (q.suffix star hstar).1, hstring.trans (q.suffix star hstar).2⟩

def backtrack (star : List α × List α) : Position α where
  pattern := star.1
  string := star.2.tail
  retry := some (star.1, star.2.tail)
  suffix := by
    rintro _ ⟨⟩
    exact ⟨List.suffix_refl _, List.suffix_refl _⟩

/-- The pattern after the last star, the string after it, and the string, in this order. -/
def size (q : Position α) : Nat ×ₗ Nat ×ₗ Nat :=
  match q.retry with
  | none => toLex (q.pattern.length, toLex (0, q.string.length))
  | some star => toLex (star.1.length, toLex (star.2.length, q.string.length))

theorem star_size {q : Position α} {pattern : List α} (hlt : pattern.length < q.pattern.length) :
    (q.star pattern).size < q.size := by
  show toLex (pattern.length, toLex (q.string.length, q.string.length)) < q.size
  unfold size
  split
  · rw [Prod.Lex.toLex_lt_toLex]
    exact .inl hlt
  · rename_i star hretry
    have hle := (q.suffix star hretry).1.length_le
    rw [Prod.Lex.toLex_lt_toLex]
    exact .inl (hlt.trans_le hle)

theorem advance_size {q : Position α} {pattern string : List α} (hpattern : pattern <:+ q.pattern)
    (hstring : string <:+ q.string) (hlt : pattern.length < q.pattern.length)
    (hlt' : string.length < q.string.length) :
    (q.advance pattern string hpattern hstring).size < q.size := by
  unfold size advance
  dsimp only
  split
  · rw [Prod.Lex.toLex_lt_toLex]
    exact .inl hlt
  · rw [Prod.Lex.toLex_lt_toLex, Prod.Lex.toLex_lt_toLex]
    exact .inr ⟨rfl, .inr ⟨rfl, hlt'⟩⟩

theorem backtrack_size {q : Position α} {star : List α × List α} (hretry : q.retry = some star)
    (hstring : q.string ≠ []) : (backtrack star).size < q.size := by
  have hlt : star.2.tail.length < star.2.length := by
    have hle := (q.suffix star hretry).2.length_le
    have hpos := List.length_pos_of_ne_nil hstring
    rw [List.length_tail]
    omega
  unfold size backtrack
  rw [hretry, Prod.Lex.toLex_lt_toLex, Prod.Lex.toLex_lt_toLex]
  exact .inr ⟨rfl, .inl hlt⟩

end Position

def Switch.search (m : Switch α ρ) (q : Position α) : ρ :=
  match hstring : q.string with
  | [] => m.finish q.pattern
  | b :: string' =>
      match hnext : m.next q.pattern (b :: string') with
      | .done result => result
      | .star pattern => m.search (q.star pattern)
      | .matched pattern string =>
          m.search (q.advance pattern string (m.matched_suffix hnext).1.1
            (hstring ▸ (m.matched_suffix hnext).2.1))
      | .mismatch =>
          match hretry : q.retry with
          | none => m.verdict false
          | some star => m.search (Position.backtrack star)
termination_by q.size
decreasing_by
  · exact Position.star_size (m.star_suffix hnext).2
  · exact Position.advance_size _ _ (m.matched_suffix hnext).1.2
      (hstring ▸ (m.matched_suffix hnext).2.2)
  · exact Position.backtrack_size hretry (hstring ▸ List.cons_ne_nil _ _)

/-! ## The search finds a division -/

def Switch.Answers (m : Switch α ρ) (result : ρ) (p : Prop) : Prop :=
  ∃ verdict, result = m.verdict verdict ∧ (verdict = true ↔ p)

theorem Switch.Answers.congr {m : Switch α ρ} {result : ρ} {p p' : Prop}
    (h : m.Answers result p) (hp : p ↔ p') : m.Answers result p' := by
  obtain ⟨verdict, hresult, hverdict⟩ := h
  exact ⟨verdict, hresult, hverdict.trans hp⟩

/-- The switch handles the first token of a pattern, as `decode` gives its tokens. -/
structure Switch.Handles (m : Switch α ρ) (decode : List α → Option (List (Token α))) : Prop where
  ordered : ∀ {pattern tokens}, decode pattern = some tokens → ∀ t ∈ tokens, t.Ordered
  finish : ∀ {pattern tokens}, decode pattern = some tokens →
    m.Answers (m.finish pattern) (Matches tokens [])
  done : ∀ {pattern tokens string result}, decode pattern = some tokens →
    m.next pattern string = .done result → result = m.verdict true ∧ Matches tokens string
  star : ∀ {pattern tokens string pattern'}, decode pattern = some tokens →
    m.next pattern string = .star pattern' →
      ∃ tokens', decode pattern' = some tokens' ∧
        ∀ string, Matches tokens string ↔ Matches (.star :: tokens') string
  matched : ∀ {pattern tokens string pattern' string'}, decode pattern = some tokens →
    m.next pattern string = .matched pattern' string' →
      ∃ take tokens', tokens = .take take :: tokens' ∧ take string = some string' ∧
        decode pattern' = some tokens'
  mismatch : ∀ {pattern tokens string}, decode pattern = some tokens → string ≠ [] →
    m.next pattern string = .mismatch → ¬ Matches tokens string

variable {m : Switch α ρ} {decode : List α → Option (List (Token α))}

def Later (decode : List α → Option (List (Token α))) (retry : Option (List α × List α)) : Prop :=
  ∃ star tokens, retry = some star ∧ decode star.1 = some tokens ∧
    ∃ rest, rest <:+ star.2.tail ∧ Matches tokens rest

/-- The tokens since the last star took what the loop has passed. -/
def Passed (decode : List α → Option (List (Token α))) (q : Position α)
    (tokens : List (Token α)) : Prop :=
  ∀ star ∈ q.retry, ∃ passed, decode star.1 = some (passed ++ tokens) ∧
    Consumes passed star.2 q.string

/-- Another try of the last star leaves a shorter rest for what follows. -/
theorem Later.rest_suffix (h : m.Handles decode) {q : Position α} (hpassed : Passed decode q tokens)
    (hlater : Later decode q.retry) : ∃ rest, rest <:+ q.string ∧ Matches tokens rest := by
  obtain ⟨star, tokens₀, hretry, hdecode, rest, hrest, hmatch⟩ := hlater
  obtain ⟨passed, hdecode', hconsumes⟩ := hpassed star hretry
  obtain rfl := Option.some.inj (hdecode.symm.trans hdecode')
  refine hconsumes.rest_suffix (fun t ht => ?_) (hrest.trans (List.tail_suffix _)) hmatch
  exact h.ordered hdecode' t (List.mem_append_left _ ht)

theorem search_answers (h : m.Handles decode) (q : Position α)
    (hdecode : decode q.pattern = some tokens) (hpassed : Passed decode q tokens) :
    m.Answers (m.search q) (Matches tokens q.string ∨ Later decode q.retry) := by
  fun_induction Switch.search m q generalizing tokens with
  | case1 q hstring =>
      refine (h.finish hdecode).congr ⟨fun hmatch => .inl (hstring ▸ hmatch), ?_⟩
      rintro (hmatch | hlater)
      · exact hstring ▸ hmatch
      · obtain ⟨rest, hrest, hmatch⟩ := hlater.rest_suffix h hpassed
        rw [hstring, List.suffix_nil] at hrest
        exact hrest ▸ hmatch
  | case2 q b string hstring result hnext =>
      obtain ⟨rfl, hmatch⟩ := h.done hdecode hnext
      exact ⟨true, rfl, fun _ => .inl (hstring ▸ hmatch), fun _ => rfl⟩
  | case3 q b string hstring pattern hnext ih =>
      obtain ⟨tokens', hdecode', hstar⟩ := h.star hdecode hnext
      have hpassed' : Passed decode (q.star pattern) tokens' := by
        rintro _ ⟨⟩
        exact ⟨[], hdecode', rfl⟩
      refine (ih hdecode' hpassed').congr ?_
      constructor
      · rintro (hmatch | ⟨_, _, ⟨⟩, hdecode'', rest, hrest, hmatch⟩)
        · exact .inl ((hstar _).mpr ⟨_, List.suffix_refl _, hmatch⟩)
        · obtain rfl := Option.some.inj (hdecode'.symm.trans hdecode'')
          exact .inl ((hstar _).mpr ⟨rest, hrest.trans (List.tail_suffix _), hmatch⟩)
      · intro hmatch
        -- an earlier star leaves to this one no more than it has now
        have hnow : Matches tokens q.string := by
          rcases hmatch with hmatch | hlater
          · exact hmatch
          · obtain ⟨rest, hrest, hmatch⟩ := hlater.rest_suffix h hpassed
            exact (hstar _).mpr (matches_star hrest ((hstar _).mp hmatch))
        obtain ⟨rest, hrest, hmatch⟩ := (hstar _).mp hnow
        rcases suffix_iff_eq_or_tail.mp hrest with rfl | hrest
        · exact .inl hmatch
        · exact .inr ⟨_, _, rfl, hdecode', rest, hrest, hmatch⟩
  | case4 q b string hstring pattern string' hnext ih =>
      obtain ⟨take, tokens', rfl, htake, hdecode'⟩ := h.matched hdecode hnext
      rw [← hstring] at htake
      refine (ih hdecode' fun star hstar => ?_).congr (or_congr_left ?_)
      · obtain ⟨passed, hdecode₀, hconsumes⟩ := hpassed star hstar
        exact ⟨passed ++ [.take take], by rw [hdecode₀, List.append_assoc, List.singleton_append],
          hconsumes.append htake⟩
      · constructor
        · intro hmatch
          exact ⟨_, htake, hmatch⟩
        · rintro ⟨rest, hrest, hmatch⟩
          obtain rfl := Option.some.inj (htake.symm.trans hrest)
          exact hmatch
  | case5 q b string hstring hnext hretry =>
      refine ⟨false, rfl, fun hfalse => absurd hfalse Bool.false_ne_true, ?_⟩
      rintro (hmatch | ⟨star, _, hstar, -⟩)
      · exact absurd hmatch (hstring ▸ h.mismatch hdecode (List.cons_ne_nil _ _) hnext)
      · cases hretry.symm.trans hstar
  | case6 q b string hstring hnext star hretry ih =>
      obtain ⟨passed, hdecode₀, -⟩ := hpassed star hretry
      have hpassed' : Passed decode (Position.backtrack star) (passed ++ tokens) := by
        rintro _ ⟨⟩
        exact ⟨[], hdecode₀, rfl⟩
      refine (ih hdecode₀ hpassed').congr ?_
      constructor
      · rintro (hmatch | ⟨_, _, ⟨⟩, hdecode', rest, hrest, hmatch⟩)
        · exact .inr ⟨star, _, hretry, hdecode₀, _, List.suffix_refl _, hmatch⟩
        · exact .inr ⟨star, _, hretry, hdecode', rest, hrest.trans (List.tail_suffix _), hmatch⟩
      · rintro (hmatch | ⟨star', tokens', hstar', hdecode', rest, hrest, hmatch⟩)
        · exact absurd hmatch (hstring ▸ h.mismatch hdecode (List.cons_ne_nil _ _) hnext)
        · obtain rfl := Option.some.inj (hretry.symm.trans hstar')
          obtain rfl := Option.some.inj (hdecode₀.symm.trans hdecode')
          rcases suffix_iff_eq_or_tail.mp hrest with rfl | hrest
          · exact .inl hmatch
          · exact .inr ⟨_, _, rfl, hdecode₀, rest, hrest, hmatch⟩

/-- A search gives the verdict on whether the string can be divided among the tokens. -/
theorem search_iff (h : m.Handles decode) {pattern : List α}
    (hdecode : decode pattern = some tokens) (string : List α) :
    m.Answers (m.search (.start pattern string)) (Matches tokens string) := by
  have hpassed : Passed decode (.start pattern string) tokens := by
    rintro _ ⟨⟩
  refine (search_answers h (.start pattern string) hdecode hpassed).congr (or_iff_left ?_)
  rintro ⟨_, _, ⟨⟩, -⟩

end Wildcard
end MiniDuck
