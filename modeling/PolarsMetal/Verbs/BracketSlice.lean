import PolarsMetal.Lib.JsonText

/-! The extraction of a node's expression list from a serialized plan: from an opening bracket to the
bracket that closes it, with the brackets inside string literals passed over. -/

namespace PolarsMetal.Verbs
open JsonText

/-- The loop of `_balanced_bracket_slice` from position `k` on; `rest` is what is left of `s`. -/
def bracketLoop (s : List Char) (start : ℕ) :
    List Char → ℕ → ℤ → Bool → Bool → Option (List Char)
  | [], _, _, _, _ => none
  | ch :: rest, k, depth, inStr, esc =>
    if inStr then
      if esc then bracketLoop s start rest (k + 1) depth true false
      else if ch = '\\' then bracketLoop s start rest (k + 1) depth true true
      else if ch = '"' then bracketLoop s start rest (k + 1) depth false false
      else bracketLoop s start rest (k + 1) depth true false
    else if ch = '"' then bracketLoop s start rest (k + 1) depth true esc
    else if ch = '[' then bracketLoop s start rest (k + 1) (depth + 1) false esc
    else if ch = ']' then
      if depth - 1 = 0 then some ((s.take (k + 1)).drop start)
      else bracketLoop s start rest (k + 1) (depth - 1) false esc
    else bracketLoop s start rest (k + 1) depth false esc

def balancedBracketSlice (s : List Char) (start : ℕ) : Option (List Char) :=
  bracketLoop s start (s.drop start) start 0 false false

/-! The loop by what is left to read. -/

/-- How many characters the loop still reads, up to the one it stops at. -/
def closeAt : List Char → ℤ → Bool → Bool → Option ℕ
  | [], _, _, _ => none
  | ch :: rest, depth, inStr, esc =>
    if inStr then
      if esc then (closeAt rest depth true false).map (· + 1)
      else if ch = '\\' then (closeAt rest depth true true).map (· + 1)
      else if ch = '"' then (closeAt rest depth false false).map (· + 1)
      else (closeAt rest depth true false).map (· + 1)
    else if ch = '"' then (closeAt rest depth true esc).map (· + 1)
    else if ch = '[' then (closeAt rest (depth + 1) false esc).map (· + 1)
    else if ch = ']' then
      if depth - 1 = 0 then some 1 else (closeAt rest (depth - 1) false esc).map (· + 1)
    else (closeAt rest depth false esc).map (· + 1)

theorem bracketLoop_eq (s : List Char) (start : ℕ) (rest : List Char) (k : ℕ) (depth : ℤ)
    (inStr esc : Bool) : bracketLoop s start rest k depth inStr esc =
      (closeAt rest depth inStr esc).map fun n => (s.take (k + n)).drop start := by
  induction rest generalizing k depth inStr esc with
  | nil => rfl
  | cons ch rest ih =>
    have hnext : ∀ n, k + 1 + n = k + (n + 1) := fun n => by omega
    unfold bracketLoop closeAt
    split_ifs <;> simp only [ih, Option.map_map, Function.comp_def, hnext, Option.map_some]

theorem balancedBracketSlice_eq (s : List Char) (start : ℕ) : balancedBracketSlice s start =
    (closeAt (s.drop start) 0 false false).map fun n => (s.drop start).take n := by
  unfold balancedBracketSlice
  rw [bracketLoop_eq]
  refine Option.map_congr fun n _ => ?_
  rw [List.drop_take, Nat.add_sub_cancel_left]

/-! Token by token. -/

theorem closeAt_strBody {body : List Char} (h : StrBody body) (rest : List Char) (d : ℤ) :
    closeAt (body ++ '"' :: rest) d true false =
      (closeAt rest d false false).map (· + (body.length + 1)) := by
  induction h with
  | nil => simp [closeAt]
  | plain hquote hescape _ ih =>
    simp [closeAt, hquote, hescape, ih, Option.map_map, Function.comp_def, Nat.add_assoc]
  | escape c _ ih =>
    simp [closeAt, ih, Option.map_map, Function.comp_def, Nat.add_assoc]

/-- The loop reads a whole token and goes on, unless the token is the bracket it stops at. -/
theorem closeAt_token (t : Token) (rest : List Char) (d : ℤ) :
    closeAt (t.text ++ rest) d false false =
      if t = .closing ∧ d = 1 then some 1
      else (closeAt rest (d + t.delta) false false).map (· + t.text.length) := by
  cases t with
  | str body h =>
    have hne : Token.str body h ≠ .closing := fun heq => (by cases heq)
    rw [if_neg fun hboth => hne hboth.1]
    simp [Token.text, closeAt, closeAt_strBody h, Token.delta, Option.map_map, Function.comp_def,
      Nat.add_assoc]
  | char c h =>
    by_cases hopen : c = '['
    · subst hopen
      have hne : Token.char '[' h ≠ .closing := fun heq => (by cases heq)
      rw [if_neg fun hboth => hne hboth.1]
      simp [Token.text, closeAt, Token.delta]
    by_cases hclose : c = ']'
    · subst hclose
      by_cases hd : d = 1
      · rw [if_pos ⟨rfl, hd⟩]
        simp [Token.text, closeAt, hd]
      · rw [if_neg fun hboth => hd hboth.2]
        have hd' : ¬ d + -1 = 0 := by omega
        simp [Token.text, closeAt, Token.delta, hd', sub_eq_add_neg]
    · have hne : Token.char c h ≠ .closing := fun heq => hclose (Token.char.inj heq)
      rw [if_neg fun hboth => hne hboth.1]
      simp [Token.text, closeAt, Token.delta, h, hopen, hclose]

/-! Where a bracket closes. -/

/-- From depth `d`, the last of the tokens is the first bracket that brings the depth to zero. -/
def Closes (d : ℤ) (toks : List Token) : Prop :=
  ∃ front, toks = front ++ [.closing] ∧ d + depth front = 1 ∧
    ∀ p q, front = p ++ .closing :: q → d + depth p ≠ 1

theorem closes_cons {d : ℤ} {t : Token} {toks : List Token} :
    Closes d (t :: toks) ↔ (toks = [] ∧ t = .closing ∧ d = 1) ∨
      ¬ (t = .closing ∧ d = 1) ∧ Closes (d + t.delta) toks := by
  refine ⟨fun ⟨front, heq, hdepth, hfirst⟩ => ?_, fun h => ?_⟩
  · cases front with
    | nil =>
      obtain ⟨rfl, rfl⟩ := List.cons.inj heq
      exact .inl ⟨rfl, rfl, by simpa using hdepth⟩
    | cons u front =>
      obtain ⟨rfl, rfl⟩ := List.cons.inj heq
      rw [depth_cons, ← add_assoc] at hdepth
      refine .inr ⟨fun ⟨hclose, hd⟩ => ?_, front, rfl, hdepth, fun p q hpq => ?_⟩
      · exact hfirst [] front (by rw [hclose]; rfl) (by simpa using hd)
      · have := hfirst (t :: p) q (by rw [hpq]; rfl)
        rwa [depth_cons, ← add_assoc] at this
  · rcases h with ⟨rfl, rfl, rfl⟩ | ⟨hnot, front, rfl, hdepth, hfirst⟩
    · exact ⟨[], rfl, rfl, fun p q hpq => (by cases p <;> cases hpq)⟩
    · refine ⟨t :: front, rfl, by rw [depth_cons, ← add_assoc, hdepth], fun p q hpq => ?_⟩
      cases p with
      | nil =>
        obtain ⟨rfl, rfl⟩ := List.cons.inj hpq
        exact fun hd => hnot ⟨rfl, by simpa using hd⟩
      | cons u p =>
        obtain ⟨rfl, rfl⟩ := List.cons.inj hpq
        rw [depth_cons, ← add_assoc]
        exact hfirst p q rfl

theorem closeAt_of_closes {d : ℤ} {toks : List Token} (h : Closes d toks) (rest : List Char) :
    closeAt (text toks ++ rest) d false false = some (text toks).length := by
  induction toks generalizing d with
  | nil => obtain ⟨front, heq, -⟩ := h; cases front <;> cases heq
  | cons t toks ih =>
    rw [text_cons, List.append_assoc, closeAt_token]
    rcases closes_cons.1 h with ⟨rfl, rfl, rfl⟩ | ⟨hnot, hrest⟩
    · rfl
    · rw [if_neg hnot, ih hrest, Option.map_some, List.length_append, Nat.add_comm]

theorem exists_strBody {t : List Char} {d : ℤ} {n : ℕ} (h : closeAt t d true false = some n) :
    ∃ body rest m, StrBody body ∧ t = body ++ '"' :: rest ∧
      closeAt rest d false false = some m ∧ n = m + (body.length + 1) := by
  induction ht : t.length using Nat.strong_induction_on generalizing t n with
  | _ len ih =>
    subst ht
    cases t with
    | nil => cases h
    | cons c t =>
      unfold closeAt at h
      simp only [if_true, Bool.false_eq_true, if_false] at h
      by_cases hescape : c = '\\'
      · subst hescape
        rw [if_pos rfl, Option.map_eq_some_iff] at h
        obtain ⟨m, hm, rfl⟩ := h
        cases t with
        | nil => cases hm
        | cons e t =>
          unfold closeAt at hm
          simp only [if_true] at hm
          obtain ⟨m', hm', rfl⟩ := Option.map_eq_some_iff.1 hm
          obtain ⟨body, rest, m, hbody, rfl, hrest, rfl⟩ := ih t.length (by simp) hm' rfl
          exact ⟨'\\' :: e :: body, rest, m, .escape e hbody, rfl, hrest, by
            simp only [List.length_cons]; omega⟩
      rw [if_neg hescape] at h
      by_cases hquote : c = '"'
      · subst hquote
        rw [if_pos rfl, Option.map_eq_some_iff] at h
        obtain ⟨m, hm, rfl⟩ := h
        exact ⟨[], t, m, .nil, rfl, hm, rfl⟩
      · rw [if_neg hquote, Option.map_eq_some_iff] at h
        obtain ⟨m, hm, rfl⟩ := h
        obtain ⟨body, rest, m, hbody, rfl, hrest, rfl⟩ := ih t.length (by simp) hm rfl
        exact ⟨c :: body, rest, m, .plain hquote hescape hbody, rfl, hrest, by
          simp only [List.length_cons]; omega⟩

/-- What the loop reads up to its stop closes a bracket. -/
theorem closes_of_closeAt {t : List Char} {d : ℤ} {n : ℕ} (h : closeAt t d false false = some n) :
    ∃ toks, Closes d toks ∧ text toks = t.take n := by
  induction ht : t.length using Nat.strong_induction_on generalizing t d n with
  | _ len ih =>
    subst ht
    -- the first token is a literal or a character
    obtain ⟨tok, rest, rfl⟩ : ∃ (tok : Token) (rest : List Char), t = tok.text ++ rest := by
      cases t with
      | nil => cases h
      | cons c t =>
        by_cases hquote : c = '"'
        · subst hquote
          unfold closeAt at h
          simp only [Bool.false_eq_true, if_false, if_true] at h
          obtain ⟨m, hm, -⟩ := Option.map_eq_some_iff.1 h
          obtain ⟨body, rest, -, hbody, rfl, -⟩ := exists_strBody hm
          exact ⟨.str body hbody, rest, by simp [Token.text]⟩
        · exact ⟨.char c hquote, t, rfl⟩
    rw [closeAt_token] at h
    have hpos : 0 < tok.text.length := by cases tok <;> simp [Token.text]
    split_ifs at h with hstop
    · obtain ⟨rfl, rfl⟩ := hstop
      obtain rfl := Option.some.inj h
      exact ⟨[.closing], closes_cons.2 (.inl ⟨rfl, rfl, rfl⟩), rfl⟩
    · obtain ⟨m, hm, rfl⟩ := Option.map_eq_some_iff.1 h
      obtain ⟨toks, hcloses, htext⟩ := ih rest.length (by simp; omega) hm rfl
      refine ⟨tok :: toks, closes_cons.2 (.inr ⟨hstop, hcloses⟩), ?_⟩
      have htake : (tok.text ++ rest).take (m + tok.text.length) = tok.text ++ rest.take m := by
        rw [List.take_append, List.take_of_length_le (Nat.le_add_left _ _), Nat.add_sub_cancel]
      rw [text_cons, htext, htake]

/-- A bracket that closes at the end of `t`. -/
def ClosesText (t : List Char) : Prop := ∃ toks, Closes 0 toks ∧ text toks = t

theorem balancedBracketSlice_eq_some_iff {s : List Char} {start : ℕ} {r : List Char} :
    balancedBracketSlice s start = some r ↔ r <+: s.drop start ∧ ClosesText r := by
  rw [balancedBracketSlice_eq, Option.map_eq_some_iff]
  refine ⟨fun ⟨n, hn, heq⟩ => ?_, fun ⟨⟨rest, hrest⟩, toks, hcloses, htext⟩ => ?_⟩
  · obtain ⟨toks, hcloses, htext⟩ := closes_of_closeAt hn
    exact ⟨heq ▸ List.take_prefix _ _, toks, hcloses, htext.trans heq⟩
  · refine ⟨r.length, ?_, ?_⟩
    · rw [← hrest, ← htext]
      exact closeAt_of_closes hcloses rest
    · rw [← hrest, List.take_left]

theorem closesText_of_isArray {t : List Char} (h : IsArray t) : ClosesText t := by
  obtain ⟨inner, hinner, rfl⟩ := h
  have hbalanced : Balanced inner := hinner.elim IsWs.balanced Derives.balanced
  obtain ⟨toks, rfl, hdepth, hpre⟩ := hbalanced
  have hopen : Token.opening.delta = 1 := rfl
  refine ⟨.opening :: (toks ++ [.closing]), ⟨.opening :: toks, rfl, ?_, fun p q hpq => ?_⟩, ?_⟩
  · rw [depth_cons, hdepth, hopen]
    rfl
  · cases p with
    | nil => cases hpq
    | cons u p =>
      obtain ⟨rfl, rfl⟩ := List.cons.inj hpq
      -- a close inside would take the depth below zero
      have hbelow := hpre (p ++ [.closing]) ⟨q, by simp⟩
      have hclose : Token.closing.delta = -1 := rfl
      rw [depth_append, depth_cons, depth_nil, hclose] at hbelow
      rw [depth_cons, hopen]
      omega
  · simp [Token.text, Token.opening, Token.closing]

/-- Wherever an array stands in a text, its text is extracted; where no bracket closes, nothing is. -/
theorem balancedBracketSlice_exact :
    (∀ before array after : List Char, IsArray array →
      balancedBracketSlice (before ++ (array ++ after)) before.length = some array) ∧
    ∀ (s : List Char) (start : ℕ), balancedBracketSlice s start = none ↔
      ∀ r, r <+: s.drop start → ¬ ClosesText r := by
  refine ⟨fun before array after harray => ?_, fun s start => ⟨fun h r hr hcloses => ?_, fun h => ?_⟩⟩
  · rw [balancedBracketSlice_eq_some_iff, List.drop_left]
    exact ⟨List.prefix_append array after, closesText_of_isArray harray⟩
  · have hsome := balancedBracketSlice_eq_some_iff.2 ⟨hr, hcloses⟩
    rw [h] at hsome
    cases hsome
  · cases hslice : balancedBracketSlice s start with
    | none => rfl
    | some r =>
      obtain ⟨hr, hcloses⟩ := balancedBracketSlice_eq_some_iff.1 hslice
      exact absurd hcloses (h r hr)

/-- An array whose string holds both brackets and an escaped quote. -/
def nestedArray : List Char := "[\"]\\\"[\",[]]".toList

example : IsArray nestedArray := by
  have hws : IsWs [] := fun c hc => by cases hc
  have hbody : IsStringBody "]\\\"[".toList :=
    .plain (by decide) (by decide) (by decide)
      (.escape (by decide) (.plain (by decide) (by decide) (by decide) .nil))
  have hstring : Derives .value "\"]\\\"[\"".toList := .string ⟨_, hbody, rfl⟩
  have hinner : Derives .elements "[]".toList := .element hws (.emptyArray hws) hws
  exact ⟨_, .inr (.moreElements hws hstring hws hinner), rfl⟩

example : balancedBracketSlice ("[e:]".toList ++ (nestedArray ++ "]".toList)) 4 = some nestedArray := by
  decide

example : balancedBracketSlice "[[]".toList 0 = none := by decide

end PolarsMetal.Verbs
