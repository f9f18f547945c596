import Mathlib.Data.List.Induction
import Mathlib.Tactic

/-! JSON texts as characters, and the brackets in them. A text is read as string literals and single
characters; the depth counts the array brackets that stand outside the literals. -/

namespace JsonText

/-! String literals. -/

/-- What may stand between two quotes, as far as the quotes go: an escape hides the character after
it. -/
inductive StrBody : List Char → Prop where
  | nil : StrBody []
  | plain {c : Char} {body : List Char} (hquote : c ≠ '"') (hescape : c ≠ '\\')
      (hbody : StrBody body) : StrBody (c :: body)
  | escape (c : Char) {body : List Char} (hbody : StrBody body) : StrBody ('\\' :: c :: body)

/-- A string literal or a character outside the literals. -/
inductive Token where
  | str (body : List Char) (h : StrBody body)
  | char (c : Char) (h : c ≠ '"')
deriving DecidableEq

namespace Token

def text : Token → List Char
  | str body _ => '"' :: (body ++ ['"'])
  | char c _ => [c]

def delta : Token → ℤ
  | str _ _ => 0
  | char c _ => if c = '[' then 1 else if c = ']' then -1 else 0

def opening : Token := char '[' (by decide)

def closing : Token := char ']' (by decide)

end Token

def text (toks : List Token) : List Char := toks.flatMap Token.text

def depth (toks : List Token) : ℤ := (toks.map Token.delta).sum

@[simp] theorem text_nil : text [] = [] := rfl

@[simp] theorem text_cons (t : Token) (toks : List Token) : text (t :: toks) = t.text ++ text toks :=
  List.flatMap_cons

@[simp] theorem text_append (xs ys : List Token) : text (xs ++ ys) = text xs ++ text ys :=
  List.flatMap_append

@[simp] theorem depth_nil : depth [] = 0 := rfl

@[simp] theorem depth_cons (t : Token) (toks : List Token) :
    depth (t :: toks) = t.delta + depth toks := by
  rw [depth, List.map_cons, List.sum_cons, depth]

@[simp] theorem depth_append (xs ys : List Token) : depth (xs ++ ys) = depth xs + depth ys := by
  rw [depth, List.map_append, List.sum_append, depth, depth]

/-! Balanced texts. -/

/-- Every bracket has its partner. -/
def Balanced (t : List Char) : Prop :=
  ∃ toks, text toks = t ∧ depth toks = 0 ∧ ∀ p, p <+: toks → 0 ≤ depth p

theorem prefix_append_cases {α : Type*} {p xs ys : List α} (h : p <+: xs ++ ys) :
    p <+: xs ∨ ∃ q, p = xs ++ q ∧ q <+: ys := by
  rcases List.prefix_or_prefix_of_prefix h (List.prefix_append xs ys) with h' | ⟨q, rfl⟩
  · exact .inl h'
  · exact .inr ⟨q, rfl, (List.prefix_append_right_inj xs).1 h⟩

theorem Balanced.nil : Balanced [] :=
  ⟨[], rfl, rfl, fun p hp => by rw [List.prefix_nil.1 hp]; rfl⟩

theorem Balanced.append {s t : List Char} (hs : Balanced s) (ht : Balanced t) :
    Balanced (s ++ t) := by
  obtain ⟨xs, rfl, hx, hxs⟩ := hs
  obtain ⟨ys, rfl, hy, hys⟩ := ht
  refine ⟨xs ++ ys, text_append xs ys, by rw [depth_append, hx, hy]; rfl, fun p hp => ?_⟩
  rcases prefix_append_cases hp with hp | ⟨q, rfl, hq⟩
  · exact hxs p hp
  · rw [depth_append, hx, zero_add]
    exact hys q hq

theorem Balanced.single (t : Token) (h : t.delta = 0) : Balanced t.text := by
  refine ⟨[t], by simp, by simp [h], fun p hp => ?_⟩
  rcases List.prefix_cons_iff.1 hp with rfl | ⟨q, rfl, hq⟩
  · exact le_rfl
  · rw [List.prefix_nil.1 hq]
    simp [h]

/-- Neither a quote nor an array bracket. -/
def Neutral (c : Char) : Prop := c ≠ '"' ∧ c ≠ '[' ∧ c ≠ ']'

instance (c : Char) : Decidable (Neutral c) := inferInstanceAs (Decidable (_ ∧ _))

theorem Balanced.of_neutral {t : List Char} (h : ∀ c ∈ t, Neutral c) : Balanced t := by
  induction t with
  | nil => exact .nil
  | cons c t ih =>
    obtain ⟨⟨hquote, hopen, hclose⟩, ht⟩ := List.forall_mem_cons.1 h
    have hdelta : (Token.char c hquote).delta = 0 := by simp [Token.delta, hopen, hclose]
    exact (Balanced.single _ hdelta).append (ih ht)

theorem Balanced.string {body : List Char} (h : StrBody body) :
    Balanced ('"' :: (body ++ ['"'])) :=
  Balanced.single (.str body h) rfl

theorem Balanced.bracket {t : List Char} (h : Balanced t) : Balanced ('[' :: (t ++ [']'])) := by
  obtain ⟨toks, rfl, hdepth, hpre⟩ := h
  refine ⟨.opening :: (toks ++ [.closing]), by simp [Token.text, Token.opening, Token.closing], ?_,
    fun p hp => ?_⟩
  · simp [hdepth, Token.delta, Token.opening, Token.closing]
  rcases List.prefix_cons_iff.1 hp with rfl | ⟨q, rfl, hq⟩
  · exact le_rfl
  have hopen : Token.opening.delta = 1 := rfl
  rw [depth_cons, hopen]
  rcases prefix_append_cases hq with hq | ⟨r, rfl, hr⟩
  · have := hpre q hq
    omega
  · rw [depth_append, hdepth]
    rcases List.prefix_cons_iff.1 hr with rfl | ⟨r', rfl, hr'⟩
    · decide
    · rw [List.prefix_nil.1 hr']
      decide

/-! The JSON grammar. -/

def IsWs (t : List Char) : Prop := ∀ c ∈ t, c ∈ [' ', '\t', '\n', '\r']

def IsHex (c : Char) : Prop := c.isDigit ∨ c ∈ "abcdefABCDEF".toList

/-- What JSON allows between two quotes. -/
inductive IsStringBody : List Char → Prop where
  | nil : IsStringBody []
  | plain {c : Char} {body : List Char} (hquote : c ≠ '"') (hescape : c ≠ '\\')
      (hcontrol : 0x20 ≤ c.toNat) (hbody : IsStringBody body) : IsStringBody (c :: body)
  | escape {c : Char} {body : List Char} (hc : c ∈ "\"\\/bfnrt".toList)
      (hbody : IsStringBody body) : IsStringBody ('\\' :: c :: body)
  | unicode {a b c d : Char} {body : List Char} (ha : IsHex a) (hb : IsHex b) (hc : IsHex c)
      (hd : IsHex d) (hbody : IsStringBody body) :
      IsStringBody ('\\' :: 'u' :: a :: b :: c :: d :: body)

def IsString (t : List Char) : Prop := ∃ body, IsStringBody body ∧ t = '"' :: (body ++ ['"'])

def IsDigits (t : List Char) : Prop := t ≠ [] ∧ ∀ c ∈ t, c.isDigit

def IsNumber (t : List Char) : Prop :=
  ∃ sign int frac exp, t = sign ++ int ++ frac ++ exp ∧ (sign = [] ∨ sign = ['-']) ∧
    IsDigits int ∧ (int.head? = some '0' → int = ['0']) ∧
    (frac = [] ∨ ∃ ds, IsDigits ds ∧ frac = '.' :: ds) ∧
    (exp = [] ∨ ∃ e s ds, e ∈ ['e', 'E'] ∧ s ∈ [[], ['+'], ['-']] ∧ IsDigits ds ∧
      exp = e :: (s ++ ds))

inductive Phrase where
  | value | elements | members

/-- `Derives phrase t`: the text `t` is such a phrase. -/
inductive Derives : Phrase → List Char → Prop where
  | literal {t : List Char} (h : t ∈ ["true".toList, "false".toList, "null".toList]) :
      Derives .value t
  | number {t : List Char} (h : IsNumber t) : Derives .value t
  | string {t : List Char} (h : IsString t) : Derives .value t
  | emptyArray {w : List Char} (h : IsWs w) : Derives .value ('[' :: (w ++ [']']))
  | array {t : List Char} (h : Derives .elements t) : Derives .value ('[' :: (t ++ [']']))
  | emptyObject {w : List Char} (h : IsWs w) : Derives .value ('\x7b' :: (w ++ ['\x7d']))
  | object {t : List Char} (h : Derives .members t) : Derives .value ('\x7b' :: (t ++ ['\x7d']))
  | element {w v w' : List Char} (hw : IsWs w) (hv : Derives .value v) (hw' : IsWs w') :
      Derives .elements (w ++ (v ++ w'))
  | moreElements {w v w' t : List Char} (hw : IsWs w) (hv : Derives .value v) (hw' : IsWs w')
      (ht : Derives .elements t) : Derives .elements (w ++ (v ++ (w' ++ ',' :: t)))
  | member {w k w' u v u' : List Char} (hw : IsWs w) (hk : IsString k) (hw' : IsWs w') (hu : IsWs u)
      (hv : Derives .value v) (hu' : IsWs u') :
      Derives .members (w ++ (k ++ (w' ++ ':' :: (u ++ (v ++ u')))))
  | moreMembers {w k w' u v u' t : List Char} (hw : IsWs w) (hk : IsString k) (hw' : IsWs w')
      (hu : IsWs u) (hv : Derives .value v) (hu' : IsWs u') (ht : Derives .members t) :
      Derives .members (w ++ (k ++ (w' ++ ':' :: (u ++ (v ++ (u' ++ ',' :: t))))))

/-- The text of an array. -/
def IsArray (t : List Char) : Prop :=
  ∃ inner, (IsWs inner ∨ Derives .elements inner) ∧ t = '[' :: (inner ++ [']'])

/-! Every phrase is balanced. -/

theorem IsStringBody.strBody {t : List Char} (h : IsStringBody t) : StrBody t := by
  induction h with
  | nil => exact .nil
  | plain hquote hescape _ _ ih => exact .plain hquote hescape ih
  | escape _ _ ih => exact .escape _ ih
  | unicode ha hb hc hd _ ih =>
    have hhex : ∀ {c : Char}, IsHex c → c ≠ '"' ∧ c ≠ '\\' := by
      intro c hc
      refine ⟨?_, ?_⟩
      · rintro rfl
        revert hc
        unfold IsHex
        decide
      · rintro rfl
        revert hc
        unfold IsHex
        decide
    exact .escape _ (.plain (hhex ha).1 (hhex ha).2 (.plain (hhex hb).1 (hhex hb).2
      (.plain (hhex hc).1 (hhex hc).2 (.plain (hhex hd).1 (hhex hd).2 ih))))

theorem IsString.balanced {t : List Char} (h : IsString t) : Balanced t := by
  obtain ⟨body, hbody, rfl⟩ := h
  exact .string hbody.strBody

theorem IsWs.balanced {t : List Char} (h : IsWs t) : Balanced t := by
  have hws : ∀ c ∈ [' ', '\t', '\n', '\r'], Neutral c := by
    simp only [List.forall_mem_cons, List.not_mem_nil, false_implies, implies_true, and_true]
    decide
  exact .of_neutral fun c hc => hws c (h c hc)

theorem neutral_of_isDigit {c : Char} (h : c.isDigit) : Neutral c := by
  refine ⟨?_, ?_, ?_⟩
  · rintro rfl
    revert h
    decide
  · rintro rfl
    revert h
    decide
  · rintro rfl
    revert h
    decide

theorem IsDigits.balanced {t : List Char} (h : IsDigits t) : Balanced t :=
  .of_neutral fun c hc => neutral_of_isDigit (h.2 c hc)

/-- One neutral character in front. -/
theorem Balanced.cons {c : Char} {t : List Char} (hc : Neutral c) (ht : Balanced t) :
    Balanced (c :: t) := by
  refine Balanced.append (s := [c]) (.of_neutral fun d hd => ?_) ht
  rwa [List.mem_singleton.1 hd]

theorem IsNumber.balanced {t : List Char} (h : IsNumber t) : Balanced t := by
  obtain ⟨sign, int, frac, exp, rfl, hsign, hint, -, hfrac, hexp⟩ := h
  refine ((Balanced.append ?_ hint.balanced).append ?_).append ?_
  · rcases hsign with rfl | rfl
    · exact .nil
    · exact .cons (by decide) .nil
  · rcases hfrac with rfl | ⟨ds, hds, rfl⟩
    · exact .nil
    · exact .cons (by decide) hds.balanced
  · rcases hexp with rfl | ⟨e, s, ds, he, hs, hds, rfl⟩
    · exact .nil
    · have hletter : ∀ e ∈ ['e', 'E'], Neutral e := by
        simp only [List.forall_mem_cons, List.not_mem_nil, false_implies, implies_true, and_true]
        decide
      have hsign : ∀ s ∈ [[], ['+'], ['-']], ∀ c ∈ s, Neutral c := by
        simp only [List.forall_mem_cons, List.not_mem_nil, false_implies, implies_true, and_true, true_and]
        decide
      exact .cons (hletter e he) (Balanced.append (.of_neutral (hsign s hs)) hds.balanced)

theorem Balanced.braces {t : List Char} (h : Balanced t) :
    Balanced ('\x7b' :: (t ++ ['\x7d'])) :=
  .cons (by decide) (h.append (.cons (by decide) .nil))

theorem Derives.balanced {phrase : Phrase} {t : List Char} (h : Derives phrase t) : Balanced t := by
  have hcomma : Neutral ',' := by decide
  have hcolon : Neutral ':' := by decide
  induction h with
  | literal h =>
    have hneutral : ∀ t ∈ ["true".toList, "false".toList, "null".toList], ∀ c ∈ t, Neutral c := by
      simp only [List.forall_mem_cons, List.not_mem_nil, String.reduceToList, false_implies,
        implies_true, and_true]
      decide
    exact .of_neutral (hneutral _ h)
  | number h => exact h.balanced
  | string h => exact h.balanced
  | emptyArray h => exact .bracket h.balanced
  | array _ ih => exact .bracket ih
  | emptyObject h => exact .braces h.balanced
  | object _ ih => exact .braces ih
  | element hw _ hw' ih => exact hw.balanced.append (ih.append hw'.balanced)
  | moreElements hw _ hw' _ ihv iht =>
    exact hw.balanced.append (ihv.append (hw'.balanced.append (.cons hcomma iht)))
  | member hw hk hw' hu _ hu' ih =>
    exact hw.balanced.append (hk.balanced.append (hw'.balanced.append (.cons hcolon
      (hu.balanced.append (ih.append hu'.balanced)))))
  | moreMembers hw hk hw' hu _ hu' _ ihv iht =>
    exact hw.balanced.append (hk.balanced.append (hw'.balanced.append (.cons hcolon
      (hu.balanced.append (ihv.append (hu'.balanced.append (.cons hcomma iht)))))))

end JsonText
