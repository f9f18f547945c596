import Mathlib.Algebra.BigOperators.Group.List.Basic
import Mathlib.Algebra.Order.Group.Defs
import Mathlib.Tactic

/-! A group with two infinities and NaN, as floats have them: the infinities swallow what is finite,
opposite ones meet in NaN, and NaN swallows everything. -/

inductive Extended (G : Type*) where
  | val (g : G)
  | inf (negative : Bool)
  | nan
deriving DecidableEq, Repr

namespace Extended

variable {G : Type*}

def IsFinite : Extended G → Prop
  | val _ => True
  | _ => False

instance : DecidablePred (IsFinite (G := G))
  | val _ => isTrue trivial
  | inf _ => isFalse id
  | nan => isFalse id

@[simp] theorem isFinite_val (g : G) : (val g).IsFinite := trivial

@[simp] theorem not_isFinite_inf (negative : Bool) : ¬ (inf negative : Extended G).IsFinite := id

@[simp] theorem not_isFinite_nan : ¬ (nan : Extended G).IsFinite := id

def add [Add G] : Extended G → Extended G → Extended G
  | val g, val h => val (g + h)
  | val _, y => y
  | x, val _ => x
  | inf s, inf t => if s = t then inf s else nan
  | _, _ => nan

def neg [Neg G] : Extended G → Extended G
  | val g => val (-g)
  | inf s => inf (!s)
  | nan => nan

def mul [Mul G] [Zero G] [LinearOrder G] : Extended G → Extended G → Extended G
  | val g, val h => val (g * h)
  | val g, inf s => if g = 0 then nan else inf (s ^^ decide (g < 0))
  | inf s, val g => if g = 0 then nan else inf (s ^^ decide (g < 0))
  | inf s, inf t => inf (s ^^ t)
  | _, _ => nan

/-- Division of the finite values. -/
def divBy (div : G → ℕ → G) : Extended G → ℕ → Extended G
  | val g, n => val (div g n)
  | x, _ => x

instance [Zero G] : Zero (Extended G) := ⟨val 0⟩

instance [Add G] : Add (Extended G) := ⟨add⟩

instance [Mul G] [Zero G] [LinearOrder G] : Mul (Extended G) := ⟨mul⟩

instance [Add G] [Neg G] : Sub (Extended G) := ⟨fun x y => add x (neg y)⟩

@[simp] theorem val_add_val [Add G] (g h : G) : (val g + val h : Extended G) = val (g + h) := rfl

@[simp] theorem val_add_inf [Add G] (g : G) (s : Bool) : (val g + inf s : Extended G) = inf s := rfl

@[simp] theorem inf_add_val [Add G] (g : G) (s : Bool) : (inf s + val g : Extended G) = inf s := rfl

@[simp] theorem inf_add_inf [Add G] (s t : Bool) :
    (inf s + inf t : Extended G) = if s = t then inf s else nan := rfl

@[simp] theorem nan_add [Add G] (x : Extended G) : nan + x = nan := by cases x <;> rfl

@[simp] theorem add_nan [Add G] (x : Extended G) : x + nan = nan := by cases x <;> rfl

theorem zero_def [Zero G] : (0 : Extended G) = val 0 := rfl

instance [AddCommMonoid G] : AddCommMonoid (Extended G) where
  add_assoc x y z := by
    cases x with
    | nan => simp
    | val g =>
      cases y with
      | nan => simp
      | val h => cases z <;> simp [add_assoc]
      | inf t =>
        cases z with
        | inf u => by_cases h : t = u <;> simp [h]
        | _ => simp
    | inf s =>
      cases y with
      | nan => simp
      | val h => cases z <;> simp
      | inf t =>
        cases z with
        | nan => simp
        | val h => by_cases h : s = t <;> simp [h]
        | inf u => cases s <;> cases t <;> cases u <;> simp
  zero_add x := by cases x <;> simp [zero_def]
  add_zero x := by cases x <;> simp [zero_def]
  add_comm x y := by
    cases x with
    | nan => simp
    | val g => cases y <;> simp [add_comm]
    | inf s =>
      cases y with
      | inf t => cases s <;> cases t <;> simp
      | _ => simp
  nsmul := nsmulRec

theorem sub_def [Add G] [Neg G] (x y : Extended G) : x - y = x + neg y := rfl

/-- A sum is finite when all its terms are. -/
theorem isFinite_add [Add G] {x y : Extended G} : (x + y).IsFinite ↔ x.IsFinite ∧ y.IsFinite := by
  cases x with
  | nan => simp
  | val g => cases y <;> simp
  | inf s =>
    cases y with
    | inf t => by_cases h : s = t <;> simp [h]
    | _ => simp

theorem isFinite_sum [AddCommMonoid G] {xs : List (Extended G)} :
    xs.sum.IsFinite ↔ ∀ x ∈ xs, x.IsFinite := by
  induction xs with
  | nil => simp [zero_def]
  | cons x xs ih => rw [List.sum_cons, isFinite_add, ih, List.forall_mem_cons]

/-- What was added can be taken away only when it is finite. -/
theorem add_sub_self_left [AddCommGroup G] (s x : Extended G) :
    s + x - s = if s.IsFinite then x else nan := by
  rw [sub_def]
  cases s with
  | val g => cases x <;> simp [neg]
  | nan => simp
  | inf s =>
    cases x with
    | inf t => by_cases h : s = t <;> simp [h, neg]
    | _ => simp [neg]

/-- What the terms of a sum are, by what the sum is. -/
def SumShape (xs : List (Extended G)) : Extended G → Prop
  | val _ => ∀ x ∈ xs, x.IsFinite
  | inf s => inf s ∈ xs ∧ inf (!s) ∉ xs ∧ nan ∉ xs
  | nan => nan ∈ xs ∨ inf true ∈ xs ∧ inf false ∈ xs

theorem sumShape_sum [AddCommMonoid G] (xs : List (Extended G)) : SumShape xs xs.sum := by
  induction xs with
  | nil => exact fun x hx => by cases hx
  | cons x xs ih =>
    rw [List.sum_cons]
    revert ih
    cases x with
    | nan => intro _; simp [SumShape]
    | val g => cases xs.sum <;> simp [SumShape]
    | inf s =>
      cases xs.sum with
      | val h =>
        intro hfinite
        refine ⟨by simp, fun hmem => ?_, fun hmem => ?_⟩
        · rcases List.mem_cons.1 hmem with h | h
          · cases s <;> cases h
          · exact hfinite _ h
        · rcases List.mem_cons.1 hmem with h | h
          · cases h
          · exact hfinite _ h
      | inf t => cases s <;> cases t <;> simp +contextual [SumShape]
      | nan => simp +contextual [SumShape, or_imp]

/-- A sum is NaN when a term is, or when both infinities meet. -/
theorem sum_eq_nan_iff [AddCommMonoid G] {xs : List (Extended G)} :
    xs.sum = nan ↔ nan ∈ xs ∨ inf true ∈ xs ∧ inf false ∈ xs := by
  have hshape := sumShape_sum xs
  cases hsum : xs.sum with
  | nan => rw [hsum] at hshape; exact ⟨fun _ => hshape, fun _ => rfl⟩
  | val g =>
    rw [hsum] at hshape
    refine ⟨fun h => (by cases h), fun h => ?_⟩
    rcases h with h | h
    · exact (hshape _ h).elim
    · exact (hshape _ h.1).elim
  | inf s =>
    rw [hsum] at hshape
    refine ⟨fun h => (by cases h), fun h => ?_⟩
    rcases h with h | h
    · exact (hshape.2.2 h).elim
    · cases s
      · exact (hshape.2.1 h.1).elim
      · exact (hshape.2.1 h.2).elim

end Extended
