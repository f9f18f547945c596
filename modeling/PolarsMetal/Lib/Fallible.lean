import Mathlib.Tactic

/-! Reading a successful run of an `Except` block: each step succeeded, each
guard did not fire. -/

namespace Fallible

universe u

variable {ε : Type*} {α β : Type u}

theorem bind_eq_ok {x : Except ε α} {f : α → Except ε β} {b : β} :
    (x >>= f) = .ok b ↔ ∃ a, x = .ok a ∧ f a = .ok b := by
  cases x with
  | error e => simp [bind, Except.bind]
  | ok a => simp [bind, Except.bind]

theorem pure_eq_ok {a b : α} : (pure a : Except ε α) = .ok b ↔ a = b :=
  ⟨fun h => Except.ok.inj h, fun h => h ▸ rfl⟩

theorem throw_bind_ne_ok {e : ε} {f : α → Except ε β} {b : β} :
    ((throw e : Except ε α) >>= f) = .ok b ↔ False :=
  ⟨fun h => (by cases h), False.elim⟩

theorem guard_eq_ok {c : Prop} [Decidable c] {e : ε} {f : α → Except ε β} {x : Except ε β}
    {b : β} : (if c then ((throw e : Except ε α) >>= f) else x) = .ok b ↔ ¬c ∧ x = .ok b := by
  by_cases h : c
  · rw [if_pos h, throw_bind_ne_ok]; simp [h]
  · rw [if_neg h]; simp [h]

theorem mapM_eq_ok {f : α → Except ε β} {g : α → β} {xs : List α} (h : ∀ x ∈ xs, f x = .ok (g x)) :
    xs.mapM f = .ok (xs.map g) := by
  induction xs with
  | nil => rfl
  | cons x xs ih =>
    obtain ⟨hx, hrest⟩ := List.forall_mem_cons.1 h
    rw [List.mapM_cons, hx, ih hrest]
    rfl

theorem forall₂_of_mapM {f : α → Except ε β} {xs : List α} {ys : List β}
    (h : xs.mapM f = .ok ys) : List.Forall₂ (fun x y => f x = .ok y) xs ys := by
  induction xs generalizing ys with
  | nil =>
    obtain rfl := pure_eq_ok.1 (List.mapM_nil (f := f) ▸ h)
    exact .nil
  | cons x xs ih =>
    rw [List.mapM_cons] at h
    obtain ⟨y, hx, h⟩ := bind_eq_ok.1 h
    obtain ⟨ys', hxs, h⟩ := bind_eq_ok.1 h
    obtain rfl := pure_eq_ok.1 h
    exact .cons hx (ih hxs)

theorem mapM_of_forall {f : α → Except ε β} {R : α → β → Prop} {xs : List α}
    (h : ∀ x ∈ xs, ∃ y, f x = .ok y ∧ R x y) : ∃ ys, xs.mapM f = .ok ys ∧ List.Forall₂ R xs ys := by
  induction xs with
  | nil => exact ⟨[], rfl, .nil⟩
  | cons x xs ih =>
    obtain ⟨hx, hxs⟩ := List.forall_mem_cons.1 h
    obtain ⟨y, hy, hR⟩ := hx
    obtain ⟨ys, hys, hRs⟩ := ih hxs
    exact ⟨y :: ys, by rw [List.mapM_cons, hy, hys]; rfl, .cons hR hRs⟩

/-- A loop whose steps all succeed and keep an invariant of the entries read so far. -/
theorem foldlM_eq_ok {f : β → α → Except ε β} {I : List α → β → Prop} {b : β} {l : List α}
    (h0 : I [] b)
    (hstep : ∀ pre x b, x ∈ l → I pre b → ∃ b', f b x = .ok b' ∧ I (pre ++ [x]) b') :
    ∃ b', l.foldlM f b = .ok b' ∧ I l b' := by
  induction l using List.reverseRecOn with
  | nil => exact ⟨b, rfl, h0⟩
  | append_singleton xs x ih =>
    obtain ⟨b', hrun, hinv⟩ :=
      ih (fun pre y b hy => hstep pre y b (List.mem_append_left _ hy))
    obtain ⟨b'', hlast, hinv'⟩ := hstep xs x b' (by simp) hinv
    refine ⟨b'', ?_, hinv'⟩
    rw [List.foldlM_append, hrun]
    change List.foldlM f b' [x] = _
    rw [List.foldlM_cons, hlast]
    rfl

/-- What every successful step of a loop preserves holds after a successful run. -/
theorem foldlM_ok_invariant {f : β → α → Except ε β} {I : List α → β → Prop}
    (hstep : ∀ pre x b b', I pre b → f b x = .ok b' → I (pre ++ [x]) b') {l : List α} {b b' : β}
    {q : List α} (h0 : I q b) (hrun : l.foldlM f b = .ok b') : I (q ++ l) b' := by
  induction l generalizing q b with
  | nil =>
    obtain rfl := Except.ok.inj hrun
    rwa [List.append_nil]
  | cons x l ih =>
    rw [List.foldlM_cons] at hrun
    obtain ⟨b₁, hx, hrest⟩ := bind_eq_ok.1 hrun
    rw [List.append_cons]
    exact ih (hstep q x b b₁ h0 hx) hrest

end Fallible
