import PolarsMetal.Fft.Stockham

/-! What the stages leave: after the stages for `p` points, block by block, the transforms of the
signal's points that lie `q` apart, `p` of them each. -/

namespace PolarsMetal.Fft
open Interleave Barriers Dft

variable {K : Type*} [CommRing K] {ω : K} {x : ℕ → K}

/-- The transforms of `q` strided parts of `x`, `p` points each, one after the other. -/
def Partial (ω : K) (x : ℕ → K) (p q : ℕ) (buf : ℕ → K) : Prop :=
  ∀ blk < q, ∀ k < p, buf (blk * p + k) = dft (ω ^ q) p (fun u => x (blk + u * q)) k

theorem Partial.start {n : ℕ} {buf : ℕ → K} (h : ∀ i < n, buf i = x i) : Partial ω x 1 n buf := by
  intro blk hblk k hk
  obtain rfl : k = 0 := by omega
  rw [dft_one, Nat.mul_one, Nat.add_zero, Nat.zero_mul, Nat.add_zero]
  exact h blk hblk

theorem Partial.done {n : ℕ} {buf : ℕ → K} (h : Partial ω x n 1 buf) {k : ℕ} (hk : k < n) :
    buf k = dft ω n x k := by
  have hblk := h 0 (by omega) k hk
  rw [Nat.zero_mul, Nat.zero_add, pow_one] at hblk
  rw [hblk]
  exact dft_congr (fun j _ => by rw [Nat.zero_add, Nat.mul_one]) k

theorem tile_div {d b s : ℕ} (hs : s < d) : (b * d + s) / d = b := by
  rw [Nat.mul_comm, Nat.mul_add_div (by omega), Nat.div_eq_of_lt hs, Nat.add_zero]

theorem tile_mod {d b s : ℕ} (hs : s < d) : (b * d + s) % d = s := by
  rw [Nat.mul_comm, Nat.mul_add_mod, Nat.mod_eq_of_lt hs]

theorem tile_lt {d b s q : ℕ} (hs : s < d) (hb : b < q) : b * d + s < q * d := by
  calc b * d + s < (b + 1) * d := by rw [Nat.add_mul, Nat.one_mul]; omega
    _ ≤ q * d := Nat.mul_le_mul_right d hb

/-- Where output `t` of butterfly `i` goes. -/
def slot (r p i t : ℕ) : ℕ := i / p * (r * p) + i % p + t * p

theorem slot_eq (r p i t : ℕ) : slot r p i t = (i / p * r + t) * p + i % p := by
  unfold slot
  ring

theorem slot_inj {r p i t i' t' : ℕ} (hp : 0 < p) (ht : t < r) (ht' : t' < r)
    (h : slot r p i t = slot r p i' t') : i = i' ∧ t = t' := by
  have hi := Nat.mod_lt i hp
  have hi' := Nat.mod_lt i' hp
  rw [slot_eq, slot_eq] at h
  have hrow : i / p * r + t = i' / p * r + t' := by
    rw [← @tile_div p (i / p * r + t) _ hi, h, tile_div hi']
  have hcol : i % p = i' % p := by
    rw [← @tile_mod p (i / p * r + t) _ hi, h, tile_mod hi']
  have hblk : i / p = i' / p := by
    rw [← @tile_div r (i / p) _ ht, hrow, tile_div ht']
  refine ⟨?_, ?_⟩
  · rw [← Nat.div_add_mod i p, ← Nat.div_add_mod i' p, hblk, hcol]
  · rw [hblk] at hrow
    omega

/-- The butterflies of one stage take the transforms `r` at a time. -/
theorem Partial.advance {p q r : ℕ} {buf out : ℕ → K} (hω : ω ^ (p * (r * q)) = 1)
    (h : Partial ω x p (r * q) buf)
    (hout : ∀ i < p * q, ∀ t < r, out (slot r p i t) =
      dft (ω ^ (p * q)) r (fun s => buf (i + s * (p * q)) * ω ^ (s * (i % p) * q)) t) :
    Partial ω x (r * p) q out := by
  intro blk hblk κ hκ
  have hp : 0 < p := Nat.pos_of_ne_zero fun h0 => by subst h0; simp at hκ
  have hk := Nat.mod_lt κ hp
  have ht : κ / p < r := (Nat.div_lt_iff_lt_mul hp).2 hκ
  have hi : blk * p + κ % p < p * q := Nat.mul_comm q p ▸ tile_lt hk hblk
  have hdiv : (blk * p + κ % p) / p = blk := tile_div hk
  have hmod : (blk * p + κ % p) % p = κ % p := tile_mod hk
  have hκ' : κ % p + κ / p * p = κ := by
    rw [Nat.mul_comm]
    exact Nat.mod_add_div κ p
  have hslot : blk * (r * p) + κ = slot r p (blk * p + κ % p) (κ / p) := by
    unfold slot
    rw [hdiv, hmod, Nat.add_assoc, hκ']
  have hroot : (ω ^ q) ^ (r * p) = 1 := by
    rw [← pow_mul, show q * (r * p) = p * (r * q) by ring, hω]
  have hgrid := dft_grid hroot (fun u => x (blk + u * q)) (κ % p) (κ / p)
  rw [hκ'] at hgrid
  rw [hslot, hout _ hi _ ht, hgrid, hmod, ← pow_mul, Nat.mul_comm q p]
  refine dft_congr (fun s hs => ?_) _
  have hin : blk + s * q < r * q := Nat.add_comm blk _ ▸ tile_lt hblk hs
  have hread : blk * p + κ % p + s * (p * q) = (blk + s * q) * p + κ % p := by ring
  rw [hread, h _ hin _ hk, mul_comm, ← pow_mul, ← pow_mul, Nat.mul_comm q r,
    Nat.mul_comm (s * (κ % p)) q]
  congr 1
  refine dft_congr (fun u _ => ?_) _
  congr 1
  ring

/-- A stage whose threads share out the butterflies. -/
theorem stage_advance {size p q r : ℕ} {swapped : Bool} {phase : Phase (TgMem K)}
    (value : ℕ → ℕ → (ℕ → K) → K) (hsize : 0 < size) (hω : ω ^ (p * (r * q)) = 1)
    (hphase : ∀ tid < size, ∀ op, op ∈ phase tid ↔ ∃ i < p * q, i % size = tid ∧ ∃ t < r,
      op = TgMem.setDst swapped (slot r p i t) (value i t))
    (hvalue : ∀ src, ∀ i < p * q, ∀ t < r, value i t src =
      dft (ω ^ (p * q)) r (fun s => src (i + s * (p * q)) * ω ^ (s * (i % p) * q)) t) :
    Triple size (fun m => Partial ω x p (r * q) (m.src swapped)) [phase]
      (fun m => Partial ω x (r * p) q (m.src !swapped)) := by
  refine Triple.single fun m turns hcomplete hm => hm.advance hω fun i hi t ht => ?_
  rw [← hvalue _ i hi t ht]
  have hp : 0 < p := Nat.pos_of_ne_zero fun h0 => by subst h0; simp at hi
  have htid := Nat.mod_lt i hsize
  refine runPhase_written (TgMem.src swapped) (fun m => m.src (!swapped) _) (value i t) hcomplete
    (fun tid htid op hop m => ?_) (fun tid htid op hop => ?_) htid
    ((hphase _ htid _).2 ⟨i, hi, rfl, t, ht, rfl⟩) (fun m => ?_) m
  · obtain ⟨i', -, -, t', -, rfl⟩ := (hphase tid htid op).1 hop
    exact TgMem.src_setDst ..
  · obtain ⟨i', -, -, t', ht', rfl⟩ := (hphase tid htid op).1 hop
    by_cases hsame : slot r p i t = slot r p i' t'
    · obtain ⟨rfl, rfl⟩ := slot_inj hp ht ht' hsame
      refine .inr fun m => ?_
      rw [TgMem.src_not_setDst, Function.update_self]
    · refine .inl fun m => ?_
      rw [TgMem.src_not_setDst, Function.update_of_ne hsame]
  · rw [TgMem.src_not_setDst, Function.update_self]

/-! The radix-2 stages. -/

theorem pow2Stage_advance {A : Arith K} {inverse : Bool} {size s q : ℕ} (swapped : Bool)
    (hsize : 0 < size) (hexact : A.Exact inverse ω (2 ^ s * (2 * q)))
    (hhalf : ω ^ (2 ^ s * q) = -1) :
    Triple size (fun m => Partial ω x (2 ^ s) (2 * q) (m.src swapped))
      [pow2Stage A inverse (2 ^ s * (2 * q)) size swapped (2 ^ s)]
      (fun m => Partial ω x (2 * 2 ^ s) q (m.src !swapped)) := by
  have hp : 0 < 2 ^ s := Nat.two_pow_pos s
  have hlen : 2 ^ s * (2 * q) / 2 = 2 ^ s * q := by
    rw [Nat.mul_left_comm, Nat.mul_div_cancel_left _ (by omega)]
  have htwiddle : ∀ j, A.twiddle j (2 * 2 ^ s) inverse = ω ^ (j * q) := by
    intro j
    have hsplit : 2 ^ s * (2 * q) = 2 * 2 ^ s * q := by ring
    rw [hexact j _ ⟨q, hsplit⟩, hsplit, Nat.mul_div_cancel_left _ (by omega)]
  have hslot : ∀ i t, i / 2 ^ s * (2 * 2 ^ s) + (i &&& (2 ^ s - 1)) + t * 2 ^ s =
      slot 2 (2 ^ s) i t := by
    intro i t
    rw [Nat.and_two_pow_sub_one_eq_mod]
    rfl
  refine stage_advance
    (fun i t src => if t = 0
      then src i + src (i + 2 ^ s * q) * ω ^ ((i &&& (2 ^ s - 1)) * q)
      else src i - src (i + 2 ^ s * q) * ω ^ ((i &&& (2 ^ s - 1)) * q))
    hsize ?_ (fun tid htid op => ?_) fun src i _ t ht => ?_
  · rw [show 2 ^ s * (2 * q) = 2 ^ s * q * 2 by ring, pow_mul, hhalf, neg_one_sq]
  · unfold pow2Stage
    simp only [List.mem_flatMap, mem_strided htid, hlen, htwiddle, List.mem_cons,
      List.not_mem_nil, or_false]
    refine ⟨fun ⟨i, ⟨hi, htid⟩, hop⟩ => ?_, fun ⟨i, hi, htid, t, ht, hop⟩ => ?_⟩
    · rcases hop with rfl | rfl
      · refine ⟨i, hi, htid, 0, by omega, ?_⟩
        rw [← hslot, Nat.zero_mul]
        rfl
      · refine ⟨i, hi, htid, 1, by omega, ?_⟩
        rw [← hslot, Nat.one_mul]
        rfl
    · refine ⟨i, ⟨hi, htid⟩, ?_⟩
      subst hop
      interval_cases t
      · left
        rw [← hslot, Nat.zero_mul]
        rfl
      · right
        rw [← hslot, Nat.one_mul]
        rfl
  · rw [dft_two, Nat.and_two_pow_sub_one_eq_mod, hhalf]
    interval_cases t
    · simp
    · simp [sub_eq_add_neg]

theorem swaps_eq (swapped : Bool) (n : ℕ) : swaps swapped n = (swapped ^^ (n % 2 == 1)) := by
  induction n generalizing swapped with
  | zero => cases swapped <;> rfl
  | succ n ih =>
    unfold swaps
    rw [ih]
    have hpar : n % 2 = 0 ∧ (n + 1) % 2 = 1 ∨ n % 2 = 1 ∧ (n + 1) % 2 = 0 := by omega
    rcases hpar with ⟨h0, h1⟩ | ⟨h0, h1⟩
    · rw [h0, h1]
      cases swapped <;> rfl
    · rw [h0, h1]
      cases swapped <;> rfl

theorem length_pow2Stages (A : Arith K) (inverse : Bool) (size s e : ℕ) (swapped : Bool) :
    (pow2Stages A inverse (2 ^ (s + e)) size (2 ^ s) swapped).length = e := by
  induction e generalizing s swapped with
  | zero =>
    rw [pow2Stages, if_neg (by simp), List.length_nil]
  | succ e ih =>
    have hlt : 2 ^ s < 2 ^ (s + (e + 1)) := Nat.pow_lt_pow_right (by omega) (by omega)
    rw [pow2Stages, if_pos ⟨Nat.two_pow_pos s, hlt⟩, List.length_cons, ← pow_succ', ← Nat.add_assoc,
      Nat.add_right_comm, ih]

/-- All stages from transforms of `2 ^ s` points on. -/
theorem pow2Stages_done {A : Arith K} {inverse : Bool} {size s e : ℕ} (swapped : Bool)
    (hsize : 0 < size) (hexact : A.Exact inverse ω (2 ^ (s + e)))
    (hroot : IsPow2Root ω (s + e)) :
    Triple size (fun m => Partial ω x (2 ^ s) (2 ^ e) (m.src swapped))
      (pow2Stages A inverse (2 ^ (s + e)) size (2 ^ s) swapped)
      (fun m => Partial ω x (2 ^ (s + e)) 1 (m.src (swaps swapped e))) := by
  induction e generalizing s swapped with
  | zero =>
    rw [pow2Stages, if_neg (by simp)]
    exact Triple.nil
  | succ e ih =>
    have hlt : 2 ^ s < 2 ^ (s + (e + 1)) := Nat.pow_lt_pow_right (by omega) (by omega)
    have hsplit : 2 ^ (s + (e + 1)) = 2 ^ s * (2 * 2 ^ e) := by
      rw [pow_add, pow_succ']
    have hshift : s + (e + 1) = s + 1 + e := by omega
    have hhalf : ω ^ (2 ^ s * 2 ^ e) = -1 := by
      have h : IsPow2Root ω (s + e + 1) := by rwa [hshift, Nat.add_right_comm] at hroot
      rw [← pow_add]
      exact h
    have hfirst := pow2Stage_advance (x := x) swapped hsize (hsplit ▸ hexact) hhalf
    rw [← hsplit, ← pow_succ', ← pow_succ'] at hfirst
    have hrest := ih (!swapped) (hshift ▸ hexact) (hshift ▸ hroot)
    rw [← hshift] at hrest
    rw [pow2Stages, if_pos ⟨Nat.two_pow_pos s, hlt⟩, ← pow_succ']
    exact Triple.append hfirst hrest

/-! A whole group: load, stages, store. -/

omit [CommRing K] in
theorem load_spec {g size n : ℕ} (hsize : 0 < size) (value : ℕ → (ℕ → K) → K) (d : ℕ → K) :
    Triple size (fun s => s.data = d) [load g size n value]
      (fun s => (∀ i < n, (s.tg g).a i = value i d) ∧ s.data = d) := by
  refine Triple.single fun s turns hcomplete hs => ?_
  have hdata : ∀ tid < size, ∀ op ∈ load g size n value tid, ∀ m : GridMem K,
      (op m).data = m.data := by
    intro tid _ op hop m
    obtain ⟨i, -, rfl⟩ := List.mem_map.1 hop
    rfl
  refine ⟨fun i hi => ?_, (runPhase_frame GridMem.data hdata s turns).trans hs⟩
  have htid := Nat.mod_lt i hsize
  rw [← hs]
  refine runPhase_written GridMem.data (fun m => (m.tg g).a i) (value i) hcomplete hdata
    (fun tid _ op hop => ?_) htid (List.mem_map.2 ⟨i, (mem_strided htid).2 ⟨hi, rfl⟩, rfl⟩)
    (fun m => ?_) s
  · obtain ⟨j, -, rfl⟩ := List.mem_map.1 hop
    by_cases hj : i = j
    · subst hj
      refine .inr fun m => ?_
      rw [GridMem.onTg_tg]
      exact Function.update_self ..
    · refine .inl fun m => ?_
      rw [GridMem.onTg_tg]
      exact Function.update_of_ne hj ..
  · rw [GridMem.onTg_tg]
    exact Function.update_self ..

omit [CommRing K] in
theorem storeOut_spec {g size n : ℕ} (hsize : 0 < size) {addr : ℕ → ℕ}
    (haddr : ∀ i < n, ∀ j < n, addr i = addr j → i = j) (value : ℕ → TgMem K → K) (m₀ : TgMem K)
    (d : ℕ → K) :
    Triple size (fun s => s.tg g = m₀ ∧ s.data = d) [storeOut g size n addr value]
      (fun s => (∀ i < n, s.data (addr i) = value i m₀) ∧
        ∀ j, (∀ i < n, addr i ≠ j) → s.data j = d j) := by
  refine Triple.single fun s turns hcomplete hs => ?_
  obtain ⟨htg, hdata⟩ := hs
  have hkeep : ∀ tid < size, ∀ op ∈ storeOut g size n addr value tid, ∀ m : GridMem K,
      (op m).tg g = m.tg g := by
    intro tid _ op hop m
    obtain ⟨i, -, rfl⟩ := List.mem_map.1 hop
    rfl
  refine ⟨fun i hi => ?_, fun j hj => ?_⟩
  · have htid := Nat.mod_lt i hsize
    rw [← htg]
    refine runPhase_written (fun m => m.tg g) (fun m => m.data (addr i)) (value i) hcomplete hkeep (fun tid htid' op hop => ?_) htid
      (List.mem_map.2 ⟨i, (mem_strided htid).2 ⟨hi, rfl⟩, rfl⟩) (fun m => ?_) s
    · obtain ⟨j, hj, rfl⟩ := List.mem_map.1 hop
      by_cases hsame : addr i = addr j
      · obtain rfl := haddr i hi j ((mem_strided htid').1 hj).1 hsame
        refine .inr fun m => ?_
        rw [GridMem.setData_data, Function.update_self]
      · refine .inl fun m => ?_
        rw [GridMem.setData_data, Function.update_of_ne hsame]
    · rw [GridMem.setData_data, Function.update_self]
  · rw [← hdata]
    refine runPhase_frame (fun m : GridMem K => m.data j) (fun tid htid op hop m => ?_) s turns
    obtain ⟨i, hi, rfl⟩ := List.mem_map.1 hop
    rw [GridMem.setData_data, Function.update_of_ne (hj i ((mem_strided htid).1 hi).1).symm]

omit [CommRing K] in
/-- What the stages make of the loaded values is what the group stores, and it stores nothing
else. -/
theorem group_spec (g : ℕ) {size n : ℕ} (hsize : 0 < size) {addr : ℕ → ℕ}
    (haddr : ∀ i < n, ∀ j < n, addr i = addr j → i = j) (value : ℕ → (ℕ → K) → K)
    {stages : List (Phase (TgMem K))} (out : ℕ → TgMem K → K) (d res : ℕ → K)
    (hstages : Triple size (fun m => ∀ i < n, m.a i = value i d) stages
      (fun m => ∀ k < n, out k m = res k)) :
    Triple size (fun s => s.data = d)
      (load g size n value :: stages.map (liftPhase (GridMem.onTg g)) ++
        [storeOut g size n addr out])
      (fun s => (∀ k < n, s.data (addr k) = res k) ∧
        ∀ j, (∀ i < n, addr i ≠ j) → s.data j = d j) := by
  have hlift := hstages.lift (fun s : GridMem K => s.tg g) GridMem.data
    (fun op m => GridMem.onTg_tg g op m) (fun op m => GridMem.onTg_data g op m) d
  refine Triple.append (Triple.append (load_spec hsize value d) hlift) fun turns s hcomplete hs => ?_
  obtain ⟨hres, hdata⟩ := hs
  obtain ⟨hin, hout⟩ :=
    storeOut_spec hsize haddr out (s.tg g) d turns s hcomplete ⟨rfl, hdata⟩
  exact ⟨fun k hk => (hin k hk).trans (hres k hk), hout⟩

/-- The stages from a loaded signal to its transform. -/
theorem pow2Stages_dft {A : Arith K} {inverse : Bool} {size e : ℕ} (hsize : 0 < size)
    (hexact : A.Exact inverse ω (2 ^ e)) (hroot : IsPow2Root ω e) :
    Triple size (fun m => ∀ i < 2 ^ e, m.a i = x i) (pow2Stages A inverse (2 ^ e) size 1 false)
      (fun m => ∀ k < 2 ^ e, m.src (swaps false e) k = dft ω (2 ^ e) x k) := by
  have hstages := @pow2Stages_done K _ ω x A inverse size 0 e false hsize
    (by rwa [Nat.zero_add]) (by rwa [Nat.zero_add])
  rw [Nat.zero_add, pow_zero] at hstages
  intro turns m hcomplete hm k hk
  exact (hstages turns m hcomplete (Partial.start hm)).done hk

theorem length_pow2Stages_one (A : Arith K) (inverse : Bool) (size e : ℕ) :
    (pow2Stages A inverse (2 ^ e) size 1 false).length = e := by
  have h := length_pow2Stages A inverse size 0 e false
  rwa [Nat.zero_add, pow_zero] at h

/-- The shared core leaves the transform in `a`. -/
theorem stockhamPow2Tg_dft {A : Arith K} {size e : ℕ} (hsize : 0 < size)
    (hexact : A.Exact false ω (2 ^ e)) (hroot : IsPow2Root ω e) :
    Triple size (fun m => ∀ i < 2 ^ e, m.a i = x i) (stockhamPow2Tg A (2 ^ e) size)
      (fun m => ∀ k < 2 ^ e, m.a k = dft ω (2 ^ e) x k) := by
  have hstages := pow2Stages_dft (x := x) hsize hexact hroot
  unfold stockhamPow2Tg
  simp only [length_pow2Stages_one]
  rw [swaps_eq] at hstages
  split_ifs with hodd
  · have hparity : e % 2 = 1 := by omega
    rw [hparity] at hstages
    refine hstages.append (Triple.single fun m turns hcomplete hm k hk => ?_)
    have htid := Nat.mod_lt k hsize
    rw [← hm k hk]
    refine runPhase_written TgMem.b (fun m => m.a k) (fun b => b k) hcomplete (fun tid _ op hop m => ?_) (fun tid _ op hop => ?_) htid
      (List.mem_map.2 ⟨k, (mem_strided htid).2 ⟨hk, rfl⟩, rfl⟩) (fun m => ?_) m
    · obtain ⟨i, -, rfl⟩ := List.mem_map.1 hop
      rfl
    · obtain ⟨i, -, rfl⟩ := List.mem_map.1 hop
      by_cases hi : k = i
      · subst hi
        exact .inr fun m => Function.update_self ..
      · exact .inl fun m => Function.update_of_ne hi ..
    · exact Function.update_self ..
  · have hparity : e % 2 = 0 := by omega
    rw [hparity] at hstages
    exact hstages

/-- The radix-2 kernel writes the transform of its input. -/
theorem fftStockhamPow2F32_dft {A : Arith K} {root : Bool → K} {inverse : Bool} {g size e : ℕ}
    (hsize : 0 < size) (hexact : A.Exact inverse (root inverse) (2 ^ e))
    (hroot : IsPow2Root (root inverse) e) (d : ℕ → K) :
    Triple size (fun s => s.data = d) (fftStockhamPow2F32 A x (2 ^ e) inverse g size)
      (fun s => (∀ k < 2 ^ e, s.data k = dftReference root A.recip x (2 ^ e) inverse k) ∧
        ∀ j, 2 ^ e ≤ j → s.data j = d j) := by
  have hstages := pow2Stages_dft (x := x) hsize hexact hroot
  have hgroup := @group_spec K g size (2 ^ e) hsize id (fun i _ j _ hij => hij) (fun i _ => x i)
    (pow2Stages A inverse (2 ^ e) size 1 false)
    (fun i m => m.src (swaps false e) i * if inverse then A.recip (2 ^ e) else 1) d
    (dftReference root A.recip x (2 ^ e) inverse) (fun turns m hcomplete hm k hk => by
      rw [hstages turns m hcomplete hm k hk, dftReference_eq])
  unfold fftStockhamPow2F32
  simp only [length_pow2Stages_one]
  intro turns s hcomplete hs
  obtain ⟨hin, hout⟩ := hgroup turns s hcomplete hs
  exact ⟨hin, fun j hj => hout j fun i hi hij => by subst hij; exact absurd hi (by simpa using hj)⟩

/-- Twiddles with the root `ω` of `n` points, and no reciprocals. -/
def powersOf (ω : K) (n : ℕ) : Arith K where
  twiddle k p _ := ω ^ (k * (n / p))
  recip _ := 0

end PolarsMetal.Fft
