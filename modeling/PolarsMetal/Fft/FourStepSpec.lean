import PolarsMetal.Fft.FourStep
import PolarsMetal.Lib.Fallible
import PolarsMetal.Lib.Strided
import Mathlib.Data.ZMod.Basic

/-! The four-step pass transforms each signal: what each kernel leaves, and by recursion what the
pass leaves. -/

namespace PolarsMetal.Fft
open Interleave Barriers Dft Fallible

variable {K : Type*}

/-! Kernels in place. -/

section InPlace

variable [CommRing K] {A : Arith K} {ω : K}

theorem Arith.Exact.sub {inverse : Bool} {n d : ℕ} (h : A.Exact inverse ω n) (hd : d ∣ n) :
    A.Exact inverse (ω ^ (n / d)) d := by
  intro k p hp
  obtain ⟨q, rfl⟩ := hd
  obtain ⟨r, rfl⟩ := hp
  rcases Nat.eq_zero_or_pos p with rfl | hp
  · rw [h k 0 (by simp)]
    simp
  · rcases Nat.eq_zero_or_pos r with rfl | hr
    · rw [h k p (by simp)]
      simp
    · rw [h k p ⟨r * q, by ring⟩, ← pow_mul, Nat.mul_div_cancel_left _ (Nat.mul_pos hp hr),
        Nat.mul_div_cancel_left _ hp, Nat.mul_assoc p, Nat.mul_div_cancel_left _ hp]
      congr 1
      ring

/-- What an operation of such a group does. -/
theorem mem_inPlace {addr : ℕ → ℕ} {n g size tid : ℕ} (htid : tid < size)
    {phase : Phase (GridMem K)} (hphase : phase ∈ inPlace A addr n g size)
    {op : GridMem K → GridMem K} (hop : op ∈ phase tid) :
    (∃ i < n, op = fun s => s.onTg g (TgMem.setA i fun _ => s.data (addr i))) ∨
      (∃ f, op = GridMem.onTg g f) ∨
      ∃ i < n, op = GridMem.setData (addr i) fun s => (s.tg g).a i := by
  rcases List.mem_append.1 hphase with hphase | hphase
  · rcases List.mem_cons.1 hphase with rfl | hphase
    · obtain ⟨i, hi, rfl⟩ := List.mem_map.1 hop
      exact .inl ⟨i, ((mem_strided htid).1 hi).1, rfl⟩
    · obtain ⟨stage, -, rfl⟩ := List.mem_map.1 hphase
      obtain ⟨f, -, rfl⟩ := List.mem_map.1 hop
      exact .inr (.inl ⟨f, rfl⟩)
  · obtain rfl := List.mem_singleton.1 hphase
    obtain ⟨i, hi, rfl⟩ := List.mem_map.1 hop
    exact .inr (.inr ⟨i, ((mem_strided htid).1 hi).1, rfl⟩)

/-- Groups that own different points transform them in place, whatever the order of their
operations, and touch no other point. -/
theorem runGrid_inPlace {groups e : ℕ} {size : ℕ → ℕ} {addr : ℕ → ℕ → ℕ}
    (hsize : ∀ g < groups, 0 < size g) (hexact : A.Exact false ω (2 ^ e)) (hroot : IsPow2Root ω e)
    (haddr : ∀ g < groups, ∀ i < 2 ^ e, ∀ u < groups, ∀ j < 2 ^ e,
      addr g i = addr u j → g = u ∧ i = j) (s : Schedule) (m : GridMem K) :
    (∀ g < groups, ∀ k < 2 ^ e,
      (runGrid groups size (fun g => inPlace A (addr g) (2 ^ e) g (size g)) s m).data (addr g k) =
        dft ω (2 ^ e) (fun i => m.data (addr g i)) k) ∧
    ∀ j, (∀ g < groups, ∀ i < 2 ^ e, addr g i ≠ j) →
      (runGrid groups size (fun g => inPlace A (addr g) (2 ^ e) g (size g)) s m).data j =
        m.data j := by
  refine ⟨fun g hg k hk => ?_, fun j hj => ?_⟩
  · -- a group sees its own memory and its own points
    let view : GridMem K → TgMem K × (Fin (2 ^ e) → K) := fun s => (s.tg g, fun i => s.data (addr g i))
    have hview := @runGrid_view _ groups size (fun g => inPlace A (addr g) (2 ^ e) g (size g)) _ view s
      m g hg
      (fun phase hphase t ht op hop s s' hs => ?_)
      (fun u hu hne phase hphase t ht op hop s => ?_)
    · have hpoint := congrFun (congrArg Prod.snd hview) ⟨k, hk⟩
      refine hpoint.trans ?_
      have hspec := group_spec g (hsize g hg)
        (fun i hi j hj hij => (haddr g hg i hi g hg j hj hij).2)
        (fun i data => data (addr g i)) (fun i m => m.a i) m.data _
        (stockhamPow2Tg_dft (x := fun i => m.data (addr g i)) (hsize g hg) hexact hroot)
      exact (hspec.runGroup (s.turns g) (m := m) rfl).1 k hk
    · have htg : s.tg g = s'.tg g := congrArg Prod.fst hs
      have hdata : ∀ i < 2 ^ e, s.data (addr g i) = s'.data (addr g i) := fun i hi =>
        congrFun (congrArg Prod.snd hs) ⟨i, hi⟩
      rcases mem_inPlace ht hphase hop with ⟨i, hi, rfl⟩ | ⟨f, rfl⟩ | ⟨i, hi, rfl⟩
      · refine Prod.ext ?_ (funext fun j => hdata j j.2)
        show (GridMem.onTg g _ s).tg g = (GridMem.onTg g _ s').tg g
        rw [GridMem.onTg_tg, GridMem.onTg_tg, htg, hdata i hi]
      · refine Prod.ext ?_ (funext fun j => hdata j j.2)
        show (GridMem.onTg g f s).tg g = (GridMem.onTg g f s').tg g
        rw [GridMem.onTg_tg, GridMem.onTg_tg, htg]
      · refine Prod.ext htg (funext fun j => ?_)
        show Function.update s.data (addr g i) ((s.tg g).a i) (addr g j) =
          Function.update s'.data (addr g i) ((s'.tg g).a i) (addr g j)
        rw [htg]
        by_cases hij : addr g j = addr g i
        · rw [hij, Function.update_self, Function.update_self]
        · rw [Function.update_of_ne hij, Function.update_of_ne hij, hdata j j.2]
    · rcases mem_inPlace ht hphase hop with ⟨i, hi, rfl⟩ | ⟨f, rfl⟩ | ⟨i, hi, rfl⟩
      · exact Prod.ext (GridMem.onTg_tg_of_ne (Ne.symm hne) _ s) rfl
      · exact Prod.ext (GridMem.onTg_tg_of_ne (Ne.symm hne) _ s) rfl
      · refine Prod.ext rfl (funext fun j => Function.update_of_ne (fun hij => hne ?_) ..)
        exact (haddr g hg j j.2 u hu i hi hij).1.symm
  · refine runGrid_frame (fun s : GridMem K => s.data j) s m
      fun g hg phase hphase t ht op hop m => ?_
    rcases mem_inPlace ht hphase hop with ⟨i, hi, rfl⟩ | ⟨f, rfl⟩ | ⟨i, hi, rfl⟩
    · rfl
    · rfl
    · exact Function.update_of_ne (hj g hg i hi).symm ..

end InPlace

/-! The dispatches. -/

section Dispatch

variable [CommRing K] {A : Arith K} {ω : K} {M : Machine K}

/-- A dispatch of `groups` full groups that transform in place. -/
theorem dispatch_inPlace (depth : ℕ) (pass : Pass) (addr : ℕ → ℕ → ℕ) {groups width e : ℕ}
    (hwidth : 0 < width) (hmax : width ≤ M.maxThreads) (hgroups : 0 < groups)
    (hexact : A.Exact false ω (2 ^ e)) (hroot : IsPow2Root ω e)
    (haddr : ∀ g < groups, ∀ i < 2 ^ e, ∀ u < groups, ∀ j < 2 ^ e,
      addr g i = addr u j → g = u ∧ i = j) (data : ℕ → K) :
    ∃ data', M.dispatch1dWithTg depth pass (groups * width) width
        (fun g size => inPlace A (addr g) (2 ^ e) g size) data = .ok data' ∧
      (∀ g < groups, ∀ k < 2 ^ e, data' (addr g k) = dft ω (2 ^ e) (fun i => data (addr g i)) k) ∧
      ∀ j, (∀ g < groups, ∀ i < 2 ^ e, addr g i ≠ j) → data' j = data j := by
  have htg : max (min width M.maxThreads) 1 = width := by omega
  have hcount : (groups * width + width - 1) / width = groups := by
    rw [Nat.add_sub_assoc hwidth]
    exact tile_div (by omega)
  have hsize : ∀ g < groups, 0 < min width (groups * width - g * width) := by
    intro g hg
    have hlt : g * width < groups * width := Nat.mul_lt_mul_of_pos_right hg hwidth
    omega
  unfold Machine.dispatch1dWithTg
  rw [if_neg (Nat.mul_pos hgroups hwidth).ne', htg]
  dsimp only
  rw [hcount]
  exact ⟨_, rfl, runGrid_inPlace hsize hexact hroot haddr (M.groups depth pass)
    ⟨data, M.tg depth pass⟩⟩

/-- The base case: one group for each signal. -/
theorem dispatch_base (depth : ℕ) {batch e : ℕ} (hmax : 2 ^ e ≤ M.maxThreads) (hbatch : 0 < batch)
    (hcap : batch * 2 ^ e < 2 ^ 32) (hexact : A.Exact false ω (2 ^ e)) (hroot : IsPow2Root ω e)
    (data : ℕ → K) :
    ∃ data', M.dispatch1dWithTg depth .base (batch * 2 ^ e) (2 ^ e)
        (fftStockhamPow2Batched A (2 ^ e)) data = .ok data' ∧
      (∀ s < batch, ∀ k < 2 ^ e, data' (s * 2 ^ e + k) =
        dft ω (2 ^ e) (fun i => data (s * 2 ^ e + i)) k) ∧
      ∀ j, batch * 2 ^ e ≤ j → data' j = data j := by
  have haddr : ∀ s < batch, ∀ i < 2 ^ e, u32 (u32 (s * 2 ^ e) + i) = s * 2 ^ e + i := by
    intro s hs i hi
    have hlt := tile_lt hi hs
    rw [u32_of_lt (x := s * 2 ^ e) (by omega), u32_of_lt (by omega)]
  obtain ⟨data', hok, hin, hout⟩ := dispatch_inPlace depth .base
    (fun g i => u32 (u32 (g * 2 ^ e) + i)) (Nat.two_pow_pos e) hmax hbatch hexact hroot
    (fun s hs i hi u hu j hj h => by
      rw [haddr s hs i hi, haddr u hu j hj] at h
      exact ⟨by rw [← @tile_div _ s _ hi, h, tile_div hj], by rw [← @tile_mod _ s _ hi, h,
        tile_mod hj]⟩) data
  refine ⟨data', hok, fun s hs k hk => ?_, fun j hj => hout j fun s hs i hi => ?_⟩
  · rw [← haddr s hs k hk, hin s hs k hk]
    exact dft_congr (fun i hi => by rw [haddr s hs i hi]) k
  · have hlt := tile_lt hi hs
    rw [haddr s hs i hi]
    omega

/-- The columns: one group for each column of each signal. -/
theorem dispatch_cols (depth : ℕ) {batch e l2 : ℕ} (hmax : 2 ^ e ≤ M.maxThreads) (hbatch : 0 < batch)
    (hl2 : 0 < l2) (hcap : batch * (2 ^ e * l2) < 2 ^ 32) (hexact : A.Exact false ω (2 ^ e))
    (hroot : IsPow2Root ω e) (data : ℕ → K) :
    ∃ data', M.dispatch1dWithTg depth .cols (batch * l2 * 2 ^ e) (2 ^ e)
        (fftFourstepCols A (2 ^ e) l2) data = .ok data' ∧
      (∀ s < batch, ∀ j < l2, ∀ k < 2 ^ e, data' (s * (2 ^ e * l2) + (k * l2 + j)) =
        dft ω (2 ^ e) (fun i => data (s * (2 ^ e * l2) + (i * l2 + j))) k) ∧
      ∀ j, batch * (2 ^ e * l2) ≤ j → data' j = data j := by
  have hlt : ∀ g < batch * l2, ∀ i < 2 ^ e,
      g / l2 * (2 ^ e * l2) + (i * l2 + g % l2) < batch * (2 ^ e * l2) := fun g hg i hi =>
    tile_lt (tile_lt (Nat.mod_lt g hl2) hi) ((Nat.div_lt_iff_lt_mul hl2).2 hg)
  have hlen : 2 ^ e * l2 < 2 ^ 32 := by
    have := Nat.le_mul_of_pos_left (2 ^ e * l2) hbatch
    omega
  have haddr : ∀ g < batch * l2, ∀ i < 2 ^ e,
      u32 (u32 (g / l2 * u32 (2 ^ e * l2) + g % l2) + i * l2) =
        g / l2 * (2 ^ e * l2) + (i * l2 + g % l2) := by
    intro g hg i hi
    have hbound := hlt g hg i hi
    rw [u32_of_lt hlen, u32_of_lt (x := g / l2 * (2 ^ e * l2) + g % l2) (by omega),
      u32_of_lt (by omega)]
    omega
  obtain ⟨data', hok, hin, hout⟩ := dispatch_inPlace depth .cols
    (fun g i => u32 (u32 (g / l2 * u32 (2 ^ e * l2) + g % l2) + i * l2))
    (Nat.two_pow_pos e) hmax (Nat.mul_pos hbatch hl2) hexact hroot
    (fun g hg i hi u hu j hj h => by
      rw [haddr g hg i hi, haddr u hu j hj] at h
      have hgi := tile_lt (Nat.mod_lt g hl2) hi
      have huj := tile_lt (Nat.mod_lt u hl2) hj
      have hdiv : g / l2 = u / l2 := by rw [← @tile_div _ (g / l2) _ hgi, h, tile_div huj]
      have hmod : i * l2 + g % l2 = j * l2 + u % l2 := by
        rw [← @tile_mod _ (g / l2) _ hgi, h, tile_mod huj]
      have hi' : i = j := by
        rw [← @tile_div _ i _ (Nat.mod_lt g hl2), hmod, tile_div (Nat.mod_lt u hl2)]
      have hcol : g % l2 = u % l2 := by
        rw [← @tile_mod _ i _ (Nat.mod_lt g hl2), hmod, tile_mod (Nat.mod_lt u hl2)]
      exact ⟨by rw [← Nat.div_add_mod g l2, ← Nat.div_add_mod u l2, hdiv, hcol], hi'⟩) data
  refine ⟨data', hok, fun s hs j hj k hk => ?_, fun j hj => hout j fun g hg i hi => ?_⟩
  · have hg : s * l2 + j < batch * l2 := tile_lt hj hs
    have hcell : ∀ i < 2 ^ e,
        u32 (u32 ((s * l2 + j) / l2 * u32 (2 ^ e * l2) + (s * l2 + j) % l2) + i * l2) =
          s * (2 ^ e * l2) + (i * l2 + j) := by
      intro i hi
      rw [haddr _ hg i hi, tile_div hj, tile_mod hj]
    rw [← hcell k hk, hin _ hg k hk]
    exact dft_congr (fun i hi => by rw [hcell i hi]) k
  · have := hlt g hg i hi
    rw [haddr g hg i hi]
    omega

end Dispatch

/-! Kernels over all points. -/

/-- Indices taken once each, at which the cell is changed as its own value says. -/
theorem foldl_update_each {idxs : List ℕ} (hnodup : idxs.Nodup) (f : ℕ → K → K) (d : ℕ → K)
    (j : ℕ) : (idxs.foldl (fun d idx => Function.update d idx (f idx (d idx))) d) j =
      if j ∈ idxs then f j (d j) else d j := by
  induction idxs generalizing d with
  | nil => simp
  | cons idx idxs ih =>
    obtain ⟨hnotin, hnodup⟩ := List.nodup_cons.1 hnodup
    rw [List.foldl_cons, ih hnodup]
    by_cases hj : j = idx
    · subst hj
      rw [if_neg hnotin, if_pos List.mem_cons_self, Function.update_self]
    · rw [Function.update_of_ne hj]
      refine if_congr ?_ rfl rfl
      rw [List.mem_cons, or_iff_right hj]

/-- A grid that changes every point as its own value says. -/
theorem runPhase_each {size stop : ℕ} (hsize : 0 < size) (f : ℕ → K → K) (d : ℕ → K)
    (turns : List ℕ) (j : ℕ) :
    runPhase size (fun gid => (strided gid size stop).map fun idx d =>
        Function.update d idx (f idx (d idx))) d (finish size (fun gid => (strided gid size
          stop).map fun idx d => Function.update d idx (f idx (d idx))) turns) j =
      if j < stop then f j (d j) else d j := by
  have htid := Nat.mod_lt j hsize
  have hview := runPhase_view (fun d : ℕ → K => d j) (m := d)
    (complete_finish size (fun gid => (strided gid size stop).map fun idx d =>
      Function.update d idx (f idx (d idx))) turns) htid (fun m m' hm op hop => ?_)
    fun u hu hne op hop m => ?_
  · refine hview.trans ?_
    rw [List.foldl_map, foldl_update_each (nodup_strided _ _ _ hsize)]
    refine if_congr ?_ rfl rfl
    rw [mem_strided htid, and_iff_left rfl]
  · obtain ⟨idx, -, rfl⟩ := List.mem_map.1 hop
    show Function.update m idx (f idx (m idx)) j = Function.update m' idx (f idx (m' idx)) j
    by_cases hj : j = idx
    · subst hj
      rw [Function.update_self, Function.update_self]
      exact congrArg (f j) hm
    · rw [Function.update_of_ne hj, Function.update_of_ne hj]
      exact hm
  · obtain ⟨idx, hidx, rfl⟩ := List.mem_map.1 hop
    refine Function.update_of_ne (fun hj => hne ?_) ..
    rw [hj]
    exact ((mem_strided hu).1 hidx).2.symm

theorem dispatch_twiddle [CommRing K] {A : Arith K} {M : Machine K} (depth l2 : ℕ) {len batch : ℕ}
    (hpos : 0 < batch * len) (hcap : batch * len < 2 ^ 32) (data : ℕ → K) :
    ∃ data', M.dispatch1d depth .twiddle (batch * len) (fftTwiddleMul A l2 len batch) data =
        .ok data' ∧
      ∀ j, data' j = if j < batch * len then
        data j * A.twiddle (u32 (j % len / l2 * (j % len % l2))) len false else data j := by
  unfold Machine.dispatch1d
  rw [if_neg hpos.ne']
  refine ⟨_, rfl, fun j => ?_⟩
  unfold fftTwiddleMul
  rw [u32_of_lt hcap]
  exact runPhase_each hpos (fun idx v => v * A.twiddle (u32 (idx % len / l2 * (idx % len % l2))) len
    false) data _ j

theorem dispatch_copy {M : Machine K} (depth : ℕ) {count : ℕ} (hpos : 0 < count) (input out : ℕ → K) :
    ∃ out', M.dispatch1d depth .copy count (fftCopy input count) out = .ok out' ∧
      ∀ j, out' j = if j < count then input j else out j := by
  unfold Machine.dispatch1d
  rw [if_neg hpos.ne']
  exact ⟨_, rfl, runPhase_each hpos (fun idx _ => input idx) out _⟩

/-- The transpose of each signal. -/
theorem dispatch_transpose {M : Machine K} (depth : ℕ) {batch l1 l2 : ℕ} (hpos : 0 < batch * (l1 * l2))
    (hcap : batch * (l1 * l2) < 2 ^ 32) (input out : ℕ → K) :
    ∃ out', M.dispatch1d depth .transpose (batch * (l1 * l2)) (fftTranspose input l1 l2 batch) out =
        .ok out' ∧
      ∀ s < batch, ∀ i < l1, ∀ j < l2, out' (s * (l1 * l2) + (j * l1 + i)) =
        input (s * (l1 * l2) + (i * l2 + j)) := by
  have hbatch : 0 < batch := Nat.pos_of_mul_pos_right hpos
  have hlen : l1 * l2 < 2 ^ 32 := by
    have := Nat.le_mul_of_pos_left (l1 * l2) hbatch
    omega
  have hloc : ∀ {i j : ℕ}, i < l1 → j < l2 → j * l1 + i < l1 * l2 := fun hi hj =>
    Nat.mul_comm l2 l1 ▸ tile_lt hi hj
  have haddr : ∀ s < batch, ∀ i < l1, ∀ j < l2,
      u32 (s * (l1 * l2) + j * l1 + i) = s * (l1 * l2) + (j * l1 + i) := by
    intro s hs i hi j hj
    have := tile_lt (hloc hi hj) hs
    rw [u32_of_lt (by omega), Nat.add_assoc]
  unfold Machine.dispatch1d
  rw [if_neg hpos.ne']
  refine ⟨_, rfl, fun s hs i hi j hj => ?_⟩
  have hidx : s * (l1 * l2) + (i * l2 + j) < batch * (l1 * l2) := tile_lt (tile_lt hj hi) hs
  have htid := Nat.mod_lt (s * (l1 * l2) + (i * l2 + j)) hpos
  unfold fftTranspose
  dsimp only
  rw [u32_of_lt hlen, u32_of_lt hcap]
  refine runPhase_written (fun _ => ()) (fun d : ℕ → K => d (s * (l1 * l2) + (j * l1 + i)))
    (fun _ => input (s * (l1 * l2) + (i * l2 + j))) (complete_finish _ _ _) (fun _ _ _ _ _ => rfl)
    (fun gid hgid op hop => ?_) htid
    (List.mem_map.2 ⟨_, (mem_strided htid).2 ⟨hidx, rfl⟩, rfl⟩) (fun m => ?_) out
  · obtain ⟨idx, hmem, rfl⟩ := List.mem_map.1 hop
    have hlt := ((mem_strided hgid).1 hmem).1
    have hl2 : 0 < l2 := by omega
    have hlen0 : 0 < l1 * l2 := Nat.mul_pos (by omega) hl2
    have hs' : idx / (l1 * l2) < batch := (Nat.div_lt_iff_lt_mul hlen0).2 hlt
    have hi' : idx % (l1 * l2) / l2 < l1 :=
      (Nat.div_lt_iff_lt_mul hl2).2 (Nat.mod_lt idx hlen0)
    have hj' : idx % (l1 * l2) % l2 < l2 := Nat.mod_lt _ hl2
    by_cases hsame : s * (l1 * l2) + (j * l1 + i) =
        u32 (idx / (l1 * l2) * (l1 * l2) + idx % (l1 * l2) % l2 * l1 + idx % (l1 * l2) / l2)
    · refine .inr fun m => ?_
      have h := hsame
      rw [haddr _ hs' _ hi' _ hj'] at h
      have hdiv : s = idx / (l1 * l2) := by
        rw [← @tile_div _ s _ (hloc hi hj), h, tile_div (hloc hi' hj')]
      have hmod : j * l1 + i = idx % (l1 * l2) % l2 * l1 + idx % (l1 * l2) / l2 := by
        rw [← @tile_mod _ s _ (hloc hi hj), h, tile_mod (hloc hi' hj')]
      have hrow : i = idx % (l1 * l2) / l2 := by
        rw [← @tile_mod _ j _ hi, hmod, tile_mod hi']
      have hcol : j = idx % (l1 * l2) % l2 := by
        rw [← @tile_div _ j _ hi, hmod, tile_div hi']
      show Function.update m (u32 _) (input idx) _ = _
      rw [hsame, Function.update_self]
      congr 1
      rw [hdiv, hrow, hcol, Nat.mul_comm (idx % (l1 * l2) / l2), Nat.div_add_mod, Nat.mul_comm,
        Nat.div_add_mod]
    · exact .inl fun m => Function.update_of_ne hsame ..
  · show Function.update m (u32 _) (input _) _ = _
    have hlt2 : i * l2 + j < l1 * l2 := tile_lt hj hi
    rw [tile_div hlt2, tile_mod hlt2, tile_div hj, tile_mod hj, haddr s hs i hi j hj,
      Function.update_self]

/-! The pass. -/

section Pass

variable [CommRing K] {A : Arith K} {ω : K} {M : Machine K}

/-- What a pass over `batch` signals of `2 ^ e` points leaves. -/
structure Transformed (ω : K) (e batch : ℕ) (data data' : ℕ → K) : Prop where
  signal : ∀ s < batch, ∀ k < 2 ^ e,
    data' (s * 2 ^ e + k) = dft ω (2 ^ e) (fun j => data (s * 2 ^ e + j)) k
  rest : ∀ j, batch * 2 ^ e ≤ j → data' j = data j

/-- Columns, twiddles, rows and transpose are the transform of each signal. -/
theorem fourStep_eq {l1 l2 batch : ℕ} {data₀ data₁ data₂ data₃ data₄ : ℕ → K}
    (hω : ω ^ (l2 * l1) = 1)
    (hcols : ∀ s < batch, ∀ j < l2, ∀ k < l1, data₁ (s * (l1 * l2) + (k * l2 + j)) =
      dft (ω ^ l2) l1 (fun i => data₀ (s * (l1 * l2) + (i * l2 + j))) k)
    (htwiddle : ∀ s < batch, ∀ i < l1, ∀ j < l2, data₂ (s * (l1 * l2) + (i * l2 + j)) =
      data₁ (s * (l1 * l2) + (i * l2 + j)) * ω ^ (i * j))
    (hrows : ∀ s < batch * l1, ∀ k < l2,
      data₃ (s * l2 + k) = dft (ω ^ l1) l2 (fun j => data₂ (s * l2 + j)) k)
    (htranspose : ∀ s < batch, ∀ i < l1, ∀ j < l2, data₄ (s * (l1 * l2) + (j * l1 + i)) =
      data₃ (s * (l1 * l2) + (i * l2 + j)))
    {s : ℕ} (hs : s < batch) {κ : ℕ} (hκ : κ < l1 * l2) :
    data₄ (s * (l1 * l2) + κ) = dft ω (l2 * l1) (fun v => data₀ (s * (l1 * l2) + v)) κ := by
  have hl1 : 0 < l1 := Nat.pos_of_mul_pos_right (by omega : 0 < l1 * l2)
  have hi : κ % l1 < l1 := Nat.mod_lt κ hl1
  have hj : κ / l1 < l2 := Nat.div_lt_of_lt_mul hκ
  have hκ' : κ % l1 + κ / l1 * l1 = κ := by
    rw [Nat.mul_comm]
    exact Nat.mod_add_div κ _
  have hrow : ∀ j, s * (l1 * l2) + (κ % l1 * l2 + j) = (s * l1 + κ % l1) * l2 + j := by
    intro j
    ring
  have hgrid := dft_grid hω (fun v => data₀ (s * (l1 * l2) + v)) (κ % l1) (κ / l1)
  rw [hκ'] at hgrid
  have hout := htranspose s hs _ hi _ hj
  rw [Nat.add_comm (κ / l1 * l1), hκ'] at hout
  rw [hout, hgrid, hrow, hrows _ (tile_lt hi hs) _ hj]
  refine dft_congr (fun j hj => ?_) _
  rw [← hrow, htwiddle s hs _ hi j hj, hcols s hs j hj _ hi, mul_comm, Nat.mul_comm (κ % l1) j]
  congr 1
  refine dft_congr (fun u _ => ?_) _
  rw [Nat.add_comm j]

/-- The pass, on a machine whose threadgroups may be as wide as the base case. -/
theorem fftPass_transforms (hmax : fftBaseMax ≤ M.maxThreads) {e batch depth : ℕ}
    (hexact : A.Exact false ω (2 ^ e)) (hroot : IsPow2Root ω e) (hbatch : 0 < batch)
    (hcap : batch * 2 ^ e ≤ 2 ^ 30) (hdepth : depth ≤ fftMaxRecursionDepth)
    (hlevels : e ≤ 10 * (7 - depth)) (bufs : Bufs K) :
    ∃ bufs', fftPass M A (2 ^ e) batch depth bufs = .ok bufs' ∧
      Transformed ω e batch bufs.data bufs'.data := by
  have hnotDeep : ¬ depth > fftMaxRecursionDepth := Nat.not_lt.2 hdepth
  induction e using Nat.strong_induction_on generalizing ω batch depth bufs with
  | _ e ih =>
    have hlen : 2 ^ e < 2 ^ 32 := by
      have := Nat.le_mul_of_pos_left (2 ^ e) hbatch
      omega
    have hb32 : batch < 2 ^ 32 := by
      have := Nat.le_mul_of_pos_right batch (Nat.two_pow_pos e)
      omega
    by_cases hsmall : e ≤ 10
    · have hle : 2 ^ e ≤ fftBaseMax := Nat.pow_le_pow_right (by omega) hsmall
      obtain ⟨data', hok, hin, hout⟩ := dispatch_base (M := M) depth (hle.trans hmax)
        hbatch (by omega) hexact hroot bufs.data
      refine ⟨{ bufs with data := data' }, ?_, hin, hout⟩
      rw [fftPass, if_neg hnotDeep, if_pos hle, u32_of_lt hlen, hok]
      rfl
    · obtain ⟨d, rfl⟩ : ∃ d, e = 10 + d := ⟨e - 10, by omega⟩
      have hsplit : 2 ^ (10 + d) = fftBaseMax * 2 ^ d := pow_add 2 10 d
      have hbig : ¬ 2 ^ (10 + d) ≤ fftBaseMax := by
        have := Nat.pow_lt_pow_right (a := 2) (by omega) (show 10 < 10 + d by omega)
        exact Nat.not_le.2 this
      have hl2 : 2 ^ (10 + d) / fftBaseMax = 2 ^ d := by
        rw [hsplit, Nat.mul_div_cancel_left _ (by decide)]
      have hrows : batch * fftBaseMax * 2 ^ d = batch * 2 ^ (10 + d) := by rw [hsplit, Nat.mul_assoc]
      have hl2lt : 2 ^ d < 2 ^ 32 := by
        have := Nat.pow_le_pow_right (n := 2) (by omega) (show d ≤ 10 + d by omega)
        omega
      have hpos : 0 < batch * 2 ^ (10 + d) := Nat.mul_pos hbatch (Nat.two_pow_pos _)
      have hcolsExact : A.Exact false (ω ^ 2 ^ d) (2 ^ 10) := by
        have h := hexact.sub ⟨2 ^ d, pow_add 2 10 d⟩
        rwa [show 2 ^ (10 + d) / 2 ^ 10 = 2 ^ d from hl2] at h
      have hrowsExact : A.Exact false (ω ^ 2 ^ 10) (2 ^ d) := by
        have h := hexact.sub ⟨2 ^ 10, by rw [pow_add, Nat.mul_comm]⟩
        rwa [pow_add, Nat.mul_div_cancel _ (Nat.two_pow_pos d)] at h
      obtain ⟨data₁, hok₁, hcols, hrest₁⟩ := @dispatch_cols K _ A _ M depth batch 10 (2 ^ d) hmax
        hbatch (Nat.two_pow_pos d) (by rw [← pow_add]; omega) hcolsExact
        (IsPow2Root.pow (by rwa [Nat.add_comm])) bufs.data
      obtain ⟨data₂, hok₂, htwiddle⟩ := dispatch_twiddle (M := M) (A := A) depth (2 ^ d)
        hpos (by omega) data₁
      obtain ⟨bufs₃, hok₃, hrows₃⟩ := @ih d (by omega) _ (batch * fftBaseMax) (depth + 1) hrowsExact
        hroot.pow (Nat.mul_pos hbatch (by decide))
        (by rw [hrows]; exact hcap) (by unfold fftMaxRecursionDepth at hdepth ⊢; omega) (by omega)
        { bufs with data := data₂ } (by unfold fftMaxRecursionDepth at hdepth ⊢; omega)
      obtain ⟨scratch, hok₄, htranspose⟩ := @dispatch_transpose K M depth batch
        fftBaseMax (2 ^ d) (by rwa [← hsplit]) (by rw [← hsplit]; omega) bufs₃.data
        bufs₃.scratch
      obtain ⟨data₅, hok₅, hcopy⟩ := dispatch_copy (M := M) depth hpos scratch bufs₃.data
      refine ⟨⟨data₅, scratch⟩, ?_, fun s hs k hk => ?_, fun j hj => ?_⟩
      · rw [fftPass, if_neg hnotDeep, if_neg hbig]
        dsimp only
        rw [hl2, u32_of_lt hl2lt, u32_of_lt hlen, u32_of_lt hb32, u32_of_lt (x := batch * _) (by omega),
          show u32 fftBaseMax = 2 ^ 10 from rfl, show batch * 2 ^ d * fftBaseMax = batch * 2 ^ d * 2 ^ 10
            from rfl]
        rw [← hsplit] at hok₄
        exact bind_eq_ok.2 ⟨data₁, hok₁, bind_eq_ok.2 ⟨data₂, hok₂, bind_eq_ok.2 ⟨bufs₃, hok₃,
          bind_eq_ok.2 ⟨scratch, hok₄, bind_eq_ok.2 ⟨data₅, hok₅, rfl⟩⟩⟩⟩⟩
      · have hturn : ω ^ (2 ^ d * fftBaseMax) = 1 := by
          rw [Nat.mul_comm, ← hsplit]
          exact hroot.pow_eq_one
        have hlt : s * 2 ^ (10 + d) + k < batch * 2 ^ (10 + d) := tile_lt hk hs
        have htw : ∀ s < batch, ∀ i < fftBaseMax, ∀ j < 2 ^ d,
            data₂ (s * (fftBaseMax * 2 ^ d) + (i * 2 ^ d + j)) =
              data₁ (s * (fftBaseMax * 2 ^ d) + (i * 2 ^ d + j)) * ω ^ (i * j) := by
          intro s hs i hi j hj
          have hloc : i * 2 ^ d + j < fftBaseMax * 2 ^ d := tile_lt hj hi
          have hij : i * j < 2 ^ 32 := by
            have := Nat.mul_le_mul hi.le hj.le
            omega
          rw [htwiddle, hsplit, if_pos (tile_lt hloc hs), tile_mod hloc, tile_div hj, tile_mod hj,
            u32_of_lt hij, ← hsplit, hexact _ _ dvd_rfl, Nat.div_self (Nat.two_pow_pos _),
            Nat.mul_one]
        have h := fourStep_eq hturn hcols htw hrows₃.signal htranspose hs (hsplit ▸ hk)
        rw [Nat.mul_comm (2 ^ d), ← hsplit] at h
        exact ((hcopy _).trans (if_pos hlt)).trans h
      · have hnot : ¬ j < batch * 2 ^ (10 + d) := Nat.not_lt.2 hj
        refine ((hcopy _).trans (if_neg hnot)).trans ?_
        rw [hrows₃.rest j (by rwa [hrows])]
        refine ((htwiddle j).trans (if_neg hnot)).trans ?_
        exact hrest₁ j (by rwa [← pow_add])

omit [CommRing K] in
theorem levels_of_cap {batch e : ℕ} (hbatch : 0 < batch) (hcap : batch * 2 ^ e ≤ 2 ^ 30) :
    e ≤ 10 * (7 - 0) := by
  have hle : 2 ^ e ≤ 2 ^ 30 := (Nat.le_mul_of_pos_left _ hbatch).trans hcap
  have := (Nat.pow_le_pow_iff_right (a := 2) (by omega)).1 hle
  omega

/-- One signal, in either direction. -/
theorem fftRecursiveFourstepBuf_dft [StarRing K] {root : Bool → K} {e : ℕ}
    (hmax : fftBaseMax ≤ M.maxThreads) (hexact : A.Exact false (root false) (2 ^ e))
    (hroot : IsPow2Root (root false) e) (hcap : 2 ^ e ≤ 2 ^ 30)
    (hconj : star (root false) = root true) (input : ℕ → K) (inverse : Bool) :
    ∃ out, fftRecursiveFourstepBuf M A input (2 ^ e) inverse = .ok out ∧
      ∀ k < 2 ^ e, out k = dftReference root A.recip input (2 ^ e) inverse k := by
  have hone : 1 * 2 ^ e ≤ 2 ^ 30 := by rwa [Nat.one_mul]
  obtain ⟨bufs', hok, hsignal, -⟩ := fftPass_transforms hmax hexact hroot Nat.one_pos hone
    (Nat.zero_le _) (levels_of_cap Nat.one_pos hone)
    ⟨if inverse then fun i => star (input i) else input, fun _ => 0⟩
  refine ⟨_, bind_eq_ok.2 ⟨bufs', hok, rfl⟩, fun k hk => ?_⟩
  have h := hsignal 0 Nat.one_pos k hk
  simp only [Nat.zero_mul, Nat.zero_add] at h
  rw [dftReference_eq]
  cases inverse with
  | false =>
    rw [if_neg Bool.false_ne_true, if_neg Bool.false_ne_true, mul_one]
    exact h
  | true =>
    have hmap := map_dft (starRingEnd K) (root false) (2 ^ e) (fun i => star (input i)) k
    simp only [starRingEnd_apply, star_star, hconj] at hmap
    rw [if_pos rfl, if_pos rfl, ← hmap]
    exact congrArg (fun z => star z * A.recip (2 ^ e)) h

end Pass

/-- Each signal of the batch becomes its transform and nothing else of the buffer changes, whatever
`scratch` and the groups' memories held and in whatever order groups and threads take their turns;
one signal with the inverse, conjugated at both ends, likewise. The driver is called for at most
`2 ^ 30` points, which the 32-bit indices need. -/
theorem fftPass_dft [CommRing K] {A : Arith K} {M : Machine K} {root : Bool → K} {e : ℕ}
    (hmax : fftBaseMax ≤ M.maxThreads) (hexact : A.Exact false (root false) (2 ^ e))
    (hroot : IsPow2Root (root false) e) :
    (∀ (batch : ℕ) (bufs : Bufs K), 0 < batch → batch * 2 ^ e ≤ 2 ^ 30 →
      ∃ bufs', fftPass M A (2 ^ e) batch 0 bufs = .ok bufs' ∧
        (∀ s < batch, ∀ k < 2 ^ e, bufs'.data (s * 2 ^ e + k) =
          dftReference root A.recip (fun j => bufs.data (s * 2 ^ e + j)) (2 ^ e) false k) ∧
        ∀ j, batch * 2 ^ e ≤ j → bufs'.data j = bufs.data j) ∧
    ∀ [StarRing K] (input : ℕ → K) (inverse : Bool), star (root false) = root true →
      2 ^ e ≤ 2 ^ 30 → ∃ out, fftRecursiveFourstepBuf M A input (2 ^ e) inverse = .ok out ∧
        ∀ k < 2 ^ e, out k = dftReference root A.recip input (2 ^ e) inverse k := by
  refine ⟨fun batch bufs hbatch hcap => ?_, fun [StarRing K] input inverse hconj hcap =>
    fftRecursiveFourstepBuf_dft hmax hexact hroot hcap hconj input inverse⟩
  obtain ⟨bufs', hok, hsignal, hrest⟩ := fftPass_transforms hmax hexact hroot hbatch hcap
    (Nat.zero_le _) (levels_of_cap hbatch hcap) bufs
  refine ⟨bufs', hok, fun s hs k hk => ?_, hrest⟩
  rw [hsignal s hs k hk, dftReference_eq, if_neg Bool.false_ne_true, mul_one]

/-- Threads and groups that run one after the other. -/
def oneByOne (maxThreads : ℕ) [CommRing K] : Machine K where
  maxThreads := maxThreads
  tg _ _ _ := ⟨fun _ => 0, fun _ => 0⟩
  groups _ _ := ⟨fun _ _ => [], []⟩
  threads _ _ := []

/-- A 2048th root of unity modulo 12289. -/
def sampleRoot : ZMod 12289 := ((1945 : ℕ) : ZMod 12289)

theorem isPow2Root_sample : IsPow2Root sampleRoot 11 := by
  have h₁ : sampleRoot ^ 32 = ((7311 : ℕ) : ZMod 12289) := by decide +kernel
  have h₂ : ((7311 : ℕ) : ZMod 12289) ^ 32 = -1 := by decide +kernel
  have h : 2 ^ 10 = 32 * 32 := by norm_num
  show sampleRoot ^ 2 ^ 10 = -1
  rw [h, pow_mul, h₁, h₂]

/-- Three signals of 2048 residues: one level of the recursion above the base case. -/
theorem fftPass_dft_2048 :
    ∃ bufs', fftPass (oneByOne 1024) (powersOf sampleRoot 2048) 2048 3 0
        ⟨fun i => i, fun _ => 0⟩ = .ok bufs' ∧
      (∀ s < 3, ∀ k < 2048, bufs'.data (s * 2048 + k) =
        dftReference (fun _ => sampleRoot) (fun _ => 0) (fun j => (s * 2048 + j : ℕ)) 2048 false k) ∧
      ∀ j, 6144 ≤ j → bufs'.data j = j :=
  (@fftPass_dft (ZMod 12289) _ (powersOf sampleRoot 2048) (oneByOne 1024) (fun _ => sampleRoot) 11
    (by decide) (fun _ _ _ => rfl) isPow2Root_sample).1 3 ⟨fun i => i, fun _ => 0⟩ (by decide)
    (by decide)

end PolarsMetal.Fft
