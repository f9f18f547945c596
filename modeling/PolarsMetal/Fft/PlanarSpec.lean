import PolarsMetal.Fft.Planar

/-! What the planar kernels leave in the planes, and by recursion what the pass leaves. -/

namespace PolarsMetal.Fft
open Interleave Barriers Dft Fallible

variable {R : Type*}

/-! A whole group: load, stages, store. -/

theorem loadPlanar_spec {g size n : ℕ} (hsize : 0 < size) (value : ℕ → Planes R → Float2 R)
    (d : Planes R) :
    Triple size (fun s => s.planes = d) [loadPlanar g size n value]
      (fun s => (∀ i < n, (s.tg g).a i = value i d) ∧ s.planes = d) := by
  refine Triple.single fun s turns hcomplete hs => ⟨fun i hi => ?_, ?_⟩
  · have hview := runPhase_loop hsize hcomplete
      (fun s : PlanarMem R => (s.planes, (s.tg g).a i)) hi
      (fun op hop s s' hss => ?_) (fun j _ hji op hop s => ?_) s
    · have hcell := congrArg Prod.snd hview
      refine hcell.trans ?_
      show ((PlanarMem.onTg g _ s).tg g).a i = _
      rw [PlanarMem.onTg_tg, ← hs]
      exact Function.update_self ..
    · obtain rfl := List.mem_singleton.1 hop
      have hplanes : s.planes = s'.planes := congrArg Prod.fst hss
      refine Prod.ext hplanes ?_
      show ((PlanarMem.onTg g _ s).tg g).a i = ((PlanarMem.onTg g _ s').tg g).a i
      rw [PlanarMem.onTg_tg, PlanarMem.onTg_tg, hplanes]
      show Function.update _ i _ i = Function.update _ i _ i
      rw [Function.update_self, Function.update_self]
    · obtain rfl := List.mem_singleton.1 hop
      refine Prod.ext rfl ?_
      show ((PlanarMem.onTg g _ s).tg g).a i = _
      rw [PlanarMem.onTg_tg]
      exact Function.update_of_ne hji.symm ..
  · refine (runPhase_loop_frame PlanarMem.planes (fun i _ op hop s => ?_) s turns).trans hs
    obtain rfl := List.mem_singleton.1 hop
    rfl

theorem storePlanar_spec {g size n : ℕ} (hsize : 0 < size) {addr : ℕ → ℕ}
    (haddr : ∀ i < n, ∀ j < n, addr i = addr j → i = j)
    (value : ℕ → TgMem (Float2 R) → Float2 R) (m₀ : TgMem (Float2 R)) (d : Planes R) :
    Triple size (fun s => s.tg g = m₀ ∧ s.planes = d) [storePlanar g size n addr value]
      (fun s => (∀ i < n, s.planes.point (addr i) = value i m₀) ∧
        ∀ j, (∀ i < n, addr i ≠ j) → s.planes.point j = d.point j) := by
  refine Triple.single fun s turns hcomplete hs => ?_
  obtain ⟨htg, hplanes⟩ := hs
  refine ⟨fun i hi => ?_, fun j hj => ?_⟩
  · have hview := runPhase_loop hsize hcomplete
      (fun s : PlanarMem R => (s.tg g, s.planes.point (addr i))) hi
      (fun op hop s s' hss => ?_) (fun j hj hji op hop s => ?_) s
    · refine (congrArg Prod.snd hview).trans ?_
      rw [← htg]
      refine Float2.ext ?_ ?_
      · exact Function.update_self ..
      · exact Function.update_self ..
    · have htg : s.tg g = s'.tg g := congrArg Prod.fst hss
      have hx : s.planes.re (addr i) = s'.planes.re (addr i) :=
        congrArg (fun v => v.2.x) hss
      have hy : s.planes.im (addr i) = s'.planes.im (addr i) :=
        congrArg (fun v => v.2.y) hss
      rcases List.mem_pair.1 hop with rfl | rfl
      · refine Prod.ext htg (Float2.ext ?_ hy)
        show Function.update _ (addr i) _ (addr i) = Function.update _ (addr i) _ (addr i)
        rw [Function.update_self, Function.update_self, htg]
      · refine Prod.ext htg (Float2.ext hx ?_)
        show Function.update _ (addr i) _ (addr i) = Function.update _ (addr i) _ (addr i)
        rw [Function.update_self, Function.update_self, htg]
    · have hne : addr i ≠ addr j := fun h => hji (haddr i hi j hj h).symm
      rcases List.mem_pair.1 hop with rfl | rfl
      · exact Prod.ext rfl (Float2.ext (Function.update_of_ne hne ..) rfl)
      · exact Prod.ext rfl (Float2.ext rfl (Function.update_of_ne hne ..))
  · rw [← hplanes]
    refine runPhase_loop_frame (fun s : PlanarMem R => s.planes.point j)
      (fun i hi op hop s => ?_) s turns
    rcases List.mem_pair.1 hop with rfl | rfl
    · exact Float2.ext (Function.update_of_ne (hj i hi).symm ..) rfl
    · exact Float2.ext rfl (Function.update_of_ne (hj i hi).symm ..)

/-- What the stages make of the loaded values is what the group stores, and it stores nothing
else. -/
theorem planarGroup_spec (g : ℕ) {size n : ℕ} (hsize : 0 < size) {addr : ℕ → ℕ}
    (haddr : ∀ i < n, ∀ j < n, addr i = addr j → i = j) (value : ℕ → Planes R → Float2 R)
    {stages : List (Phase (TgMem (Float2 R)))} (out : ℕ → TgMem (Float2 R) → Float2 R)
    (d : Planes R) (res : ℕ → Float2 R)
    (hstages : Triple size (fun m => ∀ i < n, m.a i = value i d) stages
      (fun m => ∀ k < n, out k m = res k)) :
    Triple size (fun s => s.planes = d)
      (loadPlanar g size n value :: stages.map (liftPhase (PlanarMem.onTg g)) ++
        [storePlanar g size n addr out])
      (fun s => (∀ k < n, s.planes.point (addr k) = res k) ∧
        ∀ j, (∀ i < n, addr i ≠ j) → s.planes.point j = d.point j) := by
  have hlift := hstages.lift (fun s : PlanarMem R => s.tg g) PlanarMem.planes
    (fun op m => PlanarMem.onTg_tg g op m) (fun op m => PlanarMem.onTg_planes g op m) d
  refine Triple.append (Triple.append (loadPlanar_spec hsize value d) hlift)
    fun turns s hcomplete hs => ?_
  obtain ⟨hres, hplanes⟩ := hs
  obtain ⟨hin, hout⟩ :=
    storePlanar_spec hsize haddr out (s.tg g) d turns s hcomplete ⟨rfl, hplanes⟩
  exact ⟨fun k hk => (hin k hk).trans (hres k hk), hout⟩

section Kernels

variable [CommRing R] {A : Arith (Float2 R)} {ω : Float2 R}

theorem fftStockhamPow2PlanarF32_dft {x : Planes R} {inverse : Bool} {e g size : ℕ}
    (hsize : 0 < size) (hexact : A.Exact inverse ω (2 ^ e)) (hroot : IsPow2Root ω e) (d : Planes R) :
    Triple size (fun s => s.planes = d) (fftStockhamPow2PlanarF32 A x (2 ^ e) inverse g size)
      (fun s => ∀ k < 2 ^ e, s.planes.point k =
        (dft ω (2 ^ e) x.point k).scale (scaleOf A (2 ^ e) inverse)) := by
  have hstages := pow2Stages_dft (x := x.point) hsize hexact hroot
  have hgroup := @planarGroup_spec R g size (2 ^ e) hsize id (fun i _ j _ hij => hij)
    (fun i _ => x.point i) (pow2Stages A inverse (2 ^ e) size 1 false)
    (fun i m => (m.src (swaps false e) i).scale (scaleOf A (2 ^ e) inverse)) d
    (fun k => (dft ω (2 ^ e) x.point k).scale (scaleOf A (2 ^ e) inverse))
    (fun turns m hcomplete hm k hk => by rw [hstages turns m hcomplete hm k hk])
  unfold fftStockhamPow2PlanarF32
  simp only [length_pow2Stages_one]
  exact fun turns s hcomplete hs => (hgroup turns s hcomplete hs).1

theorem fftMixedRadixPlanarF32_dft {c : Literals R} {y₀ : ℕ → Float2 R} {x : Planes R}
    {inverse : Bool} {n g size : ℕ} {radices : List ℕ} (hsize : 0 < size) (hn : radices.prod = n)
    (hpos : 0 < n) (hω : ω ^ n = 1) (hunit : star ω * ω = 1) (hexact : A.Exact false ω n)
    (hlit : ∀ r ∈ radices, c.Exact (ω ^ (n / r)) r) (d : Planes R) :
    Triple size (fun s => s.planes = d) (fftMixedRadixPlanarF32 A c y₀ x n inverse radices g size)
      (fun s => ∀ k < n, s.planes.point k =
        (dft (if inverse then star ω else ω) n x.point k).scale (scaleOf A n inverse)) := by
  have hstages := @mixedStages_done R _ c A y₀ ω
    (fun i => if inverse then star (x.point i) else x.point i) n size 1 radices false hsize
    (by rw [Nat.one_mul, hn]) hω hunit hexact hpos hlit
  rw [hn] at hstages
  have hgroup := @planarGroup_spec R g size n hsize id (fun i _ j _ hij => hij)
    (fun i _ => if inverse then star (x.point i) else x.point i)
    (mixedStages c A y₀ n size radices false 1)
    (fun i m =>
      if inverse then (star (m.src (swaps false radices.length) i)).scale (scaleOf A n inverse)
      else (m.src (swaps false radices.length) i).scale (scaleOf A n inverse)) d
    (fun k => (dft (if inverse then star ω else ω) n x.point k).scale (scaleOf A n inverse))
    (fun turns m hcomplete hm k hk => by
      rw [(hstages turns m hcomplete (Partial.start hm)).done hk]
      cases inverse with
      | false => rfl
      | true =>
        have hmap := map_dft (starRingEnd (Float2 R)) ω n (fun i => star (x.point i)) k
        simp only [starRingEnd_apply, star_star] at hmap
        simp only [if_true, hmap])
  unfold fftMixedRadixPlanarF32
  simp only [length_mixedStages]
  exact fun turns s hcomplete hs => (hgroup turns s hcomplete hs).1

omit [CommRing R] in
theorem update_congr {f f' : ℕ → R} {i j : ℕ} {v v' : R} (hv : v = v') (hj : f j = f' j) :
    Function.update f i v j = Function.update f' i v' j := by
  subst hv
  by_cases hij : j = i
  · rw [hij, Function.update_self, Function.update_self]
  · rw [Function.update_of_ne hij, Function.update_of_ne hij]
    exact hj

/-- What an operation of a group that transforms in place does. -/
theorem mem_inPlacePlanar {addr : ℕ → ℕ} {n g size tid : ℕ} (htid : tid < size)
    {phase : Phase (PlanarMem R)} (hphase : phase ∈ inPlacePlanar A addr n g size)
    {op : PlanarMem R → PlanarMem R} (hop : op ∈ phase tid) :
    (∃ i < n, op = fun s => s.onTg g (TgMem.setA i fun _ => s.planes.point (addr i))) ∨
      (∃ f, op = PlanarMem.onTg g f) ∨
      (∃ i < n, op = PlanarMem.setRe (addr i) fun s => ((s.tg g).a i).x) ∨
      ∃ i < n, op = PlanarMem.setIm (addr i) fun s => ((s.tg g).a i).y := by
  rcases List.mem_append.1 hphase with hphase | hphase
  · rcases List.mem_cons.1 hphase with rfl | hphase
    · obtain ⟨i, hi, hop⟩ := List.mem_flatMap.1 hop
      obtain rfl := List.mem_singleton.1 hop
      exact .inl ⟨i, ((mem_strided htid).1 hi).1, rfl⟩
    · obtain ⟨stage, -, rfl⟩ := List.mem_map.1 hphase
      obtain ⟨f, -, rfl⟩ := List.mem_map.1 hop
      exact .inr (.inl ⟨f, rfl⟩)
  · obtain rfl := List.mem_singleton.1 hphase
    obtain ⟨i, hi, hop⟩ := List.mem_flatMap.1 hop
    rcases List.mem_pair.1 hop with rfl | rfl
    · exact .inr (.inr (.inl ⟨i, ((mem_strided htid).1 hi).1, rfl⟩))
    · exact .inr (.inr (.inr ⟨i, ((mem_strided htid).1 hi).1, rfl⟩))

/-- Groups that own different points transform them in place, whatever the order of their
operations. -/
theorem runGrid_inPlacePlanar {groups e : ℕ} {size : ℕ → ℕ} {addr : ℕ → ℕ → ℕ}
    (hsize : ∀ g < groups, 0 < size g) (hexact : A.Exact false ω (2 ^ e)) (hroot : IsPow2Root ω e)
    (haddr : ∀ g < groups, ∀ i < 2 ^ e, ∀ u < groups, ∀ j < 2 ^ e,
      addr g i = addr u j → g = u ∧ i = j) (s : Schedule) (m : PlanarMem R) :
    (∀ g < groups, ∀ k < 2 ^ e,
      (runGrid groups size (fun g => inPlacePlanar A (addr g) (2 ^ e) g (size g)) s m).planes.point
        (addr g k) = dft ω (2 ^ e) (fun i => m.planes.point (addr g i)) k) ∧
    ∀ j, (∀ g < groups, ∀ i < 2 ^ e, addr g i ≠ j) →
      (runGrid groups size (fun g => inPlacePlanar A (addr g) (2 ^ e) g (size g)) s m).planes.point
        j = m.planes.point j := by
  refine ⟨fun g hg k hk => ?_, fun j hj => ?_⟩
  · -- a group sees its own memory and its own points of both planes
    let view : PlanarMem R → TgMem (Float2 R) × (Fin (2 ^ e) → Float2 R) :=
      fun s => (s.tg g, fun i => s.planes.point (addr g i))
    have hview := @runGrid_view _ groups size
      (fun g => inPlacePlanar A (addr g) (2 ^ e) g (size g)) _ view s m g hg
      (fun phase hphase t ht op hop s s' hs => ?_)
      (fun u hu hne phase hphase t ht op hop s => ?_)
    · refine (congrFun (congrArg Prod.snd hview) ⟨k, hk⟩).trans ?_
      have hspec := planarGroup_spec g (hsize g hg)
        (fun i hi j hj hij => (haddr g hg i hi g hg j hj hij).2)
        (fun i planes => planes.point (addr g i)) (fun i m => m.a i) m.planes _
        (stockhamPow2Tg_dft (x := fun i => m.planes.point (addr g i)) (hsize g hg) hexact hroot)
      exact (hspec.runGroup (s.turns g) (m := m) rfl).1 k hk
    · have htg : s.tg g = s'.tg g := congrArg Prod.fst hs
      have hpoint : ∀ i < 2 ^ e, s.planes.point (addr g i) = s'.planes.point (addr g i) :=
        fun i hi => congrFun (congrArg Prod.snd hs) ⟨i, hi⟩
      rcases mem_inPlacePlanar ht hphase hop with ⟨i, hi, rfl⟩ | ⟨f, rfl⟩ | ⟨i, hi, rfl⟩ | ⟨i, hi, rfl⟩
      · refine Prod.ext ?_ (funext fun j => hpoint j j.2)
        show (PlanarMem.onTg g _ s).tg g = (PlanarMem.onTg g _ s').tg g
        rw [PlanarMem.onTg_tg, PlanarMem.onTg_tg, htg, hpoint i hi]
      · refine Prod.ext ?_ (funext fun j => hpoint j j.2)
        show (PlanarMem.onTg g f s).tg g = (PlanarMem.onTg g f s').tg g
        rw [PlanarMem.onTg_tg, PlanarMem.onTg_tg, htg]
      · refine Prod.ext htg (funext fun j => ?_)
        have hx := congrArg Float2.x (hpoint j j.2)
        have hy := congrArg Float2.y (hpoint j j.2)
        refine Float2.ext (update_congr (congrArg (fun m => (m.a i).x) htg) hx) hy
      · refine Prod.ext htg (funext fun j => ?_)
        have hx := congrArg Float2.x (hpoint j j.2)
        have hy := congrArg Float2.y (hpoint j j.2)
        refine Float2.ext hx (update_congr (congrArg (fun m => (m.a i).y) htg) hy)
    · have hother : ∀ i < 2 ^ e, ∀ j : Fin (2 ^ e), addr g j ≠ addr u i := fun i hi j hij =>
        hne (haddr g hg j j.2 u hu i hi hij).1.symm
      rcases mem_inPlacePlanar ht hphase hop with ⟨i, hi, rfl⟩ | ⟨f, rfl⟩ | ⟨i, hi, rfl⟩ | ⟨i, hi, rfl⟩
      · exact Prod.ext (PlanarMem.onTg_tg_of_ne (Ne.symm hne) _ s) rfl
      · exact Prod.ext (PlanarMem.onTg_tg_of_ne (Ne.symm hne) _ s) rfl
      · exact Prod.ext rfl (funext fun j =>
          Float2.ext (Function.update_of_ne (hother i hi j) ..) rfl)
      · exact Prod.ext rfl (funext fun j =>
          Float2.ext rfl (Function.update_of_ne (hother i hi j) ..))
  · refine runGrid_frame (fun s : PlanarMem R => s.planes.point j) s m
      fun g hg phase hphase t ht op hop m => ?_
    rcases mem_inPlacePlanar ht hphase hop with ⟨i, hi, rfl⟩ | ⟨f, rfl⟩ | ⟨i, hi, rfl⟩ | ⟨i, hi, rfl⟩
    · rfl
    · rfl
    · exact Float2.ext (Function.update_of_ne (hj g hg i hi).symm ..) rfl
    · exact Float2.ext rfl (Function.update_of_ne (hj g hg i hi).symm ..)

end Kernels

/-! The dispatches. -/

theorem tile_inj {d s u i j : ℕ} (hi : i < d) (hj : j < d) (h : s * d + i = u * d + j) :
    s = u ∧ i = j :=
  ⟨by rw [← @tile_div _ s _ hi, h, tile_div hj], by rw [← @tile_mod _ s _ hi, h, tile_mod hj]⟩

/-- Where group `g` of the column pass finds point `i` of its column. -/
theorem colsAddr_eq {l1 l2 batch g i : ℕ} (hl2 : 0 < l2) (hcap : batch * (l1 * l2) < 2 ^ 32)
    (hg : g < batch * l2) (hi : i < l1) :
    u32 (u32 (g / l2 * u32 (l1 * l2) + g % l2) + i * l2) =
        g / l2 * (l1 * l2) + (i * l2 + g % l2) ∧
      g / l2 * (l1 * l2) + (i * l2 + g % l2) < batch * (l1 * l2) := by
  have hs : g / l2 < batch := (Nat.div_lt_iff_lt_mul hl2).2 hg
  have hlt : g / l2 * (l1 * l2) + (i * l2 + g % l2) < batch * (l1 * l2) :=
    tile_lt (tile_lt (Nat.mod_lt g hl2) hi) hs
  have hlen : l1 * l2 < 2 ^ 32 := by
    have := Nat.le_mul_of_pos_left (l1 * l2) (Nat.zero_lt_of_lt hs)
    omega
  refine ⟨?_, hlt⟩
  rw [u32_of_lt hlen, u32_of_lt (x := g / l2 * (l1 * l2) + g % l2) (by omega), u32_of_lt (by omega)]
  omega

section Dispatch

variable [CommRing R] {A : Arith (Float2 R)} {ω : Float2 R} {M : Machine (Float2 R)}

/-- A dispatch of `groups` full groups that transform in place. -/
theorem dispatch_inPlacePlanar (depth : ℕ) (pass : Pass) (addr : ℕ → ℕ → ℕ) {groups width e : ℕ}
    (hwidth : 0 < width) (hmax : width ≤ M.maxThreads) (hgroups : 0 < groups)
    (hexact : A.Exact false ω (2 ^ e)) (hroot : IsPow2Root ω e)
    (haddr : ∀ g < groups, ∀ i < 2 ^ e, ∀ u < groups, ∀ j < 2 ^ e,
      addr g i = addr u j → g = u ∧ i = j) (data : Planes R) :
    ∃ data', M.dispatch1dWithTgPlanar depth pass (groups * width) width
        (fun g size => inPlacePlanar A (addr g) (2 ^ e) g size) data = .ok data' ∧
      (∀ g < groups, ∀ k < 2 ^ e, data'.point (addr g k) =
        dft ω (2 ^ e) (fun i => data.point (addr g i)) k) ∧
      ∀ j, (∀ g < groups, ∀ i < 2 ^ e, addr g i ≠ j) → data'.point j = data.point j := by
  have htg : max (min width M.maxThreads) 1 = width := by omega
  have hcount : (groups * width + width - 1) / width = groups := by
    rw [Nat.add_sub_assoc hwidth]
    exact tile_div (by omega)
  have hsize : ∀ g < groups, 0 < min width (groups * width - g * width) := by
    intro g hg
    have hlt : g * width < groups * width := Nat.mul_lt_mul_of_pos_right hg hwidth
    omega
  unfold Machine.dispatch1dWithTgPlanar
  rw [if_neg (Nat.mul_pos hgroups hwidth).ne', htg]
  dsimp only
  rw [hcount]
  exact ⟨_, rfl, runGrid_inPlacePlanar hsize hexact hroot haddr (M.groups depth pass)
    ⟨data, M.tg depth pass⟩⟩

/-- The base case: one group for each signal. -/
theorem dispatch_basePlanar (depth : ℕ) {batch e : ℕ} (hmax : 2 ^ e ≤ M.maxThreads)
    (hbatch : 0 < batch) (hcap : batch * 2 ^ e < 2 ^ 32) (hexact : A.Exact false ω (2 ^ e))
    (hroot : IsPow2Root ω e) (data : Planes R) :
    ∃ data', M.dispatch1dWithTgPlanar depth .base (batch * 2 ^ e) (2 ^ e)
        (fftStockhamPow2BatchedPlanar A (2 ^ e)) data = .ok data' ∧
      Transformed ω e batch data.point data'.point := by
  have haddr : ∀ s < batch, ∀ i < 2 ^ e, u32 (u32 (s * 2 ^ e) + i) = s * 2 ^ e + i := by
    intro s hs i hi
    have hlt := tile_lt hi hs
    rw [u32_of_lt (x := s * 2 ^ e) (by omega), u32_of_lt (by omega)]
  obtain ⟨data', hok, hin, hout⟩ := dispatch_inPlacePlanar depth .base
    (fun g i => u32 (u32 (g * 2 ^ e) + i)) (Nat.two_pow_pos e) hmax hbatch hexact hroot
    (fun s hs i hi u hu j hj h => by
      rw [haddr s hs i hi, haddr u hu j hj] at h
      exact tile_inj hi hj h) data
  refine ⟨data', hok, fun s hs k hk => ?_, fun j hj => hout j fun s hs i hi => ?_⟩
  · rw [← haddr s hs k hk, hin s hs k hk]
    exact dft_congr (fun i hi => by rw [haddr s hs i hi]) k
  · have hlt := tile_lt hi hs
    rw [haddr s hs i hi]
    omega

/-- The columns: one group for each column of each signal. -/
theorem dispatch_colsPlanar (depth : ℕ) {batch e l2 : ℕ} (hmax : 2 ^ e ≤ M.maxThreads)
    (hbatch : 0 < batch) (hl2 : 0 < l2) (hcap : batch * (2 ^ e * l2) < 2 ^ 32)
    (hexact : A.Exact false ω (2 ^ e)) (hroot : IsPow2Root ω e) (data : Planes R) :
    ∃ data', M.dispatch1dWithTgPlanar depth .cols (batch * l2 * 2 ^ e) (2 ^ e)
        (fftFourstepColsPlanar A (2 ^ e) l2) data = .ok data' ∧
      (∀ s < batch, ∀ j < l2, ∀ k < 2 ^ e, data'.point (s * (2 ^ e * l2) + (k * l2 + j)) =
        dft ω (2 ^ e) (fun i => data.point (s * (2 ^ e * l2) + (i * l2 + j))) k) ∧
      ∀ j, batch * (2 ^ e * l2) ≤ j → data'.point j = data.point j := by
  have haddr : ∀ g < batch * l2, ∀ i < 2 ^ e,
      u32 (u32 (g / l2 * u32 (2 ^ e * l2) + g % l2) + i * l2) =
        g / l2 * (2 ^ e * l2) + (i * l2 + g % l2) := fun g hg i hi =>
    (colsAddr_eq hl2 hcap hg hi).1
  obtain ⟨data', hok, hin, hout⟩ := dispatch_inPlacePlanar depth .cols
    (fun g i => u32 (u32 (g / l2 * u32 (2 ^ e * l2) + g % l2) + i * l2))
    (Nat.two_pow_pos e) hmax (Nat.mul_pos hbatch hl2) hexact hroot
    (fun g hg i hi u hu j hj h => by
      rw [haddr g hg i hi, haddr u hu j hj] at h
      obtain ⟨hdiv, hloc⟩ := tile_inj (tile_lt (Nat.mod_lt g hl2) hi) (tile_lt (Nat.mod_lt u hl2) hj) h
      obtain ⟨hrow, hcol⟩ := tile_inj (Nat.mod_lt g hl2) (Nat.mod_lt u hl2) hloc
      exact ⟨by rw [← Nat.div_add_mod g l2, ← Nat.div_add_mod u l2, hdiv, hcol], hrow⟩) data
  refine ⟨data', hok, fun s hs j hj k hk => ?_, fun j hj => hout j fun g hg i hi => ?_⟩
  · have hg : s * l2 + j < batch * l2 := tile_lt hj hs
    have hcell : ∀ i < 2 ^ e,
        u32 (u32 ((s * l2 + j) / l2 * u32 (2 ^ e * l2) + (s * l2 + j) % l2) + i * l2) =
          s * (2 ^ e * l2) + (i * l2 + j) := by
      intro i hi
      rw [haddr _ hg i hi, tile_div hj, tile_mod hj]
    rw [← hcell k hk, hin _ hg k hk]
    exact dft_congr (fun i hi => by rw [hcell i hi]) k
  · have hlt := (colsAddr_eq hl2 hcap hg hi).2
    rw [haddr g hg i hi]
    omega

theorem dispatch_twiddlePlanar (depth l2 : ℕ) {len batch : ℕ} (hpos : 0 < batch * len)
    (hcap : batch * len < 2 ^ 32) (m : TwiddleMem R) :
    ∃ m', M.dispatch1dOn depth .twiddle (batch * len) (fftTwiddleMulPlanar A l2 len batch) m =
        .ok m' ∧
      ∀ j, m'.planes.point j = if j < batch * len then
        m.planes.point j * A.twiddle (u32 (j % len / l2 * (j % len % l2))) len false
        else m.planes.point j := by
  unfold Machine.dispatch1dOn
  rw [if_neg hpos.ne']
  refine ⟨_, rfl, fun j => ?_⟩
  have hcomplete := complete_finish (batch * len)
    (fftTwiddleMulPlanar A l2 len batch (batch * len)) (M.threads depth .twiddle)
  unfold fftTwiddleMulPlanar at hcomplete ⊢
  rw [u32_of_lt hcap] at hcomplete ⊢
  split_ifs with hj
  · have hview := runPhase_loop hpos hcomplete
      (fun m : TwiddleMem R => (m.planes.point j, m.v j)) hj
      (fun op hop m m' hm => ?_) (fun i _ hij op hop m => ?_) m
    · refine (congrArg Prod.fst hview).trans (Float2.ext ?_ ?_)
      · show Function.update m.planes.re j (Function.update m.v j _ j).x j = _
        rw [Function.update_self, Function.update_self]
      · show Function.update m.planes.im j (Function.update m.v j _ j).y j = _
        rw [Function.update_self, Function.update_self]
    · have hpoint : m.planes.point j = m'.planes.point j := congrArg Prod.fst hm
      have hv : m.v j = m'.v j := congrArg Prod.snd hm
      have hx := congrArg Float2.x hpoint
      have hy := congrArg Float2.y hpoint
      simp only [List.mem_cons, List.not_mem_nil, or_false] at hop
      rcases hop with rfl | rfl | rfl
      · exact Prod.ext hpoint (update_congr (congrArg (· * _) hpoint) hv)
      · exact Prod.ext (Float2.ext (update_congr (congrArg Float2.x hv) hx) hy) hv
      · exact Prod.ext (Float2.ext hx (update_congr (congrArg Float2.y hv) hy)) hv
    · simp only [List.mem_cons, List.not_mem_nil, or_false] at hop
      rcases hop with rfl | rfl | rfl
      · exact Prod.ext rfl (Function.update_of_ne hij.symm ..)
      · exact Prod.ext (Float2.ext (Function.update_of_ne hij.symm ..) rfl) rfl
      · exact Prod.ext (Float2.ext rfl (Function.update_of_ne hij.symm ..)) rfl
  · refine runPhase_loop_frame (fun m : TwiddleMem R => m.planes.point j)
      (fun i hi op hop m => ?_) m _
    have hij : j ≠ i := by omega
    simp only [List.mem_cons, List.not_mem_nil, or_false] at hop
    rcases hop with rfl | rfl | rfl
    · rfl
    · exact Float2.ext (Function.update_of_ne hij ..) rfl
    · exact Float2.ext rfl (Function.update_of_ne hij ..)

end Dispatch

/-- A loop each of whose iterations stores a point that no other one stores. -/
theorem runPhase_points {size stop : ℕ} (hsize : 0 < size) (dst : ℕ → ℕ)
    (hdst : ∀ i < stop, ∀ j < stop, dst i = dst j → i = j) (v : ℕ → Float2 R) {turns : List ℕ}
    (hcomplete : Complete (ofGroup size (loopPhase size stop fun i =>
      [Planes.setRe (dst i) (v i).x, Planes.setIm (dst i) (v i).y])) size turns) (out : Planes R) :
    (∀ i < stop, (runPhase size (loopPhase size stop fun i =>
      [Planes.setRe (dst i) (v i).x, Planes.setIm (dst i) (v i).y]) out turns).point (dst i) = v i) ∧
    ∀ j, (∀ i < stop, dst i ≠ j) → (runPhase size (loopPhase size stop fun i =>
      [Planes.setRe (dst i) (v i).x, Planes.setIm (dst i) (v i).y]) out turns).point j =
        out.point j := by
  refine ⟨fun i hi => ?_, fun j hj => ?_⟩
  · have hview := runPhase_loop hsize hcomplete (fun p : Planes R => p.point (dst i)) hi
      (fun op hop p p' hp => ?_) (fun j hj hji op hop p => ?_) out
    · exact hview.trans (Float2.ext (Function.update_self ..) (Function.update_self ..))
    · have hx := congrArg Float2.x hp
      have hy := congrArg Float2.y hp
      rcases List.mem_pair.1 hop with rfl | rfl
      · exact Float2.ext (update_congr rfl hx) hy
      · exact Float2.ext hx (update_congr rfl hy)
    · have hne : dst i ≠ dst j := fun h => hji (hdst i hi j hj h).symm
      rcases List.mem_pair.1 hop with rfl | rfl
      · exact Float2.ext (Function.update_of_ne hne ..) rfl
      · exact Float2.ext rfl (Function.update_of_ne hne ..)
  · refine runPhase_loop_frame (fun p : Planes R => p.point j) (fun i hi op hop p => ?_)
      out turns
    rcases List.mem_pair.1 hop with rfl | rfl
    · exact Float2.ext (Function.update_of_ne (hj i hi).symm ..) rfl
    · exact Float2.ext rfl (Function.update_of_ne (hj i hi).symm ..)

theorem dispatch_copyPlanar {M : Machine (Float2 R)} (depth : ℕ) {count : ℕ} (hpos : 0 < count)
    (input out : Planes R) :
    ∃ out', M.dispatch1dOn depth .copy count (fftCopyPlanar input count) out = .ok out' ∧
      ∀ j, out'.point j = if j < count then input.point j else out.point j := by
  unfold Machine.dispatch1dOn
  rw [if_neg hpos.ne']
  refine ⟨_, rfl, fun j => ?_⟩
  obtain ⟨hin, hout⟩ := runPhase_points hpos id (fun i _ j _ h => h) input.point
    (complete_finish count (fftCopyPlanar input count count) (M.threads depth .copy)) out
  split_ifs with hj
  · exact hin j hj
  · exact hout j fun i hi hij => hj (hij ▸ hi)

/-- The transpose of each signal. -/
theorem dispatch_transposePlanar {M : Machine (Float2 R)} (depth : ℕ) {batch l1 l2 : ℕ}
    (hpos : 0 < batch * (l1 * l2)) (hcap : batch * (l1 * l2) < 2 ^ 32) (input out : Planes R) :
    ∃ out', M.dispatch1dOn depth .transpose (batch * (l1 * l2)) (fftTransposePlanar input l1 l2 batch)
        out = .ok out' ∧
      ∀ s < batch, ∀ i < l1, ∀ j < l2, out'.point (s * (l1 * l2) + (j * l1 + i)) =
        input.point (s * (l1 * l2) + (i * l2 + j)) := by
  have hbatch : 0 < batch := Nat.pos_of_mul_pos_right hpos
  have hlen0 : 0 < l1 * l2 := Nat.pos_of_mul_pos_left hpos
  have hl2 : 0 < l2 := Nat.pos_of_mul_pos_left hlen0
  have hlen : l1 * l2 < 2 ^ 32 := by
    have := Nat.le_mul_of_pos_left (l1 * l2) hbatch
    omega
  have hloc : ∀ {i j : ℕ}, i < l1 → j < l2 → j * l1 + i < l1 * l2 := fun hi hj =>
    Nat.mul_comm l2 l1 ▸ tile_lt hi hj
  have haddr : ∀ s < batch, ∀ i < l1, ∀ j < l2,
      u32 (s * (l1 * l2) + j * l1 + i) = s * (l1 * l2) + (j * l1 + i) := by
    intro s hs i hi j hj
    have := tile_lt (hloc hi hj) hs
    rw [u32_of_lt (by omega), Nat.add_assoc]
  -- an index is a row and a column of a signal
  have hparts : ∀ idx < batch * (l1 * l2), idx / (l1 * l2) < batch ∧ idx % (l1 * l2) / l2 < l1 ∧
      idx % (l1 * l2) % l2 < l2 := fun idx hidx =>
    ⟨(Nat.div_lt_iff_lt_mul hlen0).2 hidx, (Nat.div_lt_iff_lt_mul hl2).2 (Nat.mod_lt idx hlen0),
      Nat.mod_lt _ hl2⟩
  unfold Machine.dispatch1dOn
  rw [if_neg hpos.ne']
  refine ⟨_, rfl, fun s hs i hi j hj => ?_⟩
  have hcomplete := complete_finish (batch * (l1 * l2))
    (fftTransposePlanar input l1 l2 batch (batch * (l1 * l2))) (M.threads depth .transpose)
  unfold fftTransposePlanar at hcomplete ⊢
  dsimp only at hcomplete ⊢
  rw [u32_of_lt hlen, u32_of_lt hcap] at hcomplete ⊢
  have hinj : ∀ a < batch * (l1 * l2), ∀ b < batch * (l1 * l2),
      u32 (a / (l1 * l2) * (l1 * l2) + a % (l1 * l2) % l2 * l1 + a % (l1 * l2) / l2) =
        u32 (b / (l1 * l2) * (l1 * l2) + b % (l1 * l2) % l2 * l1 + b % (l1 * l2) / l2) → a = b := by
    intro a ha b hb hab
    obtain ⟨has, har, hac⟩ := hparts a ha
    obtain ⟨hbs, hbr, hbc⟩ := hparts b hb
    rw [haddr _ has _ har _ hac, haddr _ hbs _ hbr _ hbc] at hab
    obtain ⟨hsig, hloc'⟩ := tile_inj (hloc har hac) (hloc hbr hbc) hab
    obtain ⟨hcol, hrow⟩ := tile_inj har hbr hloc'
    rw [← Nat.div_add_mod a (l1 * l2), ← Nat.div_add_mod b (l1 * l2), hsig,
      ← Nat.div_add_mod (a % (l1 * l2)) l2, ← Nat.div_add_mod (b % (l1 * l2)) l2, hrow, hcol]
  have hlt := tile_lt hj hi
  have hcell := (runPhase_points hpos _ hinj input.point hcomplete out).1
    (s * (l1 * l2) + (i * l2 + j)) (tile_lt hlt hs)
  rw [tile_div hlt, tile_mod hlt, tile_div hj, tile_mod hj, haddr s hs i hi j hj] at hcell
  exact hcell

/-! The pass. -/

section Pass

variable [CommRing R] {A : Arith (Float2 R)} {ω : Float2 R} {M : Machine (Float2 R)}

/-- The pass, on a machine whose threadgroups may be as wide as the base case. -/
theorem fftPassPlanar_transforms (hmax : fftBaseMax ≤ M.maxThreads) {e batch depth : ℕ}
    (hexact : A.Exact false ω (2 ^ e)) (hroot : IsPow2Root ω e) (hbatch : 0 < batch)
    (hcap : batch * 2 ^ e ≤ 2 ^ 30) (hdepth : depth ≤ fftMaxRecursionDepth)
    (hlevels : e ≤ 10 * (7 - depth)) (bufs : PlanarBufs R) :
    ∃ bufs', fftPassPlanar M A (2 ^ e) batch depth bufs = .ok bufs' ∧
      Transformed ω e batch bufs.data.point bufs'.data.point := by
  have hnotDeep : ¬ depth > fftMaxRecursionDepth := Nat.not_lt.2 hdepth
  induction e using Nat.strong_induction_on generalizing ω batch depth bufs with
  | _ e ih =>
    have hlen : 2 ^ e < 2 ^ 32 := by
      have := Nat.le_mul_of_pos_left (2 ^ e) hbatch
      omega
    have hb32 : batch < 2 ^ 32 := by
      have := Nat.le_mul_of_pos_right batch (Nat.two_pow_pos e)
      omega
    by_cases hsmall : e ≤ 10
    · have hle : 2 ^ e ≤ fftBaseMax := Nat.pow_le_pow_right (by omega) hsmall
      obtain ⟨data', hok, htransformed⟩ := dispatch_basePlanar (M := M) depth (hle.trans hmax)
        hbatch (by omega) hexact hroot bufs.data
      refine ⟨{ bufs with data := data' }, ?_, htransformed⟩
      rw [fftPassPlanar, if_neg hnotDeep, if_pos hle, u32_of_lt hlen, hok]
      rfl
    · obtain ⟨d, rfl⟩ : ∃ d, e = 10 + d := ⟨e - 10, by omega⟩
      have hsplit : 2 ^ (10 + d) = fftBaseMax * 2 ^ d := pow_add 2 10 d
      have hbig : ¬ 2 ^ (10 + d) ≤ fftBaseMax := by
        have := Nat.pow_lt_pow_right (a := 2) (by omega) (show 10 < 10 + d by omega)
        exact Nat.not_le.2 this
      have hl2 : 2 ^ (10 + d) / fftBaseMax = 2 ^ d := by
        rw [hsplit, Nat.mul_div_cancel_left _ (by decide)]
      have hrows : batch * fftBaseMax * 2 ^ d = batch * 2 ^ (10 + d) := by rw [hsplit, Nat.mul_assoc]
      have hl2lt : 2 ^ d < 2 ^ 32 := by
        have := Nat.pow_le_pow_right (n := 2) (by omega) (show d ≤ 10 + d by omega)
        omega
      have hpos : 0 < batch * 2 ^ (10 + d) := Nat.mul_pos hbatch (Nat.two_pow_pos _)
      have hcolsExact : A.Exact false (ω ^ 2 ^ d) (2 ^ 10) := by
        have h := hexact.sub ⟨2 ^ d, pow_add 2 10 d⟩
        rwa [show 2 ^ (10 + d) / 2 ^ 10 = 2 ^ d from hl2] at h
      have hrowsExact : A.Exact false (ω ^ 2 ^ 10) (2 ^ d) := by
        have h := hexact.sub ⟨2 ^ 10, by rw [pow_add, Nat.mul_comm]⟩
        rwa [pow_add, Nat.mul_div_cancel _ (Nat.two_pow_pos d)] at h
      obtain ⟨data₁, hok₁, hcols, hrest₁⟩ := @dispatch_colsPlanar R _ A _ M depth batch 10 (2 ^ d)
        hmax hbatch (Nat.two_pow_pos d) (by rw [← pow_add]; omega) hcolsExact
        (IsPow2Root.pow (by rwa [Nat.add_comm])) bufs.data
      obtain ⟨m₂, hok₂, htwiddle⟩ := dispatch_twiddlePlanar (M := M) (A := A) depth (2 ^ d)
        hpos (by omega) ⟨data₁, fun _ => 0⟩
      obtain ⟨bufs₃, hok₃, hrows₃⟩ := @ih d (by omega) _ (batch * fftBaseMax) (depth + 1) hrowsExact
        hroot.pow (Nat.mul_pos hbatch (by decide))
        (by rw [hrows]; exact hcap) (by unfold fftMaxRecursionDepth at hdepth ⊢; omega) (by omega)
        { bufs with data := m₂.planes } (by unfold fftMaxRecursionDepth at hdepth ⊢; omega)
      obtain ⟨scratch, hok₄, htranspose⟩ := @dispatch_transposePlanar R M depth batch
        fftBaseMax (2 ^ d) (by rwa [← hsplit]) (by rw [← hsplit]; omega) bufs₃.data
        bufs₃.scratch
      obtain ⟨data₅, hok₅, hcopy⟩ := dispatch_copyPlanar (M := M) depth hpos scratch bufs₃.data
      refine ⟨⟨data₅, scratch⟩, ?_, fun s hs k hk => ?_, fun j hj => ?_⟩
      · rw [fftPassPlanar, if_neg hnotDeep, if_neg hbig]
        dsimp only
        rw [hl2, u32_of_lt hl2lt, u32_of_lt hlen, u32_of_lt hb32, u32_of_lt (x := batch * _) (by omega),
          show u32 fftBaseMax = 2 ^ 10 from rfl, show batch * 2 ^ d * fftBaseMax = batch * 2 ^ d * 2 ^ 10
            from rfl]
        rw [← hsplit] at hok₄
        exact bind_eq_ok.2 ⟨data₁, hok₁, bind_eq_ok.2 ⟨m₂, hok₂, bind_eq_ok.2 ⟨bufs₃, hok₃,
          bind_eq_ok.2 ⟨scratch, hok₄, bind_eq_ok.2 ⟨data₅, hok₅, rfl⟩⟩⟩⟩⟩
      · have hturn : ω ^ (2 ^ d * fftBaseMax) = 1 := by
          rw [Nat.mul_comm, ← hsplit]
          exact hroot.pow_eq_one
        have hlt : s * 2 ^ (10 + d) + k < batch * 2 ^ (10 + d) := tile_lt hk hs
        have htw : ∀ s < batch, ∀ i < fftBaseMax, ∀ j < 2 ^ d,
            m₂.planes.point (s * (fftBaseMax * 2 ^ d) + (i * 2 ^ d + j)) =
              data₁.point (s * (fftBaseMax * 2 ^ d) + (i * 2 ^ d + j)) * ω ^ (i * j) := by
          intro s hs i hi j hj
          have hloc : i * 2 ^ d + j < fftBaseMax * 2 ^ d := tile_lt hj hi
          have hij : i * j < 2 ^ 32 := by
            have := Nat.mul_le_mul hi.le hj.le
            omega
          rw [htwiddle, hsplit, if_pos (tile_lt hloc hs), tile_mod hloc, tile_div hj, tile_mod hj,
            u32_of_lt hij, ← hsplit, hexact _ _ dvd_rfl, Nat.div_self (Nat.two_pow_pos _),
            Nat.mul_one]
        have h := fourStep_eq hturn hcols htw hrows₃.signal htranspose hs (hsplit ▸ hk)
        rw [Nat.mul_comm (2 ^ d), ← hsplit] at h
        exact ((hcopy _).trans (if_pos hlt)).trans h
      · have hnot : ¬ j < batch * 2 ^ (10 + d) := Nat.not_lt.2 hj
        refine ((hcopy _).trans (if_neg hnot)).trans ?_
        rw [hrows₃.rest j (by rwa [hrows])]
        refine ((htwiddle j).trans (if_neg hnot)).trans ?_
        exact hrest₁ j (by rwa [← pow_add])

/-- One signal, in either direction. -/
theorem fftRecursiveFourstepPlanar_dft {e : ℕ} (hmax : fftBaseMax ≤ M.maxThreads)
    (hexact : A.Exact false ω (2 ^ e)) (hroot : IsPow2Root ω e) (hcap : 2 ^ e ≤ 2 ^ 30)
    (input : Planes R) (inverse : Bool) :
    ∃ out, fftRecursiveFourstepPlanar M A input (2 ^ e) inverse = .ok out ∧
      ∀ k < 2 ^ e, out.point k = (dft (if inverse then star ω else ω) (2 ^ e) input.point k).scale
        (scaleOf A (2 ^ e) inverse) := by
  have hone : 1 * 2 ^ e ≤ 2 ^ 30 := by rwa [Nat.one_mul]
  obtain ⟨bufs', hok, hsignal, -⟩ := fftPassPlanar_transforms hmax hexact hroot Nat.one_pos hone
    (Nat.zero_le _) (levels_of_cap Nat.one_pos hone)
    ⟨if inverse then ⟨input.re, fun i => -input.im i⟩ else input, ⟨fun _ => 0, fun _ => 0⟩⟩
  refine ⟨_, bind_eq_ok.2 ⟨bufs', hok, rfl⟩, fun k hk => ?_⟩
  have h := hsignal 0 Nat.one_pos k hk
  simp only [Nat.zero_mul, Nat.zero_add] at h
  cases inverse with
  | false =>
    refine h.trans (Float2.ext ?_ ?_)
    · exact (one_mul _).symm
    · exact (one_mul _).symm
  | true =>
    -- negating the imaginary plane is conjugation
    have hmap := map_dft (starRingEnd (Float2 R)) ω (2 ^ e) (fun i => star (input.point i)) k
    simp only [starRingEnd_apply, star_star] at hmap
    have hstar : star (bufs'.data.point k) = dft (star ω) (2 ^ e) input.point k :=
      (congrArg star h).trans hmap
    rw [if_pos rfl, if_pos rfl, ← hstar]
    exact Float2.ext (mul_comm _ _) (mul_comm _ _)

end Pass

end PolarsMetal.Fft
