import PolarsMetal.Lib.TopK

/-! Vector search: the `k` best corpus rows of every query. The scores come from one matrix product
and a partition of each row; a large corpus is searched in tiles of rows, whose hits are merged on
the host. -/

namespace PolarsMetal.Vector

def opCosine : ℕ := 0
def opKnnL2 : ℕ := 1

inductive SearchError where
  | unknownOp
  | kthOutOfRange (kth : ℤ) (size : ℕ)
  | reshape (shape : List ℤ) (size : ℕ)
deriving DecidableEq

/-- The array operations, on entries and on rows, over a type of scores. `argpartition` is documented
to put the positions of the `kth + 1` smallest entries first, in no particular order. -/
structure Mlx (S : Type*) [Inhabited S] where
  add : S → S → S
  sub : S → S → S
  mul : S → S → S
  div : S → S → S
  neg : S → S
  sqrt : S → S
  exp : S → S
  sumAxis : List S → S
  /-- An entry of a matrix product, from its row and its column. -/
  matmulEntry : List S → List S → S
  less : S → S → Prop
  argpartition : List S → ℕ → List ℕ
  argpartition_perm : ∀ xs kth, kth < xs.length → (argpartition xs kth).Perm (List.range xs.length)
  argpartition_parts : ∀ xs kth, kth < xs.length →
    ∀ i ∈ (argpartition xs kth).take (kth + 1), ∀ j ∈ (argpartition xs kth).drop (kth + 1),
      ¬ less (xs.getD j default) (xs.getD i default)

/-- A search's arguments. Matrices are row-major with `d` columns, and the extents of an array are
32-bit; `k` is any integer of 64 bits that is not negative. -/
structure Search (S : Type*) where
  query : List S
  qRows : ℕ
  corpus : List S
  nRows : ℕ
  d : ℕ
  k : ℕ
  op : ℕ
  weight : Option (List S)
  qRows_lt : qRows < 2 ^ 31
  nRows_lt : nRows < 2 ^ 31

/-- A query's hits: corpus rows and their scores. -/
abbrev Hits (S : Type*) := List (ℕ × S)

section Source

variable {S : Type*} [Inhabited S] (M : Mlx S)

/-- A row of a row-major matrix. -/
def rowOf (m : List S) (d i : ℕ) : List S := (m.drop (i * d)).take d

def l2NormalizeRow (x : List S) : List S :=
  let norm := M.sqrt (M.sumAxis (x.map fun v => M.mul v v))
  x.map fun v => M.div v norm

def cosine (q c : List S) : S := M.matmulEntry (l2NormalizeRow M q) (l2NormalizeRow M c)

/-- `q2 + c2 - 2 q·c` -/
def squaredL2 (q c : List S) : S :=
  let q2 := M.sumAxis (q.map fun v => M.mul v v)
  let c2 := M.sumAxis (c.map fun v => M.mul v v)
  let cross := M.matmulEntry q c
  M.sub (M.add q2 c2) (M.add cross cross)

/-- An op's metric, and what the partition looks at: the smallest come first. -/
def metricOf (op : ℕ) : Option ((List S → List S → S) × (S → S)) :=
  if op = opCosine then some (cosine M, M.neg)
  else if op = opKnnL2 then some (squaredL2 M, id)
  else none

/-- The optional rerank of a gathered score. -/
def finalValue (weight : Option (List S)) (i : ℕ) (val : S) : S :=
  match weight with
  | some w => M.mul val (M.exp (M.neg (w.getD i default)))
  | none => val

/-- `x as i32` -/
def asI32 (x : ℤ) : ℤ := x.bmod (2 ^ 32)

/-- An index of an axis; a negative one counts from its end. -/
def resolveIndex (size : ℕ) (i : ℤ) : ℤ := if i < 0 then i + size else i

/-- Whether a reshape of `size` entries passes. An extent of -1 is inferred from the others; no other
is negative. -/
def Reshapes (size : ℕ) (shape : List ℤ) : Prop :=
  (∀ x ∈ shape, -1 ≤ x) ∧
    (shape.count (-1) = 0 ∧ shape.prod = size ∨
      shape.count (-1) = 1 ∧ 0 < (shape.erase (-1)).prod ∧ (shape.erase (-1)).prod ∣ (size : ℤ))

instance (size : ℕ) (shape : List ℤ) : Decidable (Reshapes size shape) := by
  unfold Reshapes
  infer_instance

def vectorSearchTopkRerank (s : Search S) : Except SearchError (List (Hits S)) :=
  match metricOf M s.op with
  | none => .error .unknownOp
  | some (metric, partitionOn) =>
    let kth := resolveIndex s.nRows (asI32 ((s.k : ℤ) - 1))
    -- the slice stops at the 32-bit `k`, and at the end of the axis
    let columns := min (resolveIndex s.nRows (asI32 s.k)).toNat s.nRows
    -- the product is an `i64`, whose own wrap 32 bits do not see
    let flat : List ℤ := [asI32 ((s.qRows : ℤ) * s.k)]
    let feat2d : List ℤ := [s.qRows, asI32 s.k]
    if kth < 0 ∨ (s.nRows : ℤ) ≤ kth then .error (.kthOutOfRange kth s.nRows)
    else if s.weight.isSome ∧ ¬ Reshapes (s.qRows * columns) flat then
      .error (.reshape flat (s.qRows * columns))
    else if s.weight.isSome ∧ ¬ Reshapes (s.qRows * columns) feat2d then
      .error (.reshape feat2d (s.qRows * columns))
    else
      .ok ((List.range s.qRows).map fun qi =>
        let sims := (List.range s.nRows).map fun i => metric (rowOf s.query s.d qi) (rowOf s.corpus s.d i)
        let part := M.argpartition (sims.map partitionOn) kth.toNat
        (part.take columns).map fun i => (i, finalValue M s.weight i (sims.getD i default)))

/-- The number of hits the tiled search keeps. -/
def Search.kk (s : Search S) : ℕ := min s.k s.nRows

/-- The search of the rows `offset .. offset + rows`. -/
def Search.tile (s : Search S) (offset rows : ℕ) (hrows : rows ≤ s.nRows) : Search S :=
  { s with
    corpus := (s.corpus.take ((offset + rows) * s.d)).drop (offset * s.d)
    nRows := rows
    k := min s.kk rows
    weight := s.weight.map fun w => (w.take (offset + rows)).drop offset
    nRows_lt := hrows.trans_lt s.nRows_lt }

variable [LinearOrder S]

/-- The order in which hits are kept: cosine descending, distances ascending, then by row. -/
def hitLe (op : ℕ) (a b : ℕ × S) : Prop :=
  if op = opCosine then b.2 < a.2 ∨ a.2 = b.2 ∧ a.1 ≤ b.1 else a.2 < b.2 ∨ a.2 = b.2 ∧ a.1 ≤ b.1

instance (op : ℕ) : DecidableRel (hitLe (S := S) op) := fun a b => by
  unfold hitLe
  infer_instance

/-- A tile's hits go into every query's running top-k. -/
def mergeTile (op kk offset : ℕ) (best tile : List (Hits S)) : List (Hits S) :=
  List.zipWith (fun b t =>
    ((b ++ t.map fun h => (h.1 + offset, h.2)).insertionSort (hitLe op)).take kk) best tile

def tileLoop (s : Search S) (tileRows : ℕ) (htile : 1 ≤ tileRows) (offset : ℕ)
    (best : List (Hits S)) : Except SearchError (List (Hits S)) :=
  if offset < s.nRows then
    let rows := min (s.nRows - offset) tileRows
    match vectorSearchTopkRerank M (s.tile offset rows ((min_le_left _ _).trans (Nat.sub_le _ _))) with
    | .error e => .error e
    | .ok hits => tileLoop s tileRows htile (offset + rows) (mergeTile s.op s.kk offset best hits)
  else .ok best
termination_by s.nRows - offset

def vectorSearchTopkTiled (s : Search S) (tileRows : ℕ) (htile : 1 ≤ tileRows) :
    Except SearchError (List (Hits S)) :=
  if tileRows ≥ s.nRows then vectorSearchTopkRerank M s
  else tileLoop M s tileRows htile 0 (List.replicate s.qRows [])

end Source

/-! Which rows the searches select. -/

section Selection

variable {S : Type*} [Inhabited S] (M : Mlx S) (s : Search S) (metric : List S → List S → S)
  (partitionOn : S → S)

/-- A corpus row's score under the metric. -/
def Search.score (qi i : ℕ) : S := metric (rowOf s.query s.d qi) (rowOf s.corpus s.d i)

/-- The raw score the device ranks by: the least comes first. -/
def Search.raw (qi i : ℕ) : S := partitionOn (s.score metric qi i)

/-- The score after the optional rerank. -/
def Search.final (qi i : ℕ) : S := finalValue M s.weight i (s.score metric qi i)

/-- The `k` rows of least raw score among `rows` rows from `offset`; the device chooses among equals. -/
def Search.leading (qi offset rows k : ℕ) : List ℕ :=
  ((M.argpartition ((List.range rows).map fun i => s.raw metric partitionOn qi (i + offset))
    (k - 1)).take k).map (· + offset)

/-- The number of rows of the tile from `start`. -/
def Search.tileLength (tileRows start : ℕ) : ℕ := min (s.nRows - start) tileRows

/-- The rows that are among the `k` of least raw score of their own tile. -/
def Search.tileLeading (tileRows qi : ℕ) : List ℕ :=
  (List.range s.nRows).filter fun i =>
    let start := i / tileRows * tileRows
    let rows := s.tileLength tileRows start
    i ∈ s.leading M metric partitionOn qi start rows (min s.kk rows)

/-- What 32 bits leave of `k`: the number of hits of a query, or `none` where an index or an extent
is refused. -/
def Search.columns : Option ℕ :=
  let kth := resolveIndex s.nRows (asI32 ((s.k : ℤ) - 1))
  let columns := min (resolveIndex s.nRows (asI32 s.k)).toNat s.nRows
  if kth < 0 ∨ (s.nRows : ℤ) ≤ kth then none
  else if s.weight.isSome ∧ ¬ Reshapes (s.qRows * columns) [asI32 ((s.qRows : ℤ) * s.k)] then none
  else if s.weight.isSome ∧ ¬ Reshapes (s.qRows * columns) [s.qRows, asI32 s.k] then none
  else some columns

/-- As many hits as rows, reranked, for 65536 queries of 32768 rows: 2^31 flattened hits. -/
example : (⟨[], 65536, [], 32768, 1, 32768, opCosine, some [], by decide, by decide⟩ :
    Search ℕ).columns = none := by decide

/-- A `k` of 2^32 + 3 is read as 3. -/
example : (⟨[], 1, [], 3, 1, 4294967299, opCosine, none, by decide, by decide⟩ :
    Search ℕ).columns = some 3 := by decide

/-- A `k` of 2^32 - 1 is read as -1: one hit fewer than rows, in both reshapes. -/
example : (⟨[], 1, [], 3, 1, 4294967295, opCosine, some [], by decide, by decide⟩ :
    Search ℕ).columns = some 2 := by decide

/-- A weight column's flattened hits of `k` columns reshape to the extent that 32 bits leave them. -/
def Search.Flattens (k : ℕ) : Prop :=
  s.weight.isSome → Reshapes (s.qRows * k) [asI32 ((s.qRows : ℤ) * k)]

instance (k : ℕ) : Decidable (s.Flattens k) := by
  unfold Search.Flattens
  infer_instance

/-- The hits of every tile do. -/
def Search.TilesFlatten (tileRows : ℕ) : Prop :=
  ∀ start < s.nRows, tileRows ∣ start → s.Flattens (min s.kk (s.tileLength tileRows start))

/-- The device's comparison is a strict order of a query's raw scores that ties no two of them. -/
structure Search.Untied (qi : ℕ) : Prop where
  asymm : ∀ i < s.nRows, ∀ j < s.nRows,
    M.less (s.raw metric partitionOn qi i) (s.raw metric partitionOn qi j) →
      ¬ M.less (s.raw metric partitionOn qi j) (s.raw metric partitionOn qi i)
  total : ∀ i < s.nRows, ∀ j < s.nRows, i ≠ j →
    M.less (s.raw metric partitionOn qi i) (s.raw metric partitionOn qi j) ∨
      M.less (s.raw metric partitionOn qi j) (s.raw metric partitionOn qi i)

open Classical in
/-- The number of rows, of `rows` rows from `offset`, whose raw score is less than row `i`'s. -/
noncomputable def Search.rank (qi offset rows i : ℕ) : ℕ :=
  (List.range' offset rows).countP fun j =>
    decide (M.less (s.raw metric partitionOn qi j) (s.raw metric partitionOn qi i))

/-- A row's rank in its own tile. -/
noncomputable def Search.tileRank (tileRows qi i : ℕ) : ℕ :=
  s.rank M metric partitionOn qi (i / tileRows * tileRows) (s.tileLength tileRows (i / tileRows * tileRows)) i

variable [LinearOrder S]

def noWorse (op : ℕ) (a b : S) : Prop := if op = opCosine then b ≤ a else a ≤ b

instance (op : ℕ) : DecidableRel (noWorse (S := S) op) := fun a b => by
  unfold noWorse
  infer_instance

/-- The number of rows whose final score is no worse than `b`. -/
def Search.countNoWorse (qi : ℕ) (b : S) (rows : List ℕ) : ℕ :=
  rows.countP fun i => noWorse s.op (s.final M metric qi i) b

/-- The rows of least raw score carry the best final scores among the rows of least raw score of
their tiles. -/
def Search.CarriesBest (tileRows qi : ℕ) : Prop :=
  ∀ b, s.countNoWorse M metric qi b (s.leading M metric partitionOn qi 0 s.nRows s.kk) =
    min s.kk (s.countNoWorse M metric qi b (s.tileLeading M metric partitionOn tileRows qi))

/-- A row ranked among the first `k` of the corpus scores no worse, finally, than one ranked among the
first `k` of its tile only. -/
def Search.RanksBest (tileRows qi : ℕ) : Prop :=
  ∀ i < s.nRows, ∀ j < s.nRows, s.rank M metric partitionOn qi 0 s.nRows i < s.kk →
    s.tileRank M metric partitionOn tileRows qi j < s.kk →
    s.kk ≤ s.rank M metric partitionOn qi 0 s.nRows j →
    noWorse s.op (s.final M metric qi i) (s.final M metric qi j)

/-- One tile holds the corpus, or the casts stop both calls, or they stop neither and leave the hits
the tiles keep, and every query's carry the best scores. -/
def Search.Agrees (tileRows : ℕ) : Prop :=
  s.nRows ≤ tileRows ∨ (s.columns = none ∧ ¬ s.TilesFlatten tileRows) ∨
    s.TilesFlatten tileRows ∧ ∃ e, s.columns = some e ∧ ∀ qi < s.qRows, e = s.kk ∧
      s.CarriesBest M metric partitionOn tileRows qi

/-- The device's comparison orders a query's scores as the host does: none is NaN, and no two are
zeros of different sign. -/
def Search.Ordered (qi : ℕ) : Prop :=
  ∀ i < s.nRows, ∀ j < s.nRows,
    M.less (s.raw metric partitionOn qi i) (s.raw metric partitionOn qi j) ↔
      ¬ noWorse s.op (s.score metric qi j) (s.score metric qi i)

/-- Two results for a query, up to ties. -/
structure SameHits (xs ys : Hits S) : Prop where
  length : xs.length = ys.length
  scores : (xs.map Prod.snd).Perm (ys.map Prod.snd)
  shared : ∀ i a b, (i, a) ∈ xs → (i, b) ∈ ys → a = b
  tiedLeft : ∀ h ∈ xs, h.1 ∉ ys.map Prod.fst → ∃ h' ∈ ys, h'.1 ∉ xs.map Prod.fst ∧ h'.2 = h.2
  tiedRight : ∀ h ∈ ys, h.1 ∉ xs.map Prod.fst → ∃ h' ∈ xs, h'.1 ∉ ys.map Prod.fst ∧ h'.2 = h.2

/-- The same result for every query, or an error both times. -/
def Matches : Except SearchError (List (Hits S)) → Except SearchError (List (Hits S)) → Prop
  | .ok xs, .ok ys => List.Forall₂ SameHits xs ys
  | .error _, .error _ => True
  | _, _ => False

end Selection

end PolarsMetal.Vector
