import Mathlib.Tactic

/-! Little-endian cells in a byte buffer, and byte chunks framed by a table of their starts.
A cell read at its index is the cell written there; a slice between two consecutive starts
is the chunk. -/

namespace Framing

/-- The low `size` bytes of a number, least significant first. -/
def encode : ℕ → ℕ → List UInt8
  | 0, _ => []
  | size + 1, v => UInt8.ofNat v :: encode size (v / 256)

def decode (bytes : List UInt8) : ℕ := bytes.foldr (fun b acc => b.toNat + 256 * acc) 0

theorem length_encode (size v : ℕ) : (encode size v).length = size := by
  induction size generalizing v with
  | zero => rfl
  | succ size ih => rw [encode, List.length_cons, ih]

theorem decode_encode_mod (size v : ℕ) : decode (encode size v) = v % 256 ^ size := by
  induction size generalizing v with
  | zero => rw [encode, decode, List.foldr_nil, pow_zero, Nat.mod_one]
  | succ size ih =>
    have hsplit : v % 256 ^ (size + 1) = v % 256 + 256 * (v / 256 % 256 ^ size) := by
      rw [pow_succ', Nat.mod_mul]
    have hbyte : (UInt8.ofNat v).toNat = v % 256 := UInt8.toNat_ofNat'
    rw [encode, decode, List.foldr_cons, hbyte, hsplit]
    exact congrArg (fun x => v % 256 + 256 * x) (ih (v / 256))

theorem decode_encode {size v : ℕ} (h : v < 256 ^ size) : decode (encode size v) = v := by
  rw [decode_encode_mod, Nat.mod_eq_of_lt h]

/-! Tables of cells. -/

def table (size : ℕ) (vs : List ℕ) : List UInt8 := vs.flatMap (encode size)

def cell (size : ℕ) (bytes : List UInt8) (i : ℕ) : List UInt8 := (bytes.drop (i * size)).take size

theorem length_table (size : ℕ) (vs : List ℕ) : (table size vs).length = vs.length * size := by
  rw [table, List.length_flatMap]
  simp only [length_encode, List.map_const', List.sum_replicate, smul_eq_mul]

theorem cell_table {size : ℕ} {vs : List ℕ} {i : ℕ} (hi : i < vs.length) (rest : List UInt8) :
    cell size (table size vs ++ rest) i = encode size vs[i] := by
  induction vs generalizing i with
  | nil => exact absurd hi (Nat.not_lt_zero i)
  | cons v vs ih =>
    have hsplit : table size (v :: vs) = encode size v ++ table size vs := List.flatMap_cons
    have hlen := length_encode size v
    rcases i with _ | i
    · rw [cell, Nat.zero_mul, List.drop_zero, hsplit, List.append_assoc, List.take_left' hlen]
      rfl
    · have hdrop : (i + 1) * size = size + i * size := by ring
      rw [cell, hdrop, ← List.drop_drop, hsplit, List.append_assoc, List.drop_left' hlen]
      exact ih (by simpa using hi)

theorem decode_cell_table {size : ℕ} {vs : List ℕ} {i : ℕ} (hi : i < vs.length)
    (hv : vs[i] < 256 ^ size) (rest : List UInt8) :
    decode (cell size (table size vs ++ rest) i) = vs[i] := by
  rw [cell_table hi, decode_encode hv]

/-- A reader that keeps the bytes of the first cells only reads the same cells. -/
theorem cell_take {size n : ℕ} {bytes : List UInt8} {i : ℕ} (hi : i < n) :
    cell size (bytes.take (n * size)) i = cell size bytes i := by
  have hle : size ≤ n * size - i * size := by
    rw [← Nat.sub_mul]
    exact Nat.le_mul_of_pos_left size (by omega)
  rw [cell, cell, List.drop_take, List.take_take, Nat.min_eq_left hle]

/-! Chunks. -/

variable {α : Type*}

/-- Where each chunk starts when they are laid end to end, and where the last one ends. -/
def starts : ℕ → List (List α) → List ℕ
  | start, [] => [start]
  | start, c :: cs => start :: starts (start + c.length) cs

theorem length_starts (start : ℕ) (cs : List (List α)) :
    (starts start cs).length = cs.length + 1 := by
  induction cs generalizing start with
  | nil => rfl
  | cons c cs ih => rw [starts, List.length_cons, ih, List.length_cons]

theorem getElem?_starts {cs : List (List α)} {i : ℕ} (hi : i ≤ cs.length) (start : ℕ) :
    (starts start cs)[i]? = some (start + (cs.take i).flatten.length) := by
  induction cs generalizing start i with
  | nil =>
    obtain rfl : i = 0 := Nat.le_zero.1 hi
    rfl
  | cons c cs ih =>
    rcases i with _ | i
    · rfl
    · rw [starts, List.getElem?_cons_succ, ih (by simpa using hi), List.take_succ_cons,
        List.flatten_cons, List.length_append]
      exact congrArg some (by omega)

theorem length_take_flatten_le (cs : List (List α)) (i : ℕ) :
    (cs.take i).flatten.length ≤ cs.flatten.length := by
  conv_rhs => rw [← List.take_append_drop i cs, List.flatten_append, List.length_append]
  exact Nat.le_add_right _ _

theorem le_of_mem_starts {start : ℕ} {cs : List (List α)} {s : ℕ} (h : s ∈ starts start cs) :
    s ≤ start + cs.flatten.length := by
  obtain ⟨i, hi, rfl⟩ := List.getElem_of_mem h
  rw [length_starts] at hi
  have hget := getElem?_starts (Nat.le_of_lt_succ hi) start
  rw [List.getElem?_eq_getElem (by rw [length_starts]; exact hi)] at hget
  rw [Option.some.inj hget]
  exact Nat.add_le_add_left (length_take_flatten_le cs i) start

/-- The slice between a chunk's two starts is the chunk. -/
theorem slice_flatten {cs : List (List α)} {i : ℕ} (hi : i < cs.length) (rest : List α) :
    (((cs.flatten ++ rest).drop (cs.take i).flatten.length).take
      ((cs.take (i + 1)).flatten.length - (cs.take i).flatten.length)) = cs[i] := by
  have hnext : (cs.take (i + 1)).flatten = (cs.take i).flatten ++ cs[i] := by
    rw [List.take_succ_eq_append_getElem hi, List.flatten_append, List.flatten_singleton]
  have hall : cs.flatten = (cs.take i).flatten ++ (cs[i] ++ (cs.drop (i + 1)).flatten) := by
    conv_lhs => rw [← List.take_append_drop (i + 1) cs, List.flatten_append, hnext]
    rw [List.append_assoc]
  rw [hnext, List.length_append, Nat.add_sub_cancel_left, hall, List.append_assoc,
    List.drop_left, List.append_assoc, List.take_left]

end Framing
