import Mathlib.Tactic

/-! Fixed-width cells in memory: little-endian bytes, and the cells a reader of some width
makes of a byte string. A reader of the writer's width gets the cells back. -/

namespace Bytes

abbrev Byte := BitVec 8

def natBytes : ℕ → ℕ → List Byte
  | 0, _ => []
  | n + 1, v => BitVec.ofNat 8 v :: natBytes n (v / 256)

def natOf : List Byte → ℕ
  | [] => 0
  | b :: bs => b.toNat + 256 * natOf bs

theorem length_natBytes (n v : ℕ) : (natBytes n v).length = n := by
  induction n generalizing v with
  | zero => rfl
  | succ n ih => rw [natBytes, List.length_cons, ih]

theorem natOf_natBytes (n v : ℕ) : natOf (natBytes n v) = v % 256 ^ n := by
  induction n generalizing v with
  | zero => rw [natBytes, natOf, pow_zero, Nat.mod_one]
  | succ n ih =>
    have hsplit : v % 256 ^ (n + 1) = v % 256 + 256 * (v / 256 % 256 ^ n) := by
      rw [pow_succ', Nat.mod_mul]
    rw [natBytes, natOf, ih, BitVec.toNat_ofNat, hsplit]

/-- The bytes of a cell of `n` bytes. -/
def toBytes (n : ℕ) (x : BitVec (8 * n)) : List Byte := natBytes n x.toNat

def ofBytes (n : ℕ) (bytes : List Byte) : BitVec (8 * n) := BitVec.ofNat _ (natOf bytes)

theorem ofBytes_toBytes (n : ℕ) (x : BitVec (8 * n)) : ofBytes n (toBytes n x) = x := by
  have hx : x.toNat < 256 ^ n := by
    have h := x.isLt
    rwa [pow_mul] at h
  rw [ofBytes, toBytes, natOf_natBytes, Nat.mod_eq_of_lt hx, BitVec.ofNat_toNat, BitVec.setWidth_eq]

/-- An array's bytes. -/
def write (n : ℕ) (cells : List (BitVec (8 * n))) : List Byte := cells.flatMap (toBytes n)

def readCells (n : ℕ) : ℕ → List Byte → List (BitVec (8 * n))
  | 0, _ => []
  | count + 1, bytes => ofBytes n (bytes.take n) :: readCells n count (bytes.drop n)

/-- As many cells of `n` bytes as the length holds. -/
def view (n : ℕ) (bytes : List Byte) : List (BitVec (8 * n)) := readCells n (bytes.length / n) bytes

theorem length_write (n : ℕ) (cells : List (BitVec (8 * n))) :
    (write n cells).length = cells.length * n := by
  rw [write, List.length_flatMap]
  simp only [toBytes, length_natBytes, List.map_const', List.sum_replicate, smul_eq_mul]

theorem view_write {n : ℕ} (hn : 0 < n) (cells : List (BitVec (8 * n))) :
    view n (write n cells) = cells := by
  rw [view, length_write, Nat.mul_div_cancel _ hn]
  induction cells with
  | nil => rfl
  | cons x cells ih =>
    have hlen : (toBytes n x).length = n := length_natBytes _ _
    rw [List.length_cons, readCells, write, List.flatMap_cons, List.take_left' hlen,
      List.drop_left' hlen, ofBytes_toBytes]
    exact congrArg (x :: ·) ih

end Bytes
