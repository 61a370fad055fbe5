import Mathlib

/-! Byte-addressed memory with little-endian integers: what a C program sees
through a `char *` base pointer. Addresses are unbounded; the owner of a buffer
keeps its length separately. -/
namespace ByteMemory

abbrev Mem := Nat → UInt8

/-- The unsigned integer stored in the `n` bytes from `i`, low byte first. -/
def getLe (m : Mem) (i : Nat) : Nat → Nat
  | 0 => 0
  | n + 1 => (m i).toNat + 256 * getLe m (i + 1) n

abbrev get16 (m : Mem) (i : Nat) : Nat := getLe m i 2
abbrev get32 (m : Mem) (i : Nat) : Nat := getLe m i 4
abbrev get64 (m : Mem) (i : Nat) : Nat := getLe m i 8

/-- The low `n` bytes of `v`, low byte first. -/
def leBytes : Nat → Nat → List UInt8
  | 0, _ => []
  | n + 1, v => UInt8.ofNat v :: leBytes n (v / 256)

/-- `memcpy` into memory. -/
def blit (m : Mem) (base : Nat) (bytes : List UInt8) : Mem := fun i =>
  if base ≤ i ∧ i < base + bytes.length then bytes.getD (i - base) 0 else m i

/-- `memset`. -/
def fill (m : Mem) (base count : Nat) (byte : UInt8) : Mem := fun i =>
  if base ≤ i ∧ i < base + count then byte else m i

/-- `memcpy` out of memory. -/
def slice (m : Mem) (base count : Nat) : List UInt8 :=
  (List.range count).map fun k => m (base + k)

@[simp] theorem leBytes_length (n v : Nat) : (leBytes n v).length = n := by
  induction n generalizing v with
  | zero => rfl
  | succ n ih => simp [leBytes, ih]

@[simp] theorem slice_length (m : Mem) (base count : Nat) :
    (slice m base count).length = count := by
  simp [slice]

theorem slice_succ (m : Mem) (base count : Nat) :
    slice m base (count + 1) = m base :: slice m (base + 1) count := by
  simp only [slice, List.range_succ_eq_map, List.map_cons, List.map_map, Nat.add_zero,
    List.cons.injEq, true_and]
  apply List.map_congr_left
  intro k _
  simp only [Function.comp, Nat.succ_eq_add_one]
  congr 1
  omega

theorem getLe_lt (m : Mem) (i n : Nat) : getLe m i n < 256 ^ n := by
  induction n generalizing i with
  | zero => simp [getLe]
  | succ n ih =>
      have low := (m i).toNat_lt
      have high := ih (i + 1)
      simp only [getLe, pow_succ]
      omega

theorem get16_lt (m : Mem) (i : Nat) : get16 m i < 65536 := getLe_lt m i 2

theorem get32_lt (m : Mem) (i : Nat) : get32 m i < 4294967296 := getLe_lt m i 4

-- An integer depends on its own bytes only.
theorem getLe_congr (m m' : Mem) (i j n : Nat)
    (same : ∀ k < n, m (i + k) = m' (j + k)) : getLe m i n = getLe m' j n := by
  induction n generalizing i j with
  | zero => rfl
  | succ n ih =>
      have head := same 0 (by omega)
      have tail := ih (i + 1) (j + 1) (fun k hk => by
        simpa [Nat.add_assoc, Nat.add_comm 1] using same (k + 1) (by omega))
      simp only [Nat.add_zero] at head
      simp only [getLe, head, tail]

theorem slice_congr (m m' : Mem) (i j n : Nat)
    (same : ∀ k < n, m (i + k) = m' (j + k)) : slice m i n = slice m' j n := by
  apply List.map_congr_left
  intro k member
  exact same k (List.mem_range.mp member)

theorem blit_outside (m : Mem) (base : Nat) (bytes : List UInt8) (i : Nat)
    (outside : i < base ∨ base + bytes.length ≤ i) : blit m base bytes i = m i := by
  simp only [blit]
  split <;> [omega; rfl]

theorem blit_inside (m : Mem) (base : Nat) (bytes : List UInt8) (k : Nat)
    (inside : k < bytes.length) : blit m base bytes (base + k) = bytes[k] := by
  simp [blit, inside]

theorem fill_outside (m : Mem) (base count : Nat) (byte : UInt8) (i : Nat)
    (outside : i < base ∨ base + count ≤ i) : fill m base count byte i = m i := by
  simp only [fill]
  split <;> [omega; rfl]

theorem fill_inside (m : Mem) (base count : Nat) (byte : UInt8) (i : Nat)
    (lower : base ≤ i) (upper : i < base + count) : fill m base count byte i = byte := by
  simp [fill, lower, upper]

theorem getLe_blit_outside (m : Mem) (base : Nat) (bytes : List UInt8) (i n : Nat)
    (outside : i + n ≤ base ∨ base + bytes.length ≤ i) :
    getLe (blit m base bytes) i n = getLe m i n := by
  apply getLe_congr
  intro k hk
  exact blit_outside m base bytes (i + k) (by omega)

theorem slice_blit_outside (m : Mem) (base : Nat) (bytes : List UInt8) (i n : Nat)
    (outside : i + n ≤ base ∨ base + bytes.length ≤ i) :
    slice (blit m base bytes) i n = slice m i n := by
  apply slice_congr
  intro k hk
  exact blit_outside m base bytes (i + k) (by omega)

theorem slice_blit (m : Mem) (base : Nat) (bytes : List UInt8) :
    slice (blit m base bytes) base bytes.length = bytes := by
  apply List.ext_getElem (by simp)
  intro k _ inside
  simp [slice, blit, inside]

theorem getLe_leBytes (m : Mem) (i n v : Nat)
    (stored : ∀ k < n, m (i + k) = (leBytes n v).getD k 0) : getLe m i n = v % 256 ^ n := by
  induction n generalizing i v with
  | zero => simp [getLe, Nat.mod_one]
  | succ n ih =>
      have head : m i = UInt8.ofNat v := by simpa [leBytes] using stored 0 (by omega)
      have tail := ih (i + 1) (v / 256) (fun k inside => by
        simpa [leBytes, Nat.add_assoc, Nat.add_comm 1] using stored (k + 1) (by omega))
      have low : (UInt8.ofNat v).toNat = v % 256 := by simp
      rw [getLe, head, tail, low, pow_succ, Nat.mul_comm (256 ^ n), Nat.mod_mul]

-- What is stored is what is read back, cut to the field's width.
theorem getLe_blit_leBytes (m : Mem) (i n v : Nat) :
    getLe (blit m i (leBytes n v)) i n = v % 256 ^ n := by
  apply getLe_leBytes
  intro k inside
  simp [blit, inside]

theorem leBytes_getLe (m : Mem) (i n : Nat) : leBytes n (getLe m i n) = slice m i n := by
  induction n generalizing i with
  | zero => rfl
  | succ n ih =>
      have low := (m i).toNat_lt
      have head : UInt8.ofNat (getLe m i (n + 1)) = m i := by
        rw [← UInt8.toNat_inj, UInt8.toNat_ofNat', getLe]
        omega
      have tail : getLe m i (n + 1) / 256 = getLe m (i + 1) n := by
        rw [getLe]
        omega
      rw [leBytes, head, tail, ih, slice_succ]

theorem getLe_zero (m : Mem) (i n : Nat) (zero : ∀ k < n, m (i + k) = 0) : getLe m i n = 0 := by
  induction n generalizing i with
  | zero => rfl
  | succ n ih =>
      have head := zero 0 (by omega)
      have tail := ih (i + 1) (fun k hk => by
        simpa [Nat.add_assoc, Nat.add_comm 1] using zero (k + 1) (by omega))
      simp only [Nat.add_zero] at head
      simp [getLe, head, tail]

end ByteMemory
