import Mathlib

/-!
# Xv6.Lib.Bytes

Byte arrays as functions from offsets, and little-endian numbers stored in
them: what is read back after a write, at the same place and elsewhere.
-/

namespace Lib

/-- The contents of a piece of memory, by offset. -/
abbrev Bytes := Nat → UInt8

/-! ## Little-endian numbers -/

/-- The number stored in the `width` bytes from `off` on. -/
def getLE (b : Bytes) (off : Nat) : Nat → Nat
  | 0 => 0
  | width + 1 => (b off).toNat + 256 * getLE b (off + 1) width

/-- Store `v` in the `width` bytes from `off` on. -/
def putLE (b : Bytes) (off width v : Nat) : Bytes := fun i =>
  if off ≤ i ∧ i < off + width then UInt8.ofNat (v / 256 ^ (i - off)) else b i

variable {off width i : Nat}

theorem putLE_of_outside (b : Bytes) (v : Nat) (h : i < off ∨ off + width ≤ i) :
    putLE b off width v i = b i :=
  if_neg (by omega)

theorem getLE_lt (b : Bytes) (off width : Nat) : getLE b off width < 256 ^ width := by
  induction width generalizing off with
  | zero => simp [getLE]
  | succ width ih =>
    have hrest := ih (off + 1)
    have hbyte := (b off).toNat_lt
    simp only [getLE, Nat.pow_succ]
    omega

theorem getLE_congr {b b' : Bytes}
    (h : ∀ i, off ≤ i → i < off + width → b i = b' i) : getLE b off width = getLE b' off width := by
  induction width generalizing off with
  | zero => rfl
  | succ width ih =>
    simp only [getLE]
    rw [h off le_rfl (by omega), ih fun i hi hi' => h i (by omega) (by omega)]

theorem getLE_putLE (b : Bytes) (off width v : Nat) :
    getLE (putLE b off width v) off width = v % 256 ^ width := by
  induction width generalizing b off v with
  | zero => simp [getLE, Nat.mod_one]
  | succ width ih =>
    have hbyte : putLE b off (width + 1) v off = UInt8.ofNat v := by
      simp [putLE]
    -- the other bytes are those of a write of `v / 256`
    have hrest : getLE (putLE b off (width + 1) v) (off + 1) width =
        getLE (putLE b (off + 1) width (v / 256)) (off + 1) width := by
      refine getLE_congr fun i hi hi' => ?_
      have hpow : v / 256 ^ (i - off) = v / 256 / 256 ^ (i - (off + 1)) := by
        rw [Nat.div_div_eq_div_mul, ← Nat.pow_succ', show i - off = i - (off + 1) + 1 by omega]
      rw [putLE, if_pos (by omega), putLE, if_pos (by omega), hpow]
    rw [getLE, hbyte, hrest, ih, Nat.pow_succ', Nat.mod_mul]
    simp

theorem getLE_putLE_of_disjoint (b : Bytes) {off' width' : Nat} (v : Nat)
    (h : off' + width' ≤ off ∨ off + width ≤ off') :
    getLE (putLE b off width v) off' width' = getLE b off' width' :=
  getLE_congr fun _ _ _ => putLE_of_outside b v (by omega)

theorem getLE_putLE_of_lt (b : Bytes) (off : Nat) {v : Nat} (h : v < 256 ^ width) :
    getLE (putLE b off width v) off width = v := by
  rw [getLE_putLE, Nat.mod_eq_of_lt h]

theorem getLE_div (b : Bytes) {k : Nat} (h : k < width) :
    getLE b off width / 256 ^ k % 256 = (b (off + k)).toNat := by
  induction width generalizing off k with
  | zero => omega
  | succ width ih =>
    have hbyte := (b off).toNat_lt
    rw [getLE]
    cases k with
    | zero =>
      simp only [Nat.pow_zero, Nat.div_one, Nat.add_zero]
      omega
    | succ k =>
      have hdiv : ((b off).toNat + 256 * getLE b (off + 1) width) / 256 =
          getLE b (off + 1) width := by omega
      rw [Nat.pow_succ', ← Nat.div_div_eq_div_mul, hdiv, ih (by omega)]
      congr 2
      omega

theorem putLE_getLE (b : Bytes) (off width : Nat) : putLE b off width (getLE b off width) = b := by
  funext i
  unfold putLE
  split
  · next h =>
    have hdigit : getLE b off width / 256 ^ (i - off) % 256 = (b (off + (i - off))).toNat :=
      getLE_div b (by omega)
    rw [Nat.add_sub_cancel' h.1] at hdigit
    rw [← UInt8.toNat_inj, UInt8.toNat_ofNat', ← hdigit]
  · rfl

variable {ι : Type}

/-- Several numbers of one width are stored at places apart from `off'`. -/
theorem getLE_foldl_putLE_of_disjoint (pos v : ι → Nat) {off' width' : Nat}
    (l : List ι) (b : Bytes) (h : ∀ i ∈ l, off' + width' ≤ pos i ∨ pos i + width ≤ off') :
    getLE (l.foldl (fun b i => putLE b (pos i) width (v i)) b) off' width' = getLE b off' width' := by
  induction l generalizing b with
  | nil => rfl
  | cons i l ih =>
    rw [List.foldl_cons, ih _ fun j hj => h j (List.mem_cons_of_mem i hj)]
    exact getLE_putLE_of_disjoint b (v i) (h i List.mem_cons_self)

/-- Several numbers of one width are stored at places apart from each other. -/
theorem getLE_foldl_putLE (pos v : ι → Nat) {l : List ι}
    (hl : l.Pairwise fun i j => pos i + width ≤ pos j) (b : Bytes) {i : ι} (hi : i ∈ l) :
    getLE (l.foldl (fun b i => putLE b (pos i) width (v i)) b) (pos i) width =
      v i % 256 ^ width := by
  induction l generalizing b with
  | nil => contradiction
  | cons j l ih =>
    obtain ⟨hj, hl⟩ := List.pairwise_cons.mp hl
    rw [List.foldl_cons]
    rcases List.mem_cons.mp hi with rfl | hmem
    · rw [getLE_foldl_putLE_of_disjoint pos v l _ fun k hk => .inl (hj k hk)]
      exact getLE_putLE b (pos i) width (v i)
    · exact ih hl _ hmem

theorem foldl_putLE_of_outside (pos v : ι → Nat) {k : Nat} (l : List ι) (b : Bytes)
    (h : ∀ i ∈ l, k < pos i ∨ pos i + width ≤ k) :
    l.foldl (fun b i => putLE b (pos i) width (v i)) b k = b k := by
  induction l generalizing b with
  | nil => rfl
  | cons i l ih =>
    rw [List.foldl_cons, ih _ fun j hj => h j (List.mem_cons_of_mem i hj)]
    exact putLE_of_outside b (v i) (h i List.mem_cons_self)

/-! ## Copies -/

/-- `memmove(b + off, src, n)` -/
def copyTo (b : Bytes) (off : Nat) (src : Bytes) (n : Nat) : Bytes := fun i =>
  if off ≤ i ∧ i < off + n then src (i - off) else b i

theorem copyTo_inside (b src : Bytes) {n : Nat} (h : off ≤ i) (h' : i < off + n) :
    copyTo b off src n i = src (i - off) :=
  if_pos ⟨h, h'⟩

theorem copyTo_outside (b src : Bytes) {n : Nat} (h : i < off ∨ off + n ≤ i) :
    copyTo b off src n i = b i :=
  if_neg (by omega)

theorem copyTo_copyTo (b src src' : Bytes) (off n n' : Nat) :
    copyTo (copyTo b off src n) (off + n) src' n' =
      copyTo b off (fun i => if i < n then src i else src' (i - n)) (n + n') := by
  funext i
  by_cases hlo : i < off ∨ off + n + n' ≤ i
  · rw [copyTo_outside _ _ (by omega), copyTo_outside _ _ (by omega), copyTo_outside _ _ (by omega)]
  by_cases hmid : i < off + n
  · rw [copyTo_outside _ _ (by omega), copyTo_inside _ _ (by omega) (by omega),
      copyTo_inside _ _ (by omega) (by omega), if_pos (by omega)]
  · rw [copyTo_inside _ _ (by omega) (by omega), copyTo_inside _ _ (by omega) (by omega),
      if_neg (by omega), Nat.sub_sub]

theorem copyTo_congr {b src src' : Bytes} {n : Nat} (h : ∀ i < n, src i = src' i) :
    copyTo b off src n = copyTo b off src' n := by
  funext i
  unfold copyTo
  split
  · exact h _ (by omega)
  · rfl

end Lib
