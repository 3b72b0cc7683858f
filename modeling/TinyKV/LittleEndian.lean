import TinyKV.BigEndian

/-!
# Words as bytes, the least significant first

The strings of `BigEndian` in reverse, and lists of words of one width, as a slice of words lies in
the memory of a machine with this order of bytes.
-/

namespace TinyKV.LittleEndian

open List

def bytes (n v : ℕ) : Bytes := (BigEndian.bytes n v).reverse

def value (b : Bytes) : ℕ := BigEndian.value b.reverse

def pack (n : ℕ) (words : List ℕ) : Bytes := words.flatMap (bytes n)

def unpackLoop (n : ℕ) : ℕ → Bytes → List ℕ
  | 0, _ => []
  | count + 1, b => value (b.take n) :: unpackLoop n count (b.drop n)

/-- The words of `n` bytes in a string of bytes. -/
def unpack (n : ℕ) (b : Bytes) : List ℕ := unpackLoop n (b.length / n) b

@[simp]
theorem length_bytes (n v : ℕ) : (bytes n v).length = n := by
  rw [bytes, length_reverse, BigEndian.length_bytes]

theorem value_bytes (n v : ℕ) : value (bytes n v) = v % 256^n := by
  rw [value, bytes, reverse_reverse, BigEndian.value, BigEndian.foldl_bytes]
  simp

theorem value_lt (b : Bytes) : value b < 256^b.length := by
  have hlt := BigEndian.value_lt b.reverse
  rwa [length_reverse] at hlt

@[simp]
theorem length_pack (n : ℕ) (words : List ℕ) : (pack n words).length = n * words.length := by
  induction words with
  | nil => simp [pack]
  | cons v words ih =>
    rw [pack, flatMap_cons, length_append, length_bytes, length_cons,
      Nat.mul_succ, Nat.add_comm]
    exact congrArg (· + n) ih

theorem unpack_pack {n : ℕ} (hn : 0 < n) {words : List ℕ} (h : ∀ v ∈ words, v < 256^n) :
    unpack n (pack n words) = words := by
  have hcount : (pack n words).length / n = words.length := by
    rw [length_pack, Nat.mul_div_cancel_left _ hn]
  rw [unpack, hcount]
  clear hcount
  induction words with
  | nil => rfl
  | cons v words ih =>
    have hfirst : (bytes n v ++ pack n words).take n = bytes n v := by
      rw [take_left' (length_bytes n v)]
    have hrest : (bytes n v ++ pack n words).drop n = pack n words := by
      rw [drop_left' (length_bytes n v)]
    have hcons : pack n (v :: words) = bytes n v ++ pack n words := flatMap_cons
    rw [length_cons, unpackLoop, hcons, hfirst, hrest, value_bytes,
      Nat.mod_eq_of_lt (h v mem_cons_self), ih fun w hw => h w (mem_cons_of_mem v hw)]

theorem length_unpack (n : ℕ) (b : Bytes) : (unpack n b).length = b.length / n := by
  have hloop : ∀ (count : ℕ) (b : Bytes), (unpackLoop n count b).length = count := by
    intro count
    induction count with
    | zero => exact fun _ => rfl
    | succ count ih => exact fun b => by rw [unpackLoop, length_cons, ih]
  exact hloop _ b

theorem lt_of_mem_unpack {n v : ℕ} {b : Bytes} (hv : v ∈ unpack n b) : v < 256^n := by
  have hloop : ∀ (count : ℕ) (b : Bytes), v ∈ unpackLoop n count b → v < 256^n := by
    intro count
    induction count with
    | zero =>
      intro b hv
      cases hv
    | succ count ih =>
      intro b hv
      rcases mem_cons.mp hv with rfl | hv
      · exact (value_lt _).trans_le
          (Nat.pow_le_pow_right (by decide) (by rw [length_take]; exact Nat.min_le_left _ _))
      · exact ih _ hv
  exact hloop _ b hv

theorem bytes_value (b : Bytes) : bytes b.length (value b) = b := by
  have heq := BigEndian.bytes_value b.reverse
  rw [length_reverse] at heq
  rw [bytes, value, heq, reverse_reverse]

theorem pack_unpack {n count : ℕ} {b : Bytes} (hn : 0 < n) (h : b.length = n * count) :
    pack n (unpack n b) = b := by
  have hcount : b.length / n = count := by rw [h, Nat.mul_div_cancel_left _ hn]
  rw [unpack, hcount]
  clear hcount
  induction count generalizing b with
  | zero =>
    obtain rfl : b = [] := length_eq_zero_iff.mp h
    rfl
  | succ count ih =>
    rw [Nat.mul_succ] at h
    have hfirst : (b.take n).length = n := by
      rw [length_take]
      omega
    have hbytes := bytes_value (b.take n)
    rw [hfirst] at hbytes
    have hrest : pack n (unpackLoop n count (b.drop n)) = b.drop n :=
      ih (by rw [length_drop]; omega)
    have hcons : pack n (value (b.take n) :: unpackLoop n count (b.drop n)) =
        bytes n (value (b.take n)) ++ pack n (unpackLoop n count (b.drop n)) := flatMap_cons
    rw [unpackLoop, hcons, hbytes, hrest, take_append_drop]

end TinyKV.LittleEndian
