import Mathlib.Data.List.GetD
import Mathlib.Data.Nat.Digits.Defs
import Mathlib.Tactic.Common

/-! Big-endian integers in byte strings, read at an offset and written as a list, and decimal
numbers as text. Reads past the end give zero, so that reading is total; the lemmas say when
more bytes do not matter. -/
namespace ByteString

variable {a b : List UInt8} {i n : ℕ}

instance lawfulBytes : LawfulBEq (List UInt8) := inferInstance

def byteAt (bytes : List UInt8) (i : ℕ) : ℕ := (bytes.getD i 0).toNat

def be24 (bytes : List UInt8) (i : ℕ) : ℕ :=
  byteAt bytes i * 65536 + byteAt bytes (i + 1) * 256 + byteAt bytes (i + 2)

def be32 (bytes : List UInt8) (i : ℕ) : ℕ :=
  byteAt bytes i * 16777216 + be24 bytes (i + 1)

def low (n : ℕ) : UInt8 := UInt8.ofNat n

def put24 (n : ℕ) : List UInt8 := [low (n / 65536), low (n / 256), low n]

def put32 (n : ℕ) : List UInt8 := low (n / 16777216) :: put24 n

theorem byteAt_lt (bytes : List UInt8) (i : ℕ) : byteAt bytes i < 256 := (bytes.getD i 0).toNat_lt

theorem be24_lt (bytes : List UInt8) (i : ℕ) : be24 bytes i < 16777216 := by
  have h0 := byteAt_lt bytes i
  have h1 := byteAt_lt bytes (i + 1)
  have h2 := byteAt_lt bytes (i + 2)
  unfold be24
  omega

theorem be32_lt (bytes : List UInt8) (i : ℕ) : be32 bytes i < 4294967296 := by
  have h0 := byteAt_lt bytes i
  have h1 := be24_lt bytes (i + 1)
  unfold be32
  omega

theorem byteAt_append (h : i < a.length) (b : List UInt8) : byteAt (a ++ b) i = byteAt a i := by
  rw [byteAt, byteAt, List.getD_append _ _ _ _ h]

theorem be24_append (h : i + 3 ≤ a.length) (b : List UInt8) : be24 (a ++ b) i = be24 a i := by
  rw [be24, be24, byteAt_append (by omega), byteAt_append (by omega), byteAt_append (by omega)]

theorem be32_append (h : i + 4 ≤ a.length) (b : List UInt8) : be32 (a ++ b) i = be32 a i := by
  rw [be32, be32, byteAt_append (by omega), be24_append (by omega)]

@[simp] theorem byteAt_zero (x : UInt8) (l : List UInt8) : byteAt (x :: l) 0 = x.toNat := rfl

@[simp] theorem byteAt_succ (x : UInt8) (l : List UInt8) (i : ℕ) :
    byteAt (x :: l) (i + 1) = byteAt l i := by
  simp [byteAt]

theorem be24_succ (x : UInt8) (l : List UInt8) (i : ℕ) : be24 (x :: l) (i + 1) = be24 l i := by
  rw [be24, be24, byteAt_succ, byteAt_succ, byteAt_succ]

theorem be32_succ (x : UInt8) (l : List UInt8) (i : ℕ) : be32 (x :: l) (i + 1) = be32 l i := by
  rw [be32, be32, byteAt_succ, be24_succ]

@[simp] theorem low_toNat (n : ℕ) : (low n).toNat = n % 256 := by
  simp [low]

theorem be24_put24 (n : ℕ) (rest : List UInt8) : be24 (put24 n ++ rest) 0 = n % 16777216 := by
  have : be24 (put24 n ++ rest) 0 = n / 65536 % 256 * 65536 + n / 256 % 256 * 256 + n % 256 := by
    simp [be24, put24]
  rw [this]
  omega

theorem be32_put32 (n : ℕ) (rest : List UInt8) : be32 (put32 n ++ rest) 0 = n % 4294967296 := by
  have htail : be24 (put32 n ++ rest) 1 = be24 (put24 n ++ rest) 0 := be24_succ _ _ 0
  have hhead : byteAt (put32 n ++ rest) 0 = n / 16777216 % 256 := by
    simp [put32]
  rw [be32, htail, hhead, be24_put24]
  omega

@[simp] theorem put24_length (n : ℕ) : (put24 n).length = 3 := rfl

@[simp] theorem put32_length (n : ℕ) : (put32 n).length = 4 := rfl

theorem byteAt_add (h : a.length = n) (b : List UInt8) (i : ℕ) :
    byteAt (a ++ b) (n + i) = byteAt b i := by
  subst h
  rw [byteAt, byteAt, List.getD_append_right _ _ _ _ (by omega), Nat.add_sub_cancel_left]

theorem be24_add (h : a.length = n) (b : List UInt8) (i : ℕ) :
    be24 (a ++ b) (n + i) = be24 b i := by
  rw [be24, be24, byteAt_add h, Nat.add_assoc n, Nat.add_assoc n, byteAt_add h, byteAt_add h]

theorem be32_add (h : a.length = n) (b : List UInt8) (i : ℕ) :
    be32 (a ++ b) (n + i) = be32 b i := by
  rw [be32, be32, byteAt_add h, Nat.add_assoc n, be24_add h]

def putWord : ℕ → ℕ → List UInt8
  | 0, _ => []
  | w + 1, n => low n :: putWord w (n / 256)

def word : List UInt8 → ℕ
  | [] => 0
  | x :: rest => x.toNat + 256 * word rest

@[simp] theorem putWord_length (w n : ℕ) : (putWord w n).length = w := by
  induction w generalizing n with
  | zero => rfl
  | succ w ih => rw [putWord, List.length_cons, ih]

theorem word_putWord {w n : ℕ} (h : n < 256 ^ w) : word (putWord w n) = n := by
  induction w generalizing n with
  | zero =>
    rw [Nat.pow_zero] at h
    rw [putWord, word]
    omega
  | succ w ih =>
    rw [Nat.pow_succ] at h
    have hrest : n / 256 < 256 ^ w := by omega
    rw [putWord, word, ih hrest, low_toNat]
    omega

def ascii (s : String) : List UInt8 := s.toList.map fun c => UInt8.ofNat c.toNat

def decimal (n : ℕ) : List UInt8 :=
  if n = 0 then ascii "0" else (Nat.digits 10 n).reverse.map fun d => UInt8.ofNat (48 + d)

/-- `%06lu` and its like. -/
def padded (width n : ℕ) : List UInt8 :=
  List.replicate (width - (decimal n).length) 48 ++ decimal n

def decimalValue (text : List UInt8) : ℕ :=
  Nat.ofDigits 10 (text.map fun c => c.toNat - 48).reverse

theorem decimal_ne_nil (n : ℕ) : decimal n ≠ [] := by
  unfold decimal
  split
  · decide
  · rename_i hn
    simpa using Nat.digits_ne_nil_iff_ne_zero.mpr hn

theorem mem_decimal {n : ℕ} {c : UInt8} (h : c ∈ decimal n) :
    ∃ d < 10, c = UInt8.ofNat (48 + d) := by
  unfold decimal at h
  split_ifs at h with hn
  · exact ⟨0, by decide, List.mem_singleton.mp h⟩
  · obtain ⟨d, hd, rfl⟩ := List.mem_map.mp h
    exact ⟨d, Nat.digits_lt_base (by decide) (List.mem_reverse.mp hd), rfl⟩

theorem decimalValue_decimal (n : ℕ) : decimalValue (decimal n) = n := by
  unfold decimal decimalValue
  by_cases h : n = 0
  · rw [if_pos h, h]
    rfl
  · have hdigits : ((Nat.digits 10 n).reverse.map fun d => UInt8.ofNat (48 + d)).map
        (fun c => c.toNat - 48) = (Nat.digits 10 n).reverse := by
      rw [List.map_map]
      refine (List.map_congr_left ?_).trans (List.map_id _)
      intro d hd
      have hlt := Nat.digits_lt_base (by decide : 1 < 10) (List.mem_reverse.mp hd)
      have htwo : (48 + d) % 2 ^ 8 = 48 + d := Nat.mod_eq_of_lt (by omega)
      simp only [Function.comp_apply, UInt8.toNat_ofNat', htwo, id_eq]
      omega
    rw [if_neg h, hdigits, List.reverse_reverse, Nat.ofDigits_digits]

theorem decimal_injective : Function.Injective decimal := fun a b h => by
  rw [← decimalValue_decimal a, h, decimalValue_decimal]

theorem decimalValue_padded (width n : ℕ) : decimalValue (padded width n) = n := by
  have hzeros : decimalValue (padded width n) = decimalValue (decimal n) := by
    simp only [padded, decimalValue, List.map_append, List.map_replicate, List.reverse_append,
      List.reverse_replicate]
    exact Nat.ofDigits_append_replicate_zero _
  rw [hzeros, decimalValue_decimal]

theorem padded_injective (width : ℕ) : Function.Injective (padded width) := fun a b h => by
  rw [← decimalValue_padded width a, h, decimalValue_padded]

end ByteString
