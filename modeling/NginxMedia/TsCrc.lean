import Mathlib.Logic.Function.Iterate
import NginxMedia.ByteString

/-! The MPEG-2 CRC of `ngx_media_ts_crc.c`, bit by bit with the most significant bit first, and
its residue: a string followed by its own CRC has the CRC zero. -/
namespace TsCrc

open ByteString

def polynomial : BitVec 32 := 0x04C11DB7#32

def crcBit (crc : BitVec 32) : BitVec 32 :=
  if crc.msb then (crc <<< 1) ^^^ polynomial else crc <<< 1

def crcByte (crc : BitVec 32) (b : UInt8) : BitVec 32 :=
  crcBit^[8] (crc ^^^ (BitVec.ofNat 32 b.toNat <<< 24))

def crc32 (bytes : List UInt8) : BitVec 32 := bytes.foldl crcByte 0xFFFFFFFF#32

theorem crcBit_small {c : BitVec 32} (h : c.toNat < 2 ^ 31) : (crcBit c).toNat = c.toNat * 2 := by
  have hmsb : c.msb = false := by
    rw [BitVec.msb_eq_false_iff_two_mul_lt]
    omega
  rw [crcBit, hmsb, if_neg (by simp), BitVec.toNat_shiftLeft, Nat.shiftLeft_eq]
  omega

theorem crcBit_iterate_small {c : BitVec 32} (h : c.toNat < 2 ^ 24) (k : ℕ) (hk : k ≤ 8) :
    (crcBit^[k] c).toNat = c.toNat * 2 ^ k := by
  induction k with
  | zero => simp
  | succ k ih =>
    have hprev := ih (by omega)
    have hpow : 2 ^ k ≤ 2 ^ 7 := Nat.pow_le_pow_right (by decide) (by omega)
    have hlt : (crcBit^[k] c).toNat < 2 ^ 31 := by
      rw [hprev]
      calc c.toNat * 2 ^ k ≤ c.toNat * 2 ^ 7 := Nat.mul_le_mul_left _ hpow
        _ < 2 ^ 31 := by omega
    rw [Function.iterate_succ_apply', crcBit_small hlt, hprev, Nat.pow_succ, Nat.mul_assoc]

theorem xor_top (c : BitVec 32) :
    (c ^^^ (BitVec.ofNat 32 (low (c.toNat / 2 ^ 24)).toNat <<< 24)).toNat = c.toNat % 2 ^ 24 := by
  have hlow : BitVec.ofNat 32 (low (c.toNat / 2 ^ 24)).toNat = c >>> 24 := by
    apply BitVec.eq_of_toNat_eq
    have := c.isLt
    rw [low_toNat, BitVec.toNat_ofNat, BitVec.toNat_ushiftRight, Nat.shiftRight_eq_div_pow]
    omega
  have hbits : c ^^^ ((c >>> 24) <<< 24) = (c <<< 8) >>> 8 := by
    ext i hi
    simp only [BitVec.getElem_xor, BitVec.getElem_shiftLeft, BitVec.getElem_ushiftRight,
      BitVec.getLsbD_shiftLeft]
    by_cases h24 : i < 24
    · have : 8 + i < 32 := by omega
      simp [h24, this]
      simp [BitVec.getLsbD_eq_getElem hi]
    · have : ¬ 8 + i < 32 := by omega
      have hback : 24 + (i - 24) = i := by omega
      simp [h24, this, hback, BitVec.getLsbD_eq_getElem hi]
  rw [hlow, hbits, BitVec.toNat_ushiftRight, BitVec.toNat_shiftLeft, Nat.shiftLeft_eq,
    Nat.shiftRight_eq_div_pow]
  have := c.isLt
  omega

theorem crcByte_top (c : BitVec 32) : crcByte c (low (c.toNat / 2 ^ 24)) = c <<< 8 := by
  apply BitVec.eq_of_toNat_eq
  have hx := xor_top c
  have hlt : c.toNat % 2 ^ 24 < 2 ^ 24 := Nat.mod_lt _ (by decide)
  rw [crcByte, crcBit_iterate_small (by rw [hx]; exact hlt) 8 (Nat.le_refl _), hx,
    BitVec.toNat_shiftLeft, Nat.shiftLeft_eq]
  have := c.isLt
  omega

theorem low_congr {m n : ℕ} (h : m % 256 = n % 256) : low m = low n := by
  apply UInt8.toNat_inj.mp
  rw [low_toNat, low_toNat, h]

theorem foldl_self (c : BitVec 32) : (put32 c.toNat).foldl crcByte c = 0 := by
  have hlt := c.isLt
  have hnext : ∀ (k n : ℕ), (c <<< k).toNat / 2 ^ 24 % 256 = n % 256 →
      crcByte (c <<< k) (low n) = c <<< (k + 8) := by
    intro k n hn
    rw [← low_congr hn, crcByte_top, BitVec.shiftLeft_add]
  have h0 : crcByte c (low (c.toNat / 16777216)) = c <<< 8 := crcByte_top c
  have h1 : crcByte (c <<< 8) (low (c.toNat / 65536)) = c <<< 16 := by
    apply hnext 8
    rw [BitVec.toNat_shiftLeft, Nat.shiftLeft_eq]
    omega
  have h2 : crcByte (c <<< 16) (low (c.toNat / 256)) = c <<< 24 := by
    apply hnext 16
    rw [BitVec.toNat_shiftLeft, Nat.shiftLeft_eq]
    omega
  have h3 : crcByte (c <<< 24) (low c.toNat) = c <<< 32 := by
    apply hnext 24
    rw [BitVec.toNat_shiftLeft, Nat.shiftLeft_eq]
    omega
  simp only [put32, put24, List.foldl_cons, List.foldl_nil, h0, h1, h2, h3]
  exact BitVec.shiftLeft_eq_zero (Nat.le_refl _)

theorem crc32_residue (s : List UInt8) : crc32 (s ++ put32 (crc32 s).toNat) = 0 := by
  rw [crc32, List.foldl_append]
  exact foldl_self _

end TsCrc
