import Mathlib.Data.Nat.Find
import Mathlib.Data.Nat.NthRoot.Defs
import NginxMedia.BlockStream
import NginxMedia.ByteString

/-! SHA-256 as FIPS 180-4 defines it: the constants from the roots of primes, the message schedule
as a recursion, the padding by the least number of zero bits. Nothing here names a particular
program. -/
namespace Sha2

open ByteString BlockStream

def rotr (n x : UInt32) : UInt32 := (x >>> n) ||| (x <<< (32 - n))

def ch (x y z : UInt32) : UInt32 := (x &&& y) ^^^ (~~~x &&& z)

def maj (x y z : UInt32) : UInt32 := (x &&& y) ^^^ (x &&& z) ^^^ (y &&& z)

def bigSigma0 (x : UInt32) : UInt32 := rotr 2 x ^^^ rotr 13 x ^^^ rotr 22 x

def bigSigma1 (x : UInt32) : UInt32 := rotr 6 x ^^^ rotr 11 x ^^^ rotr 25 x

def sigma0 (x : UInt32) : UInt32 := rotr 7 x ^^^ rotr 18 x ^^^ (x >>> 3)

def sigma1 (x : UInt32) : UInt32 := rotr 17 x ^^^ rotr 19 x ^^^ (x >>> 10)

def primes : List ℕ :=
  (List.range 312).filter fun p => 1 < p ∧ ∀ d ∈ List.range 18, 1 < d → d < p → p % d ≠ 0

def rootBits (n p : ℕ) : UInt32 := UInt32.ofNat (Nat.nthRoot n (p * 2 ^ (32 * n)))

def constants : List UInt32 := primes.map (rootBits 3)

structure Words where
  a : UInt32
  b : UInt32
  c : UInt32
  d : UInt32
  e : UInt32
  f : UInt32
  g : UInt32
  h : UInt32
  deriving DecidableEq

def initial : Words :=
  ⟨rootBits 2 2, rootBits 2 3, rootBits 2 5, rootBits 2 7, rootBits 2 11, rootBits 2 13,
    rootBits 2 17, rootBits 2 19⟩

theorem exists_zeroBits (l : ℕ) : ∃ k, (l + 1 + k) % 512 = 448 :=
  ⟨(959 - l % 512) % 512, by omega⟩

/-- The zero bits between the bit that ends a message of `l` bits and its length. -/
def zeroBits (l : ℕ) : ℕ := Nat.find (exists_zeroBits l)

def pad (m : List UInt8) : List UInt8 :=
  m ++ 0x80 :: List.replicate (zeroBits (m.length * 8) / 8) 0 ++ (putWord 8 (m.length * 8)).reverse

theorem zeroBits_bytes (n : ℕ) : zeroBits (n * 8) / 8 =
    (if n % 64 < 56 then 56 - n % 64 else 120 - n % 64) - 1 := by
  have hbits : zeroBits (n * 8) =
      ((if n % 64 < 56 then 56 - n % 64 else 120 - n % 64) - 1) * 8 + 7 := by
    refine (Nat.find_eq_iff (exists_zeroBits (n * 8))).mpr ⟨?_, fun k hk => ?_⟩
    · split_ifs <;> omega
    · split_ifs at hk <;> omega
  omega

def schedule (m : ℕ → UInt32) (t : ℕ) : UInt32 :=
  if t < 16 then m t
  else sigma1 (schedule m (t - 2)) + schedule m (t - 7) + sigma0 (schedule m (t - 15)) +
    schedule m (t - 16)
termination_by t

def round (m : ℕ → UInt32) (s : Words) (t : ℕ) : Words :=
  let t1 := s.h + bigSigma1 s.e + ch s.e s.f s.g + constants.getD t 0 + schedule m t
  let t2 := bigSigma0 s.a + maj s.a s.b s.c
  ⟨t1 + t2, s.a, s.b, s.c, s.d + t1, s.e, s.f, s.g⟩

def compress (s : Words) (m : ℕ → UInt32) : Words :=
  let r := (List.range 64).foldl (round m) s
  ⟨r.a + s.a, r.b + s.b, r.c + s.c, r.d + s.d, r.e + s.e, r.f + s.f, r.g + s.g, r.h + s.h⟩

def wordAt (block : List UInt8) (i : ℕ) : UInt32 := UInt32.ofNat (be32 block (4 * i))

def digest (s : Words) : List UInt8 :=
  [s.a, s.b, s.c, s.d, s.e, s.f, s.g, s.h].flatMap fun w => put32 w.toNat

def sha256 (m : List UInt8) : List UInt8 :=
  digest ((blocks 64 (pad m)).foldl (fun s block => compress s (wordAt block)) initial)

theorem range_schedule (m : ℕ → UInt32) {l : ℕ} (h : 16 ≤ l) :
    (List.range (l + 1)).map (schedule m) = (List.range l).map (schedule m) ++
      [sigma1 (((List.range l).map (schedule m)).getD (l - 2) 0) +
        ((List.range l).map (schedule m)).getD (l - 7) 0 +
        sigma0 (((List.range l).map (schedule m)).getD (l - 15) 0) +
        ((List.range l).map (schedule m)).getD (l - 16) 0] := by
  have hget : ∀ i < l, ((List.range l).map (schedule m)).getD i 0 = schedule m i := by
    intro i hi
    simp [List.getD_eq_getElem?_getD, hi]
  rw [List.range_succ, List.map_append, List.map_singleton, schedule, if_neg (by omega),
    hget _ (by omega), hget _ (by omega), hget _ (by omega), hget _ (by omega)]

end Sha2
