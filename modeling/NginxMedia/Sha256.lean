import NginxMedia.BlockHash
import NginxMedia.ByteString

/-! The hashes of `ngx_media_rtmp_wire.c`: SHA-256 over a context that is updated piece by piece,
and the keyed hash over it. -/
namespace Sha256

open ByteString BlockStream BlockHash

abbrev Str := List UInt8

def k : List UInt32 :=
  [0x428a2f98, 0x71374491, 0xb5c0fbcf, 0xe9b5dba5, 0x3956c25b, 0x59f111f1,
    0x923f82a4, 0xab1c5ed5, 0xd807aa98, 0x12835b01, 0x243185be, 0x550c7dc3,
    0x72be5d74, 0x80deb1fe, 0x9bdc06a7, 0xc19bf174, 0xe49b69c1, 0xefbe4786,
    0x0fc19dc6, 0x240ca1cc, 0x2de92c6f, 0x4a7484aa, 0x5cb0a9dc, 0x76f988da,
    0x983e5152, 0xa831c66d, 0xb00327c8, 0xbf597fc7, 0xc6e00bf3, 0xd5a79147,
    0x06ca6351, 0x14292967, 0x27b70a85, 0x2e1b2138, 0x4d2c6dfc, 0x53380d13,
    0x650a7354, 0x766a0abb, 0x81c2c92e, 0x92722c85, 0xa2bfe8a1, 0xa81a664b,
    0xc24b8b70, 0xc76c51a3, 0xd192e819, 0xd6990624, 0xf40e3585, 0x106aa070,
    0x19a4c116, 0x1e376c08, 0x2748774c, 0x34b0bcb5, 0x391c0cb3, 0x4ed8aa4a,
    0x5b9cca4f, 0x682e6ff3, 0x748f82ee, 0x78a5636f, 0x84c87814, 0x8cc70208,
    0x90befffa, 0xa4506ceb, 0xbef9a3f7, 0xc67178f2]

def rotr (x n : UInt32) : UInt32 := (x >>> n) ||| (x <<< (32 - n))

structure Words where
  a : UInt32
  b : UInt32
  c : UInt32
  d : UInt32
  e : UInt32
  f : UInt32
  g : UInt32
  h : UInt32
  deriving DecidableEq

def wordAt (p : Str) (i : ℕ) : UInt32 := UInt32.ofNat (be32 p (i * 4))

def schedule : ℕ → List UInt32 → List UInt32
  | 0, w => w
  | n + 1, w =>
    let i := w.length
    let w15 := w.getD (i - 15) 0
    let w2 := w.getD (i - 2) 0
    let s0 := rotr w15 7 ^^^ rotr w15 18 ^^^ (w15 >>> 3)
    let s1 := rotr w2 17 ^^^ rotr w2 19 ^^^ (w2 >>> 10)
    schedule n (w ++ [w.getD (i - 16) 0 + s0 + w.getD (i - 7) 0 + s1])

def round (s : Words) (kw : UInt32 × UInt32) : Words :=
  let s1 := rotr s.e 6 ^^^ rotr s.e 11 ^^^ rotr s.e 25
  let ch := (s.e &&& s.f) ^^^ (~~~s.e &&& s.g)
  let s0 := rotr s.a 2 ^^^ rotr s.a 13 ^^^ rotr s.a 22
  let maj := (s.a &&& s.b) ^^^ (s.a &&& s.c) ^^^ (s.b &&& s.c)
  let t1 := s.h + s1 + ch + kw.1 + kw.2
  let t2 := s0 + maj
  ⟨t1 + t2, s.a, s.b, s.c, s.d + t1, s.e, s.f, s.g⟩

def block (s : Words) (p : Str) : Words :=
  let w := schedule 48 ((List.range 16).map (wordAt p))
  let r := (k.zip w).foldl round s
  ⟨s.a + r.a, s.b + r.b, s.c + r.c, s.d + r.d, s.e + r.e, s.f + r.f, s.g + r.g, s.h + r.h⟩

structure Ctx where
  state : Words
  block : Str
  bits : ℕ

def words : Words :=
  ⟨0x6a09e667, 0xbb67ae85, 0x3c6ef372, 0xa54ff53a, 0x510e527f, 0x9b05688c, 0x1f83d9ab, 0x5be0cd19⟩

def init : Ctx := ⟨words, [], 0⟩

def consumeBlocks : ℕ → Words → Str → Words × Str
  | 0, s, p => (s, p)
  | fuel + 1, s, p =>
    if p.length ≥ 64 then consumeBlocks fuel (block s (p.take 64)) (p.drop 64) else (s, p)

def consume (ctx : Ctx) (p : Str) : Ctx :=
  if ctx.block.length > 0 then
    let take := min (64 - ctx.block.length) p.length
    let filled := ctx.block ++ p.take take
    if filled.length = 64 then
      let (state, left) := consumeBlocks p.length (block ctx.state filled) (p.drop take)
      { ctx with state := state, block := left }
    else { ctx with block := filled }
  else
    let (state, left) := consumeBlocks p.length ctx.state p
    { ctx with state := state, block := left }

def update (ctx : Ctx) (data : Str) : Ctx :=
  consume { ctx with bits := ctx.bits + data.length * 8 } data

def padding (filled bits : ℕ) : Str :=
  let padLen := if filled < 56 then 56 - filled else 120 - filled
  0x80 :: List.replicate (padLen - 1) 0 ++ (putWord 8 bits).reverse

def output (s : Words) : Str :=
  [s.a, s.b, s.c, s.d, s.e, s.f, s.g, s.h].flatMap fun w => put32 w.toNat

def final (ctx : Ctx) : Str := output (consume ctx (padding ctx.block.length ctx.bits)).state

/-- `k` of the keyed hash, before its first round. -/
def keyBlock (key : Str) : Str :=
  let short := if key.length > 64 then final (update init key) else key
  short ++ List.replicate (64 - short.length) 0

def hmacSha256 (key data : Str) : Str :=
  let block := (keyBlock key).map (· ^^^ 0x36)
  let inner := final (update (update init block) data)
  let block := block.map (· ^^^ (0x36 ^^^ 0x5C))
  final (update (update init block) inner)

/-- The digest of a message at once. -/
def hash (m : Str) : Str :=
  output ((blocks 64 (m ++ padding (m.length % 64) (m.length * 8))).foldl block words)

theorem consumeBlocks_eq {fuel : ℕ} {s : Words} {p : Str} (h : p.length ≤ fuel) :
    consumeBlocks fuel s p = absorb block 64 (s, []) p := by
  induction fuel generalizing s p with
  | zero =>
    have hp : p = [] := List.eq_nil_of_length_eq_zero (by omega)
    rw [hp, absorb_nil (by decide)]
    rfl
  | succ fuel ih =>
    rw [consumeBlocks]
    split_ifs with hlong
    · have hdrop : (p.drop 64).length ≤ fuel := by
        rw [List.length_drop]
        omega
      rw [ih hdrop, absorb_block (by decide) hlong]
    · rw [absorb_fill (by decide) (by rw [List.length_nil]; omega),
        if_neg (by rw [List.length_nil]; omega), List.nil_append]

def Ctx.held (ctx : Ctx) : Words × Str := (ctx.state, ctx.block)

theorem consume_held {ctx : Ctx} (h : ctx.block.length < 64) (p : Str) :
    (consume ctx p).held = absorb block 64 ctx.held p ∧ (consume ctx p).bits = ctx.bits := by
  unfold consume
  by_cases hsome : ctx.block.length > 0
  · rw [if_pos hsome]
    have hle : min (64 - ctx.block.length) p.length ≤ p.length := Nat.min_le_right _ _
    have hroom : min (64 - ctx.block.length) p.length = 64 - ctx.block.length ∨
        min (64 - ctx.block.length) p.length = p.length := by omega
    have hfits : min (64 - ctx.block.length) p.length ≤ 64 - ctx.block.length :=
      Nat.min_le_left _ _
    generalize min (64 - ctx.block.length) p.length = take at hle hroom hfits
    have hlen : (p.take take).length = take := List.length_take_of_le hle
    have hfilled : (ctx.block ++ p.take take).length = ctx.block.length + take := by
      rw [List.length_append, hlen]
    have hparts : absorb block 64 ctx.held p =
        absorb block 64 (absorb block 64 ctx.held (p.take take)) (p.drop take) := by
      rw [absorb_append (by decide), List.take_append_drop]
    have hfirst := @absorb_fill _ block 64 ctx.state ctx.block (p.take take) (by decide) (by omega)
    have hheld : ctx.held = (ctx.state, ctx.block) := rfl
    rw [hparts, hheld]
    by_cases hfull : (ctx.block ++ p.take take).length = 64
    · rw [if_pos (by omega)] at hfirst
      have hleft : (p.drop take).length ≤ p.length := by
        rw [List.length_drop]
        omega
      rw [hfirst, ← consumeBlocks_eq hleft]
      dsimp only
      rw [if_pos hfull]
      exact ⟨rfl, rfl⟩
    · have hall : p.drop take = [] := List.drop_of_length_le (by omega)
      rw [if_neg (by omega)] at hfirst
      rw [hfirst, hall, absorb_nil (by omega)]
      dsimp only
      rw [if_neg hfull]
      exact ⟨rfl, rfl⟩
  · have hnone : ctx.block = [] := List.eq_nil_of_length_eq_zero (by omega)
    have hheld : ctx.held = (ctx.state, []) := by rw [Ctx.held, hnone]
    rw [if_neg hsome, hheld, ← consumeBlocks_eq (le_refl p.length)]
    exact ⟨rfl, rfl⟩

/-- A context behind the bytes that were put into it. -/
structure Reads (ctx : Ctx) (m : Str) : Prop where
  absorbed : ctx.held = absorb block 64 (words, []) m
  counted : ctx.bits = m.length * 8

theorem init_reads : Reads init [] :=
  ⟨(absorb_nil (by decide)).symm, rfl⟩

theorem Reads.block_length {ctx : Ctx} {m : Str} (h : Reads ctx m) :
    ctx.block.length = m.length % 64 := by
  have hblock : ctx.block = rest 64 m := congrArg Prod.snd h.absorbed
  rw [hblock, rest_length (by decide)]

theorem Reads.block_lt {ctx : Ctx} {m : Str} (h : Reads ctx m) : ctx.block.length < 64 := by
  rw [h.block_length]
  exact Nat.mod_lt _ (by decide)

theorem Reads.consumed {ctx : Ctx} {m : Str} (h : Reads ctx m) (p : Str) :
    (consume ctx p).held = absorb block 64 (words, []) (m ++ p) := by
  rw [(consume_held h.block_lt p).1, h.absorbed, absorb_append (by decide)]

theorem Reads.update {ctx : Ctx} {m : Str} (h : Reads ctx m) (data : Str) :
    Reads (Sha256.update ctx data) (m ++ data) := by
  have hctx : ({ ctx with bits := ctx.bits + data.length * 8 } : Ctx).block.length < 64 :=
    h.block_lt
  obtain ⟨hheld, hbits⟩ := consume_held hctx data
  constructor
  · rw [Sha256.update, hheld]
    change absorb block 64 ctx.held data = _
    rw [h.absorbed, absorb_append (by decide)]
  · rw [Sha256.update, hbits, List.length_append, Nat.add_mul]
    exact congrArg (· + data.length * 8) h.counted

theorem Reads.final {ctx : Ctx} {m : Str} (h : Reads ctx m) : Sha256.final ctx = hash m := by
  have hstate : (consume ctx (padding ctx.block.length ctx.bits)).state =
      (absorb block 64 (words, []) (m ++ padding ctx.block.length ctx.bits)).1 :=
    congrArg Prod.fst (h.consumed _)
  rw [Sha256.final, hstate, h.block_length, h.counted]
  rfl

theorem final_one (m : Str) : final (update init m) = hash m := (init_reads.update m).final

example : final (update init (ascii "abc")) =
    [0xba, 0x78, 0x16, 0xbf, 0x8f, 0x01, 0xcf, 0xea, 0x41, 0x41, 0x40, 0xde, 0x5d, 0xae, 0x22, 0x23,
      0xb0, 0x03, 0x61, 0xa3, 0x96, 0x17, 0x7a, 0x9c, 0xb4, 0x10, 0xff, 0x61, 0xf2, 0x00, 0x15,
      0xad] := by decide +kernel

theorem final_two (a b : Str) : final (update (update init a) b) = hash (a ++ b) :=
  ((init_reads.update a).update b).final

theorem final_three (a b c : Str) :
    final (update (update (update init a) b) c) = hash (a ++ b ++ c) :=
  (((init_reads.update a).update b).update c).final

theorem keyBlock_eq (key : Str) : keyBlock key = blockKey hash 64 key := by
  rw [keyBlock, final_one]
  rfl

theorem pads_outer (l : Str) :
    (l.map (· ^^^ 0x36)).map (· ^^^ (0x36 ^^^ 0x5C)) = l.map (· ^^^ 0x5C) := by
  rw [List.map_map]
  refine List.map_congr_left fun x _ => ?_
  have hcancel : x ^^^ 0x36 ^^^ (0x36 ^^^ 0x5C) = x ^^^ (0x36 ^^^ 0x36) ^^^ 0x5C := by
    rw [← UInt8.xor_assoc, UInt8.xor_assoc x]
  rw [Function.comp_apply, hcancel, UInt8.xor_self, UInt8.xor_zero]

theorem hmacSha256_eq (key data : Str) : hmacSha256 key data = hmac hash 64 key data := by
  rw [hmacSha256, hmac, pads_outer, final_two, final_two, keyBlock_eq]

theorem hmac_length (key data : Str) : (hmac hash 64 key data).length = 32 := rfl

end Sha256
